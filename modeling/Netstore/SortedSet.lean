import Mathlib.Data.List.Sort
import Mathlib.Data.Finset.Dedup

/-!
# Ordered sets

A finite set of an ordered type, kept as its strictly increasing list of elements :
what an ordered container iterates over. `insert` and `erase` keep the order, so the
list is determined by the members (`SortedSet.ext`).
-/

namespace Netstore

/-- A finite set with its elements in increasing order. -/
structure SortedSet (α : Type*) [LinearOrder α] where
  /-- The elements, in the order of an iteration. -/
  toList : List α
  sorted : toList.Pairwise (· < ·)

namespace SortedSet

variable {α : Type*} [LinearOrder α] {s t : SortedSet α} {a b : α}

instance : Membership α (SortedSet α) :=
  ⟨fun s a => a ∈ s.toList⟩

instance (a : α) (s : SortedSet α) : Decidable (a ∈ s) :=
  inferInstanceAs (Decidable (a ∈ s.toList))

instance (p : α → Prop) [DecidablePred p] (s : SortedSet α) : Decidable (∀ a ∈ s, p a) :=
  inferInstanceAs (Decidable (∀ a ∈ s.toList, p a))

@[simp] theorem mem_toList : a ∈ s.toList ↔ a ∈ s :=
  Iff.rfl

theorem nodup (s : SortedSet α) : s.toList.Nodup :=
  s.sorted.imp ne_of_lt

/-- The members determine the list. -/
@[ext] theorem ext (h : ∀ a, a ∈ s ↔ a ∈ t) : s = t := by
  obtain ⟨l, hl⟩ := s
  obtain ⟨m, hm⟩ := t
  have hp : l.Perm m :=
    (List.perm_ext_iff_of_nodup (hl.imp ne_of_lt) (hm.imp ne_of_lt)).mpr h
  obtain rfl := hp.eq_of_pairwise (fun a b _ _ hab hba => (lt_asymm hab hba).elim) hl hm
  rfl

/-- The set with no elements. -/
def empty : SortedSet α :=
  ⟨[], List.Pairwise.nil⟩

@[simp] theorem not_mem_empty : a ∉ (empty : SortedSet α) :=
  List.not_mem_nil

theorem pairwise_orderedInsert {l : List α} (hl : l.Pairwise (· < ·)) (ha : a ∉ l) :
    (l.orderedInsert (· ≤ ·) a).Pairwise (· < ·) := by
  induction l with
  | nil => simp
  | cons b l ih =>
    rw [List.orderedInsert_cons]
    simp only [List.mem_cons, not_or] at ha
    obtain ⟨hb, hl⟩ := List.pairwise_cons.mp hl
    split_ifs with hab
    · have hlt := lt_of_le_of_ne hab ha.1
      refine List.pairwise_cons.mpr ⟨fun c hc => ?_, List.pairwise_cons.mpr ⟨hb, hl⟩⟩
      rcases List.mem_cons.mp hc with rfl | hc
      · exact hlt
      · exact hlt.trans (hb c hc)
    · refine List.pairwise_cons.mpr ⟨fun c hc => ?_, ih hl ha.2⟩
      rcases (List.mem_orderedInsert _).mp hc with rfl | hc
      · exact lt_of_not_ge hab
      · exact hb c hc

/-- Add an element; nothing changes if it is there. -/
def insert (s : SortedSet α) (a : α) : SortedSet α :=
  if h : a ∈ s then s else ⟨s.toList.orderedInsert (· ≤ ·) a, pairwise_orderedInsert s.sorted h⟩

/-- Take an element away. -/
def erase (s : SortedSet α) (a : α) : SortedSet α :=
  ⟨s.toList.erase a, s.sorted.sublist List.erase_sublist⟩

@[simp] theorem mem_insert : b ∈ s.insert a ↔ b = a ∨ b ∈ s := by
  unfold insert
  split_ifs with h
  · exact ⟨Or.inr, fun hb => hb.elim (· ▸ h) id⟩
  · exact List.mem_orderedInsert _

@[simp] theorem mem_erase : b ∈ s.erase a ↔ b ≠ a ∧ b ∈ s :=
  s.nodup.mem_erase_iff

/-- Taking out what was put in. -/
theorem erase_insert (h : a ∉ s) : (s.insert a).erase a = s := by
  ext b
  rw [mem_erase, mem_insert]
  exact ⟨fun hb => hb.2.resolve_left hb.1, fun hb => ⟨fun he => h (he ▸ hb), Or.inr hb⟩⟩

/-- The set of the elements of a list. -/
def ofList (l : List α) : SortedSet α :=
  l.foldl insert empty

theorem mem_foldl_insert {l : List α} : b ∈ l.foldl insert s ↔ b ∈ s ∨ b ∈ l := by
  induction l generalizing s with
  | nil => simp
  | cons a l ih =>
    rw [List.foldl_cons, ih, mem_insert, List.mem_cons]
    tauto

@[simp] theorem mem_ofList {l : List α} : b ∈ ofList l ↔ b ∈ l := by
  simp [ofList, mem_foldl_insert]

/-- No element is lost. -/
theorem length_ofList {l : List α} (h : l.Nodup) : (ofList l).toList.length = l.length :=
  ((List.perm_ext_iff_of_nodup (ofList l).nodup h).mpr fun _ => mem_ofList).length_eq

/-- The elements without their order. -/
def toFinset (s : SortedSet α) : Finset α :=
  ⟨s.toList, s.nodup⟩

@[simp] theorem mem_toFinset : a ∈ s.toFinset ↔ a ∈ s :=
  Iff.rfl

end SortedSet

end Netstore
