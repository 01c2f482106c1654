import Mathlib.Data.List.Chain

/-!
# Splitting at runs of separators

`splitRuns` takes a list apart at every maximal run of separators, so that a list which
begins or ends with one has an empty first or last part. Joined with one element between
the parts, the list is squeezed (`intercalate_splitRuns`) : each run is that element. It
comes back as it was exactly if each separator is that element and no two are side by
side (`squeeze_eq_self_iff`).
-/

namespace Netstore

namespace Tokens

variable {α : Type*} (p : α → Bool)

/-- The parts between the maximal runs of separators. -/
def splitRuns : List α → List (List α)
  | [] => [[]]
  | a :: l =>
    if p a then
      if l.head?.any p then splitRuns l else [] :: splitRuns l
    else (splitRuns l).modifyHead (a :: ·)

/-- Each maximal run of separators replaced by `b`. -/
def squeeze (b : α) : List α → List α
  | [] => []
  | a :: l =>
    if p a then
      if l.head?.any p then squeeze b l else b :: squeeze b l
    else a :: squeeze b l

variable {p}

theorem splitRuns_ne_nil (l : List α) : splitRuns p l ≠ [] := by
  induction l with
  | nil => simp [splitRuns]
  | cons a l ih =>
    rw [splitRuns]
    split_ifs
    · exact ih
    · simp
    · simpa [List.modifyHead_eq_nil_iff] using ih

/-- A part without separators is the first. -/
theorem splitRuns_append {w : List α} (hw : ∀ a ∈ w, p a = false) (l : List α) :
    splitRuns p (w ++ l) = (splitRuns p l).modifyHead (w ++ ·) := by
  induction w with
  | nil =>
    rw [List.nil_append]
    cases splitRuns p l <;> rfl
  | cons a w ih =>
    obtain ⟨ha, hw⟩ := List.forall_mem_cons.mp hw
    rw [List.cons_append, splitRuns, if_neg (by simp [ha]), ih hw, List.modifyHead_modifyHead]
    rfl

theorem splitRuns_eq_singleton {w : List α} (hw : ∀ a ∈ w, p a = false) : splitRuns p w = [w] := by
  simpa [splitRuns] using splitRuns_append hw []

/-- A list that begins with a separator has an empty first part, and another. -/
theorem splitRuns_of_head {l : List α} (h : l.head?.any p) :
    ∃ ls, ls ≠ [] ∧ splitRuns p l = [] :: ls := by
  induction l with
  | nil => cases h
  | cons a l ih =>
    have ha : p a := h
    rw [splitRuns, if_pos ha]
    split_ifs with hl
    · exact ih hl
    · exact ⟨_, splitRuns_ne_nil l, rfl⟩

/-- The first part ends where the first separator is. -/
theorem splitRuns_word {w l : List α} (hw : ∀ a ∈ w, p a = false) (hl : l.head?.any p) :
    ∃ ls, ls ≠ [] ∧ splitRuns p (w ++ l) = w :: ls ∧ splitRuns p l = [] :: ls := by
  obtain ⟨ls, hne, hls⟩ := splitRuns_of_head hl
  refine ⟨ls, hne, ?_, hls⟩
  rw [splitRuns_append hw, hls]
  simp

variable (b : α)

/-- The parts with one element between them are the list squeezed. -/
theorem intercalate_splitRuns (l : List α) : [b].intercalate (splitRuns p l) = squeeze p b l := by
  induction l with
  | nil => rfl
  | cons a l ih =>
    obtain ⟨s, ls, hls⟩ := List.exists_cons_of_ne_nil (splitRuns_ne_nil (p := p) l)
    rw [splitRuns, squeeze]
    split_ifs
    · exact ih
    · rw [← ih, hls, List.intercalate_cons_cons]
      rfl
    · rw [← ih, hls]
      cases ls <;> simp [List.intercalate_cons_cons]

theorem length_squeeze_le (l : List α) : (squeeze p b l).length ≤ l.length := by
  induction l with
  | nil => rfl
  | cons a l ih =>
    rw [squeeze]
    split_ifs <;> simp only [List.length_cons] <;> omega

/-- Squeezing changes nothing exactly if every separator is `b` and stands alone. -/
theorem squeeze_eq_self_iff (l : List α) : squeeze p b l = l ↔
    (∀ a ∈ l, p a → a = b) ∧ l.IsChain fun x y => ¬(p x ∧ p y) := by
  induction l with
  | nil => simp [squeeze]
  | cons a l ih =>
    have hsqueeze : squeeze p b (a :: l) = a :: l ↔
        (p a → a = b ∧ l.head?.any p = false) ∧ squeeze p b l = l := by
      rw [squeeze]
      split_ifs with ha hl
      · have hle := length_squeeze_le (p := p) b l
        refine ⟨fun h => ?_, fun h => ?_⟩
        · rw [h, List.length_cons] at hle
          omega
        · rw [hl] at h
          exact Bool.noConfusion (h.1 ha).2
      · rw [List.cons.injEq]
        exact ⟨fun h => ⟨fun _ => ⟨h.1.symm, by simpa using hl⟩, h.2⟩,
          fun h => ⟨(h.1 ha).1.symm, h.2⟩⟩
      · rw [List.cons.injEq]
        exact ⟨fun h => ⟨fun h' => (ha h').elim, h.2⟩, fun h => ⟨rfl, h.2⟩⟩
    have hhead : (∀ y ∈ l.head?, ¬(p a ∧ p y)) ↔ (p a → l.head?.any p = false) := by
      cases l <;> simp
    rw [hsqueeze, ih, List.forall_mem_cons, List.isChain_cons, hhead]
    tauto

variable {b} (hb : p b)

include hb

theorem head?_squeeze (l : List α) : (squeeze p b l).head?.any p = l.head?.any p := by
  induction l with
  | nil => rfl
  | cons a l ih =>
    rw [squeeze]
    split_ifs with ha hl
    · rw [ih, hl]
      exact ha.symm
    · exact hb.trans ha.symm
    · rfl

/-- What is squeezed stays as it is. -/
theorem squeeze_squeeze (l : List α) : squeeze p b (squeeze p b l) = squeeze p b l := by
  induction l with
  | nil => rfl
  | cons a l ih =>
    rw [squeeze]
    split_ifs with ha hl
    · exact ih
    · rw [squeeze, if_pos hb, head?_squeeze hb, if_neg hl, ih]
    · rw [squeeze, if_neg ha, ih]

end Tokens

end Netstore
