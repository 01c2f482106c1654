import Netstore.Bytes
import Netstore.Transition
import Mathlib.Data.Finmap
import Mathlib.Algebra.Order.BigOperators.Group.Finset

/-!
# A store of files

What a server of files is for : it keeps a finite map from names to bytes and admits a
new file if the name is free and the file fits. `Store.step` says which answers a store
gives to a request and what the request does to it. `Store.run_total_le` is what the
admission is for : the files never exceed the capacity, unless they did at the start.
-/

namespace Netstore

/-- Files by name, and how many bytes they may have in all. -/
structure Store (Name : Type*) where
  capacity : ℕ
  files : Finmap fun _ : Name => Bytes

/-- How the transfer of an upload went : what arrived, and whether it came to its end
without a timeout or an error. -/
structure Transfer where
  received : Bytes
  clean : Bool
  deriving DecidableEq

/-- All of the declared `n` bytes were delivered. -/
def Transfer.Delivers (t : Transfer) (n : ℕ) : Prop :=
  t.clean ∧ t.received.length = n

instance (t : Transfer) (n : ℕ) : Decidable (t.Delivers n) :=
  inferInstanceAs (Decidable (_ ∧ _))

/-- A request with what came of it. -/
inductive Event (Name : Type*) where
  /-- The space that is announced. -/
  | hello (space : ℕ)
  /-- A file of `n` bytes is refused, or accepted and transferred. -/
  | add (f : Name) (n : ℕ) (transfer : Option Transfer)
  | del (f : Name)
  /-- A file is asked for, and delivered if there is an answer. -/
  | get (f : Name) (answer : Option Bytes)
  deriving DecidableEq

namespace Store

variable {Name : Type*} [DecidableEq Name] (s : Store Name)

/-- The sizes of all files. -/
def total : ℕ :=
  ∑ f ∈ s.files.keys, ((s.files.lookup f).getD []).length

/-- The name is free and the size fits. -/
def Admits (f : Name) (n : ℕ) : Prop :=
  f ∉ s.files ∧ s.total + n ≤ s.capacity

instance (f : Name) (n : ℕ) : Decidable (s.Admits f n) :=
  inferInstanceAs (Decidable (_ ∧ _))

/-- A file is taken in. -/
def put (f : Name) (bs : Bytes) : Store Name :=
  { s with files := s.files.insert f bs }

/-- A file is taken out. -/
def remove (f : Name) : Store Name :=
  { s with files := s.files.erase f }

/-- The store after the request, if this is what comes of it. -/
def step : Event Name → Option (Store Name)
  | .hello space => if space = s.capacity - s.total then some s else none
  | .add f n none => if s.Admits f n then none else some s
  | .add f n (some t) =>
    if s.Admits f n then some (if t.Delivers n then s.put f t.received else s) else none
  | .del f => some (s.remove f)
  | .get f answer => if answer = s.files.lookup f then some s else none

/-! ## The size of a store -/

variable {s} {f : Name} {bs : Bytes}

theorem total_put (hf : f ∉ s.files) : (s.put f bs).total = s.total + bs.length := by
  have hkeys : (s.put f bs).files.keys = insert f s.files.keys := by
    ext g
    rw [put, Finset.mem_insert, Finmap.mem_keys, Finmap.mem_keys, Finmap.mem_insert]
  have hf' : f ∉ s.files.keys := fun h => hf (Finmap.mem_keys.mp h)
  rw [total, hkeys, Finset.sum_insert hf', add_comm]
  congr 1
  · refine Finset.sum_congr rfl fun g hg => ?_
    have hgf : g ≠ f := fun he => hf' (he ▸ hg)
    rw [put, Finmap.lookup_insert_of_ne _ hgf]
  · rw [put, Finmap.lookup_insert]
    rfl

/-- A file that is removed leaves the space that it had. -/
theorem total_remove_add (f : Name) :
    (s.remove f).total + ((s.files.lookup f).getD []).length = s.total := by
  have hsum : (s.remove f).total =
      ∑ g ∈ s.files.keys.erase f, ((s.files.lookup g).getD []).length := by
    rw [total, remove, Finmap.keys_erase]
    refine Finset.sum_congr rfl fun g hg => ?_
    rw [Finmap.lookup_erase_ne (Finset.ne_of_mem_erase hg)]
  rw [hsum, total]
  by_cases hf : f ∈ s.files.keys
  · rw [add_comm, Finset.add_sum_erase _ (fun g => ((s.files.lookup g).getD []).length) hf]
  · have hnone : s.files.lookup f = none :=
      Finmap.lookup_eq_none.mpr fun h => hf (Finmap.mem_keys.mpr h)
    rw [Finset.erase_eq_of_notMem hf, hnone]
    rfl

theorem total_remove_le : (s.remove f).total ≤ s.total :=
  (Nat.le_add_right ..).trans (total_remove_add f).le

/-- A request leaves the capacity, and takes the files over it only if they were. -/
theorem step_le {s' : Store Name} {e : Event Name} (hs : s.step e = some s') :
    s'.capacity = s.capacity ∧ s'.total ≤ max s.capacity s.total := by
  have hself : s.capacity = s.capacity ∧ s.total ≤ max s.capacity s.total :=
    ⟨rfl, le_max_right _ _⟩
  unfold step at hs
  split at hs
  case h_1 | h_2 | h_5 =>
    split_ifs at hs
    cases hs
    exact hself
  case h_3 f n t =>
    split_ifs at hs with hadmit hdel <;> cases hs
    · refine ⟨rfl, le_max_of_le_left ?_⟩
      rw [total_put hadmit.1, hdel.2]
      exact hadmit.2
    · exact hself
  case h_4 =>
    cases hs
    exact ⟨rfl, le_max_of_le_right total_remove_le⟩

/-- The files of a store stay within its capacity, or within what they were at the
start if that was more. -/
theorem run_total_le {s s' : Store Name} {es : List (Event Name)}
    (hr : Transition.run step s es = some s') : s'.total ≤ max s.capacity s.total := by
  have h : s'.capacity = s.capacity ∧ s'.total ≤ max s.capacity s.total := by
    refine Transition.run_invariant (P := fun _ _ => True)
      (fun t => t.capacity = s.capacity ∧ t.total ≤ max s.capacity s.total)
      (fun t e t' ht _ hs => ?_) ⟨rfl, le_max_right _ _⟩ hr (Transition.along_of_forall _ fun _ _ => trivial)
    obtain ⟨hcap, hle⟩ := step_le hs
    rw [ht.1] at hcap hle
    exact ⟨hcap, hle.trans (max_le (le_max_left _ _) ht.2)⟩
  exact h.2

end Store

end Netstore
