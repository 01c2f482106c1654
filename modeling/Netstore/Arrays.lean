import Mathlib.Algebra.Notation.Defs
import Mathlib.Data.List.TakeWhile

/-!
# Arrays of C

An array is the list of its cells. What an access outside of it does is not defined, so there
a store gives none (`write`), and so do a loop over cells (`allFrom`) and a string that no zero
ends (`readString`). A function that stores is known by its stores, cells with their indices :
they can all be made exactly if every index is in the array (`isSome_storeAll`), and those of
consecutive cells put a block there (`storeAll_zipIdx`).
-/

namespace Netstore

namespace CArray

variable {α : Type*}

/-- Store a cell. -/
def write (a : List α) (x : α) (i : ℕ) : Option (List α) :=
  if i < a.length then some (a.set i x) else none

/-- Store cells with their indices, in order. -/
def storeAll (a : List α) (stores : List (α × ℕ)) : Option (List α) :=
  stores.foldlM (fun a w => write a w.1 w.2) a

/-- The stores of `strcpy` to the index `i` : the string and its terminating zero. -/
def strcpy [Zero α] [DecidableEq α] (s : List α) (i : ℕ) : List (α × ℕ) :=
  (s.takeWhile (· ≠ 0) ++ [0]).zipIdx i

/-- Do the `n` cells from the index `i` all meet `p`? The first that does not ends the loop. -/
def allFrom (p : α → Bool) (a : List α) (i : ℕ) : ℕ → Option Bool
  | 0 => some true
  | n + 1 => a[i]?.bind fun x => if p x then allFrom p a (i + 1) n else some false

/-- The string at the beginning of the cells, up to a zero. -/
def readString [Zero α] [DecidableEq α] : List α → Option (List α)
  | [] => none
  | x :: a => if x = 0 then some [] else (readString a).map (x :: ·)

section Stores

variable {a : List α} {x : α} {i : ℕ} {stores : List (α × ℕ)}

@[simp] theorem storeAll_nil : storeAll a [] = some a :=
  rfl

theorem storeAll_cons : storeAll a ((x, i) :: stores) = (write a x i).bind (storeAll · stores) :=
  rfl

/-- Stores are made exactly if each is in the array. -/
theorem isSome_storeAll : (storeAll a stores).isSome ↔ ∀ w ∈ stores, w.2 < a.length := by
  induction stores generalizing a with
  | nil => simp
  | cons w stores ih =>
    obtain ⟨x, i⟩ := w
    rw [storeAll_cons, List.forall_mem_cons]
    by_cases hi : i < a.length
    · rw [write, if_pos hi, Option.bind_some, ih, List.length_set]
      simp [hi]
    · rw [write, if_neg hi]
      simp [hi]

/-- Consecutive cells are stored as a block. -/
theorem storeAll_zipIdx (xs : List α) (h : i + xs.length ≤ a.length) :
    storeAll a (xs.zipIdx i) = some (a.take i ++ xs ++ a.drop (i + xs.length)) := by
  induction xs generalizing a i with
  | nil => simp
  | cons x xs ih =>
    rw [List.length_cons] at h
    have hi : i < a.length := by omega
    have htake : (a.take i).length = i := List.length_take_of_le hi.le
    have hset : (a.take (i + 1)).set i x = a.take i ++ [x] := by
      rw [List.take_succ_eq_append_getElem hi, List.set_append_right _ _ htake.le, htake,
        Nat.sub_self, List.set_cons_zero]
    rw [List.zipIdx_cons, storeAll_cons, write, if_pos hi, Option.bind_some,
      ih (by rw [List.length_set]; omega), List.take_set, List.drop_set_of_lt (by omega), hset,
      List.append_assoc (a.take i), List.singleton_append, List.length_cons, Nat.add_assoc,
      Nat.add_comm 1]

/-- A loop over cells of the array. -/
theorem allFrom_eq (p : α → Bool) {n : ℕ} (h : i + n ≤ a.length) :
    allFrom p a i n = some (((a.drop i).take n).all p) := by
  induction n generalizing i with
  | zero => simp [allFrom]
  | succ n ih =>
    have hi : i < a.length := by omega
    rw [allFrom, List.getElem?_eq_getElem hi, Option.bind_some, List.drop_eq_getElem_cons hi,
      List.take_succ_cons, List.all_cons, ih (by omega)]
    cases p a[i] <;> rfl

end Stores

section Strings

variable [Zero α] [DecidableEq α] {s : List α}

theorem strcpy_eq (hs : (0 : α) ∉ s) (i : ℕ) : strcpy s i = (s ++ [0]).zipIdx i := by
  rw [strcpy, List.takeWhile_eq_self_iff.mpr]
  exact fun x hx => decide_eq_true fun h => hs (h ▸ hx)

/-- A string is read exactly if a zero is in the array. -/
theorem readString_eq (a : List α) :
    readString a = if (0 : α) ∈ a then some (a.takeWhile (· ≠ 0)) else none := by
  induction a with
  | nil => rfl
  | cons x a ih =>
    rw [readString, ih]
    by_cases hx : x = 0
    · simp [hx]
    · by_cases ha : (0 : α) ∈ a <;> simp [hx, ha, Ne.symm hx]

end Strings

end CArray

end Netstore
