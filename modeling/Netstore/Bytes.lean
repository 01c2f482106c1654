import Mathlib.Data.UInt
import Mathlib.Data.List.Lex
import Mathlib.Data.List.TakeWhile
import Mathlib.Order.Lattice

/-!
# Bytes and zero-filled memory

A byte string is a list of bytes, ordered by unsigned lexicographic comparison. The
same lists stand for zero-filled memory : the bytes listed, then zeros. `overwrite`
stores a block at an offset, `field` reads a block of fixed size and `cString` the
bytes up to the first zero. `joinLines` puts lines in one string, `splitOn_joinLines`
takes them apart. `toBigEndian` and `ofBigEndian` are the network order of an integer
field of `n` bytes.
-/

namespace Netstore

/-- Bytes compare as unsigned numbers. -/
instance instLinearOrderUInt8 : LinearOrder UInt8 where
  le_refl := UInt8.le_refl
  le_trans _ _ _ := UInt8.le_trans
  le_antisymm _ _ := UInt8.le_antisymm
  le_total := UInt8.le_total
  lt_iff_le_not_ge a b := by
    simp only [UInt8.lt_iff_toNat_lt, UInt8.le_iff_toNat_le]
    omega
  toDecidableLE := inferInstance
  toDecidableEq := inferInstance
  toDecidableLT := inferInstance
  min_def _ _ := rfl
  max_def _ _ := rfl

/-- A byte string. -/
abbrev Bytes := List UInt8

instance instLawfulBEqUInt8 : LawfulBEq UInt8 :=
  inferInstance

instance instLawfulBEqBytes : LawfulBEq Bytes :=
  inferInstance

/-- Taking a length off a count that is no smaller does not wrap. -/
theorem toNat_sub_ofNat {a : UInt64} {n : ℕ} (h : n ≤ a.toNat) :
    (a - UInt64.ofNat n).toNat = a.toNat - n := by
  have hlt : a.toNat < UInt64.size := a.toNat_lt
  have hn : (UInt64.ofNat n).toNat = n := UInt64.toNat_ofNat_of_lt' (by omega)
  rw [UInt64.toNat_sub_of_le _ _ (UInt64.le_iff_toNat_le.mpr (by omega)), hn]

namespace Bytes

/-! ## Blocks -/

section Blocks

variable {m bs : Bytes} {off : ℕ}

/-- A block that comes next is taken with what was taken before it. -/
theorem take_add_of_prefix (h : bs <+: m.drop off) :
    m.take (off + bs.length) = m.take off ++ bs := by
  rw [List.take_add, ← List.prefix_iff_eq_take.mp h]

theorem add_length_le_of_prefix (h : bs <+: m.drop off) (hoff : off ≤ m.length) :
    off + bs.length ≤ m.length := by
  have hle := h.length_le
  rw [List.length_drop] at hle
  omega

end Blocks

/-! ## Memory -/

/-- Store the block `bs` at the offset `off` of zero-filled memory. -/
def overwrite (m : Bytes) (off : ℕ) (bs : Bytes) : Bytes :=
  m.take off ++ List.replicate (off - m.length) 0 ++ bs ++ m.drop (off + bs.length)

/-- The `len` bytes of zero-filled memory from `off`. -/
def field (m : Bytes) (off len : ℕ) : Bytes :=
  (m.drop off ++ List.replicate len 0).take len

/-- The bytes of zero-filled memory from `off` up to the first zero. -/
def cString (m : Bytes) (off : ℕ) : Bytes :=
  (m.drop off).takeWhile (· ≠ 0)

/-- Storing at the end appends. -/
@[simp] theorem overwrite_length_self (m bs : Bytes) : m.overwrite m.length bs = m ++ bs := by
  simp [overwrite]

/-- Storing over what follows a prefix. -/
theorem overwrite_append (a b bs : Bytes) (h : b.length ≤ bs.length) :
    overwrite (a ++ b) a.length bs = a ++ bs := by
  have hdrop : (a ++ b).drop (a.length + bs.length) = [] :=
    List.drop_eq_nil_of_le (by rw [List.length_append]; omega)
  rw [overwrite, List.take_left, hdrop]
  simp

theorem length_overwrite (m : Bytes) (off : ℕ) (bs : Bytes) :
    (m.overwrite off bs).length = max m.length (off + bs.length) := by
  simp only [overwrite, List.length_append, List.length_take, List.length_replicate,
    List.length_drop]
  omega

@[simp] theorem length_field (m : Bytes) (off len : ℕ) : (m.field off len).length = len := by
  simp [field]

/-- A field that lies inside the listed bytes. -/
theorem field_append (a b c : Bytes) : field (a ++ (b ++ c)) a.length b.length = b := by
  simp [field, List.append_assoc]

theorem ne_zero_of_mem {s : Bytes} (hs : (0 : UInt8) ∉ s) : ∀ b ∈ s, decide (b ≠ 0) = true :=
  fun _ hb => decide_eq_true fun h => hs (h ▸ hb)

theorem takeWhile_ne_zero {s : Bytes} (hs : (0 : UInt8) ∉ s) : s.takeWhile (· ≠ 0) = s :=
  List.takeWhile_eq_self_iff.mpr (ne_zero_of_mem hs)

/-- A string with no zero is read back whole from where it is stored. -/
theorem cString_append (a s c : Bytes) (hs : (0 : UInt8) ∉ s)
    (hc : c.head? = none ∨ c.head? = some 0) :
    cString (a ++ (s ++ c)) a.length = s := by
  rw [cString, List.drop_left, List.takeWhile_append_of_pos (ne_zero_of_mem hs)]
  rcases c with _ | ⟨b, c⟩
  · simp
  · have hb : b = 0 := by simpa using hc
    simp [hb]

theorem zero_not_mem_cString (m : Bytes) (off : ℕ) : (0 : UInt8) ∉ m.cString off := by
  intro h
  simpa using List.mem_takeWhile_imp h

theorem length_cString_le (m : Bytes) (off : ℕ) : (m.cString off).length ≤ m.length - off := by
  rw [cString, ← List.length_drop]
  exact (List.takeWhile_prefix _).length_le

/-! ## Blocks -/

/-- What is read of a string grows by the next block. -/
theorem take_append_block {bs block : Bytes} {off n : ℕ} (h : block = (bs.drop off).take n) :
    bs.take off ++ block = bs.take (off + block.length) := by
  rw [List.take_add, h, List.length_take, List.take_eq_take_min]
  simp

/-- A short block is the last. -/
theorem take_append_last {bs block : Bytes} {off n : ℕ} (h : block = (bs.drop off).take n)
    (hlen : block.length ≠ n) : bs.take off ++ block = bs := by
  have hall : block = bs.drop off := by
    rw [h, List.length_take] at hlen
    rw [h]
    exact List.take_of_length_le (by omega)
  rw [hall, List.take_append_drop]

/-! ## Lines -/

/-- The byte between lines. -/
def newline : UInt8 := 10

/-- The lines with a newline between any two. -/
def joinLines (lines : List Bytes) : Bytes :=
  [newline].intercalate lines

@[simp] theorem joinLines_nil : joinLines [] = [] :=
  rfl

@[simp] theorem joinLines_singleton (s : Bytes) : joinLines [s] = s :=
  List.intercalate_singleton

theorem joinLines_concat {lines : List Bytes} (hl : lines ≠ []) (s : Bytes) :
    joinLines (lines ++ [s]) = joinLines lines ++ newline :: s := by
  induction lines with
  | nil => exact (hl rfl).elim
  | cons l lines ih =>
    rcases lines with _ | ⟨l', lines⟩
    · simp [joinLines, List.intercalate_cons_cons]
    · have ih := ih (by simp)
      simp only [joinLines, List.cons_append, List.intercalate_cons_cons] at ih ⊢
      rw [ih]
      simp

/-- One line more is one byte more and its own. -/
theorem length_joinLines_concat (lines : List Bytes) (s : Bytes) :
    (joinLines (lines ++ [s])).length =
      (joinLines lines).length + (if lines = [] then 0 else 1) + s.length := by
  split_ifs with hl
  · simp [hl]
  · rw [joinLines_concat hl, List.length_append, List.length_cons]
    omega

theorem length_joinLines {lines : List Bytes} (hl : lines ≠ []) :
    (joinLines lines).length + 1 = (lines.map fun s => s.length + 1).sum := by
  induction lines using List.reverseRecOn with
  | nil => exact (hl rfl).elim
  | append_singleton lines s ih =>
    rw [length_joinLines_concat, List.map_append, List.sum_append, List.map_singleton,
      List.sum_singleton]
    by_cases hl : lines = []
    · simp [hl]
    · rw [if_neg hl, ← ih hl]
      omega

theorem length_joinLines_le (lines lines' : List Bytes) :
    (joinLines lines).length ≤ (joinLines (lines ++ lines')).length := by
  induction lines' using List.reverseRecOn with
  | nil => simp
  | append_singleton lines' s ih =>
    rw [← List.append_assoc, length_joinLines_concat]
    omega

theorem joinLines_ne_nil {lines : List Bytes} (hl : lines ≠ []) (h : ∀ s ∈ lines, s ≠ []) :
    joinLines lines ≠ [] := by
  induction lines using List.reverseRecOn with
  | nil => exact (hl rfl).elim
  | append_singleton lines s =>
    have hs : s.length ≠ 0 := fun h0 => h s (by simp) (List.length_eq_zero_iff.mp h0)
    intro h0
    have := length_joinLines_concat lines s
    rw [h0, List.length_nil] at this
    omega

/-- Splitting gives back the lines. -/
theorem splitOn_joinLines {lines : List Bytes} (hl : lines ≠ [])
    (h : ∀ s ∈ lines, newline ∉ s) : (joinLines lines).splitOn newline = lines :=
  List.splitOn_intercalate newline h hl

/-- Lines that are not single lines are split as well. -/
theorem splitOn_joinLines_eq_flatMap {lines : List Bytes} (hl : lines ≠ []) :
    (joinLines lines).splitOn newline = lines.flatMap (·.splitOn newline) := by
  induction lines using List.reverseRecOn with
  | nil => exact (hl rfl).elim
  | append_singleton lines s ih =>
    by_cases hlines : lines = []
    · subst hlines
      simp
    · rw [joinLines_concat hlines, List.splitOn_append_cons_self, ih hlines, List.flatMap_append]
      simp

theorem mem_joinLines {lines : List Bytes} {b : UInt8} (h : b ∈ joinLines lines) :
    b = newline ∨ ∃ s ∈ lines, b ∈ s := by
  induction lines using List.reverseRecOn with
  | nil => cases h
  | append_singleton lines s ih =>
    by_cases hl : lines = []
    · subst hl
      exact Or.inr ⟨s, by simp, by simpa using h⟩
    · rw [joinLines_concat hl, List.mem_append, List.mem_cons] at h
      rcases h with h | h | h
      · refine (ih h).imp_right fun ⟨t, ht, hb⟩ => ⟨t, List.mem_append_left _ ht, hb⟩
      · exact Or.inl h
      · exact Or.inr ⟨s, by simp, h⟩

theorem zero_not_mem_joinLines {lines : List Bytes} (h : ∀ s ∈ lines, (0 : UInt8) ∉ s) :
    (0 : UInt8) ∉ joinLines lines := by
  intro h0
  rcases mem_joinLines h0 with he | ⟨s, hs, hb⟩
  · exact absurd he (by decide)
  · exact h s hs hb

/-! ## Integers in network order -/

/-- The `n` low bytes of `x`, most significant first. -/
def toBigEndian : ℕ → ℕ → Bytes
  | 0, _ => []
  | n + 1, x => toBigEndian n (x / 256) ++ [UInt8.ofNat x]

/-- The number whose bytes are given most significant first. -/
def ofBigEndian (bs : Bytes) : ℕ :=
  bs.foldl (fun x b => x * 256 + b.toNat) 0

@[simp] theorem length_toBigEndian (n x : ℕ) : (toBigEndian n x).length = n := by
  induction n generalizing x with
  | zero => rfl
  | succ n ih => simp [toBigEndian, ih]

theorem ofBigEndian_toBigEndian (n x : ℕ) : ofBigEndian (toBigEndian n x) = x % 256 ^ n := by
  induction n generalizing x with
  | zero => simp [toBigEndian, ofBigEndian, Nat.mod_one]
  | succ n ih =>
    have h := ih (x / 256)
    unfold ofBigEndian at h ⊢
    rw [toBigEndian, List.foldl_append, h, pow_succ', Nat.mod_mul]
    simp only [List.foldl_cons, List.foldl_nil, UInt8.toNat_ofNat']
    omega

theorem ofBigEndian_concat (bs : Bytes) (b : UInt8) :
    ofBigEndian (bs ++ [b]) = ofBigEndian bs * 256 + b.toNat := by
  rw [ofBigEndian, List.foldl_append]
  rfl

theorem ofBigEndian_lt (bs : Bytes) : ofBigEndian bs < 256 ^ bs.length := by
  induction bs using List.reverseRecOn with
  | nil => simp [ofBigEndian]
  | append_singleton bs b ih =>
    have hb := b.toNat_lt
    rw [ofBigEndian_concat, List.length_append, List.length_singleton, pow_succ]
    omega

theorem toBigEndian_ofBigEndian (bs : Bytes) : toBigEndian bs.length (ofBigEndian bs) = bs := by
  induction bs using List.reverseRecOn with
  | nil => rfl
  | append_singleton bs b ih =>
    have hb := b.toNat_lt
    have hdiv : (ofBigEndian bs * 256 + b.toNat) / 256 = ofBigEndian bs := by omega
    have hlast : UInt8.ofNat (ofBigEndian bs * 256 + b.toNat) = b := by
      refine UInt8.toNat_inj.mp ?_
      rw [UInt8.toNat_ofNat']
      omega
    rw [ofBigEndian_concat, List.length_append, List.length_singleton, toBigEndian, hdiv, hlast, ih]

/-- A `uint64_t` in network order. -/
def be64 (x : UInt64) : Bytes :=
  toBigEndian 8 x.toNat

/-- The `uint64_t` whose network order is given. -/
def be64toh (bs : Bytes) : UInt64 :=
  UInt64.ofNat (ofBigEndian bs)

@[simp] theorem length_be64 (x : UInt64) : (be64 x).length = 8 :=
  length_toBigEndian 8 _

@[simp] theorem be64toh_be64 (x : UInt64) : be64toh (be64 x) = x := by
  have hx : x.toNat % 256 ^ 8 = x.toNat := Nat.mod_eq_of_lt x.toNat_lt
  rw [be64toh, be64, ofBigEndian_toBigEndian, hx]
  exact UInt64.ofNat_toNat

/-- Eight bytes are the network order of the number that they are read as. -/
theorem be64toh_eq_iff {bs : Bytes} (hbs : bs.length = 8) (x : UInt64) :
    be64toh bs = x ↔ bs = be64 x := by
  constructor
  · rintro rfl
    have hlt : ofBigEndian bs < UInt64.size := by
      have := ofBigEndian_lt bs
      rwa [hbs] at this
    rw [be64, be64toh, UInt64.toNat_ofNat_of_lt' hlt, ← hbs, toBigEndian_ofBigEndian]
  · rintro rfl
    exact be64toh_be64 x

end Bytes

end Netstore
