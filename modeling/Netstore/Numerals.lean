import Netstore.Bytes

/-!
# Numbers as text

`decimal` is what `%d` prints, `strtoul` what the C library reads when it finds out the base
itself : hexadecimal after `0x`, octal after `0`, decimal otherwise. What is printed is read
again, and nothing of the text that follows (`strtoul_decimal`).
-/

namespace Netstore

namespace Numerals

/-- The value of a digit. -/
def digitValue (c : UInt8) : Option ℕ :=
  if 48 ≤ c ∧ c ≤ 57 then some (c.toNat - 48)
  else if 97 ≤ c ∧ c ≤ 102 then some (c.toNat - 87)
  else if 65 ≤ c ∧ c ≤ 70 then some (c.toNat - 55)
  else none

/-- Read the digits of the base, after those with the value `v`. -/
def readDigits (base : ℕ) : ℕ → Bytes → ℕ × Bytes
  | v, [] => (v, [])
  | v, c :: s =>
    match (digitValue c).filter (· < base) with
    | some d => readDigits base (base * v + d) s
    | none => (v, c :: s)

/-- The number that a text begins with whose first character is a digit, and what follows it. -/
def strtoul : Bytes → ℕ × Bytes
  | 48 :: x :: c :: s =>
    if (x = 120 ∨ x = 88) ∧ (digitValue c).isSome then readDigits 16 0 (c :: s)
    else readDigits 8 0 (x :: c :: s)
  | 48 :: s => readDigits 8 0 s
  | s => readDigits 10 0 s

/-- The decimal digits of a number, as text. -/
def decimal (n : ℕ) : Bytes :=
  (Nat.toDigits 10 n).map fun c => UInt8.ofNat c.toNat

/-- The text does not go on with a number. -/
def Stops (s : Bytes) : Prop :=
  ∀ c ∈ s.head?, digitValue c = none ∧ c ≠ 120 ∧ c ≠ 88

variable {s : Bytes} {base n v : ℕ}

theorem Stops.readDigits (hs : Stops s) : readDigits base v s = (v, s) := by
  cases s with
  | nil => rfl
  | cons c s => simp [Numerals.readDigits, (hs c rfl).1]

theorem toNat_of_isDigit {c : Char} (hc : c.isDigit) : 48 ≤ c.toNat ∧ c.toNat ≤ 57 := by
  simp only [Char.isDigit, Bool.and_eq_true, decide_eq_true_eq] at hc
  exact hc

/-- A decimal digit as a character and as a byte. -/
theorem digitValue_ofNat {c : Char} (hc : c.isDigit) :
    digitValue (UInt8.ofNat c.toNat) = some (c.toNat - 48) := by
  have hrange := toNat_of_isDigit hc
  have hbyte : (UInt8.ofNat c.toNat).toNat = c.toNat := by
    rw [UInt8.toNat_ofNat']
    omega
  have hdigit : 48 ≤ UInt8.ofNat c.toNat ∧ UInt8.ofNat c.toNat ≤ 57 := by
    rw [UInt8.le_iff_toNat_le, UInt8.le_iff_toNat_le, hbyte]
    exact hrange
  rw [digitValue, if_pos hdigit, hbyte]

theorem readDigits_digits {cs : List Char} (hcs : ∀ c ∈ cs, c.isDigit) (s : Bytes) :
    readDigits 10 v ((cs.map fun c => UInt8.ofNat c.toNat) ++ s) =
      readDigits 10 (Nat.ofDigitChars 10 cs v) s := by
  induction cs generalizing v with
  | nil => simp
  | cons c cs ih =>
    have hc := hcs c (List.mem_cons_self ..)
    have hlt : c.toNat - 48 < 10 := by
      have := toNat_of_isDigit hc
      omega
    have hzero : '0'.toNat = 48 := rfl
    simp only [List.map_cons, List.cons_append, readDigits, digitValue_ofNat hc, Option.filter, hlt,
      decide_true, if_true, Nat.ofDigitChars_cons, hzero]
    exact ih fun d hd => hcs d (List.mem_cons_of_mem _ hd)

/-- A number that is not zero does not begin with the digit zero. -/
theorem toDigits_ne_zero {c : Char} {cs : List Char} (hn : 0 < n)
    (h : Nat.toDigits 10 n = c :: cs) : c ≠ '0' := by
  induction n using Nat.strong_induction_on generalizing cs with
  | _ n ih =>
    rw [Nat.toDigits_eq_if (by decide)] at h
    split_ifs at h with hlt
    · obtain ⟨rfl, -⟩ := List.cons.inj h
      simp [hn.ne']
    · cases hd : Nat.toDigits 10 (n / 10) with
      | nil => exact absurd hd Nat.toDigits_ne_nil
      | cons d ds =>
        rw [hd] at h
        obtain ⟨rfl, -⟩ := List.cons.inj h
        exact ih (n / 10) (by omega) (by omega) hd

/-- A number is printed with a digit first. -/
theorem decimal_cons (n : ℕ) : ∃ c s, decimal n = c :: s ∧ 48 ≤ c ∧ c ≤ 57 := by
  cases hd : Nat.toDigits 10 n with
  | nil => exact absurd hd Nat.toDigits_ne_nil
  | cons c cs =>
    have hmem : c ∈ Nat.toDigits 10 n := by
      rw [hd]
      exact List.mem_cons_self ..
    have hc : c.isDigit := Nat.isDigit_of_mem_toDigits (by decide) (by decide) hmem
    have hrange := toNat_of_isDigit hc
    refine ⟨UInt8.ofNat c.toNat, cs.map fun c => UInt8.ofNat c.toNat, by rw [decimal, hd]; rfl, ?_⟩
    rw [UInt8.le_iff_toNat_le, UInt8.le_iff_toNat_le, UInt8.toNat_ofNat',
      Nat.mod_eq_of_lt (by omega)]
    exact hrange

/-- What is printed is read again. -/
theorem strtoul_decimal (n : ℕ) (hs : Stops s) : strtoul (decimal n ++ s) = (n, s) := by
  have hdigits : ∀ c ∈ Nat.toDigits 10 n, c.isDigit := fun c hc =>
    Nat.isDigit_of_mem_toDigits (by decide) (by decide) hc
  have hread : readDigits 10 0 (decimal n ++ s) = (n, s) := by
    rw [decimal, readDigits_digits hdigits, Nat.ofDigitChars_ten_toDigits, hs.readDigits]
  rcases Nat.eq_zero_or_pos n with rfl | hn
  · have hzero : decimal 0 ++ s = 48 :: s := rfl
    rw [hzero]
    match s, hs with
    | [], _ => rfl
    | [x], hs => exact hs.readDigits
    | x :: c :: s, hs =>
      obtain ⟨-, hx, hX⟩ := hs x rfl
      rw [strtoul, if_neg (by simp [hx, hX])]
      exact hs.readDigits
  · rw [← hread]
    cases hd : Nat.toDigits 10 n with
    | nil => exact absurd hd Nat.toDigits_ne_nil
    | cons c cs =>
      have hc : c.isDigit := hdigits c (by rw [hd]; exact List.mem_cons_self ..)
      have hne : UInt8.ofNat c.toNat ≠ 48 := by
        intro he
        have hvalue := digitValue_ofNat hc
        rw [he] at hvalue
        have hle : c.toNat - 48 = 0 := (Option.some.inj hvalue).symm
        have hrange := toNat_of_isDigit hc
        have hchar : c.toNat = '0'.toNat := by
          rw [show '0'.toNat = 48 from rfl]
          omega
        exact toDigits_ne_zero hn hd (Char.toNat_inj.mp hchar)
      simp only [decimal, hd, List.map_cons, List.cons_append]
      unfold strtoul
      split
      · simp_all
      · simp_all
      · rfl

end Numerals

end Netstore
