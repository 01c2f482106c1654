import Netstore.Downloads
import Netstore.Numerals
import Mathlib.Data.Nat.Digits.Defs

/-!
# Addresses as text

`Search` keeps the address of a server for each name that is found. The client keeps its text : what
`inet_ntoa` has made of the address that an answer came from, copied to a string. A fetch gives the
text to `inet_aton`, for its request and for its connection. `inet_aton` reads more than `inet_ntoa`
writes (fewer parts, octal and hexadecimal numbers), but it reads that as it was
(`inetAton_dotted`), so a fetch goes to the server that was the last to list the name
(`fetch_address`).
-/

namespace Netstore

open Numerals

/-! ## The text of an address -/

/-- A full stop. -/
def dot : UInt8 := 46

/-- The bytes of an address in memory, on a little-endian host. -/
def addressByte (sinAddr : UInt32) (i : ℕ) : ℕ :=
  sinAddr.toNat / 256 ^ i % 256

/-- The text that `inet_ntoa` writes. -/
def dotted (sinAddr : UInt32) : Bytes :=
  decimal (addressByte sinAddr 0) ++ dot :: (decimal (addressByte sinAddr 1) ++
    dot :: (decimal (addressByte sinAddr 2) ++ dot :: decimal (addressByte sinAddr 3)))

/-- The address with these bytes in memory. -/
def ofAddressBytes (bytes : List ℕ) : UInt32 :=
  UInt32.ofNat (Nat.ofDigits 256 bytes)

/-- The last part of an address fills the bytes that the others leave, the highest first. -/
def lastPart (n value : ℕ) : List ℕ :=
  (List.range n).reverse.map fun i => value / 256 ^ i % 256

/-- Nothing, or a space, follows an address. -/
def endsAddress (s : Bytes) : Bool :=
  s.head?.all fun c => c = 0 || isSpace c

/-- The rest of an address after some parts, of which as many more may end with a dot. -/
def inetAtonFrom : ℕ → List ℕ → Bytes → Option UInt32
  | dots, parts, s =>
    if s.head?.any fun c => 48 ≤ c ∧ c ≤ 57 then
      let (value, rest) := strtoul s
      if rest.head? = some dot then
        match dots with
        | 0 => none
        | dots + 1 => if value ≤ 255 then inetAtonFrom dots (parts ++ [value]) rest.tail else none
      else if endsAddress rest ∧ value < 256 ^ (4 - parts.length) then
        some (ofAddressBytes (parts ++ lastPart (4 - parts.length) value))
      else none
    else none

/-- `inet_aton` : the address that the text spells, if it spells one. -/
def inetAton (s : Bytes) : Option UInt32 :=
  inetAtonFrom 3 [] s

/-! ## What is written is read -/

theorem stops_nil : Stops [] :=
  fun _ hc => by cases hc

theorem stops_dot (s : Bytes) : Stops (dot :: s) := by
  intro c hc
  obtain rfl : dot = c := Option.some.inj hc
  decide

theorem any_digit_decimal (n : ℕ) (s : Bytes) :
    (decimal n ++ s).head?.any fun c => 48 ≤ c ∧ c ≤ 57 := by
  obtain ⟨c, t, hd, hdigit⟩ := decimal_cons n
  simpa [hd] using hdigit

theorem inetAtonFrom_part (dots : ℕ) (parts : List ℕ) {n : ℕ} (hn : n < 256) (s : Bytes) :
    inetAtonFrom (dots + 1) parts (decimal n ++ dot :: s) = inetAtonFrom dots (parts ++ [n]) s := by
  rw [inetAtonFrom, if_pos (any_digit_decimal n _), strtoul_decimal n (stops_dot s)]
  simp [Nat.le_of_lt_succ hn]

theorem inetAtonFrom_last {parts : List ℕ} (hparts : parts.length = 3) {n : ℕ} (hn : n < 256) :
    inetAtonFrom 0 parts (decimal n) = some (ofAddressBytes (parts ++ [n])) := by
  have hread : strtoul (decimal n) = (n, []) := by simpa using strtoul_decimal n stops_nil
  have hdigit := any_digit_decimal n []
  rw [List.append_nil] at hdigit
  rw [inetAtonFrom, if_pos hdigit, hread]
  simp [hparts, endsAddress, hn, lastPart, Nat.mod_eq_of_lt hn]

/-- `inet_aton` reads what `inet_ntoa` has written. -/
theorem inetAton_dotted (sinAddr : UInt32) : inetAton (dotted sinAddr) = some sinAddr := by
  have hbyte (i : ℕ) : addressByte sinAddr i < 256 := Nat.mod_lt _ (by decide)
  have hlt := sinAddr.toNat_lt
  have hdigits : Nat.ofDigits 256 [addressByte sinAddr 0, addressByte sinAddr 1,
      addressByte sinAddr 2, addressByte sinAddr 3] = sinAddr.toNat := by
    simp only [Nat.ofDigits_cons, Nat.ofDigits_nil, addressByte]
    omega
  rw [inetAton, dotted, inetAtonFrom_part 2 _ (hbyte 0), inetAtonFrom_part 1 _ (hbyte 1),
    inetAtonFrom_part 0 _ (hbyte 2), inetAtonFrom_last rfl (hbyte 3)]
  simp only [List.nil_append, List.cons_append, ofAddressBytes, hdigits, UInt32.ofNat_toNat]

/-! ## The results of a search -/

/-- The map of the client : the text of an address for each name. -/
abbrev TextResults := Bytes → Option Bytes

/-- `Client::update_search_results`, with the address kept as text. -/
def updateTextResults (results : TextResults) (files : List Bytes) (serverIp : Bytes) :
    TextResults :=
  files.foldl (fun results file => Function.update results file (some serverIp)) results

/-- What a search keeps of the datagrams that it receives. -/
def textResults (expectedMessageSeq : UInt64) (received : List Datagram) : TextResults :=
  received.foldl (fun results d =>
    updateTextResults results (receiveSearchRespond expectedMessageSeq d.payload)
      (dotted d.source.sinAddr)) fun _ => none

/-- The address that the request and the connection of a fetch go to. -/
def fetchAddress (results : TextResults) (filename : Bytes) : Option UInt32 :=
  (results filename).bind inetAton

theorem updateTextResults_map (results : SearchResults) (files : List Bytes) (ip : UInt32) :
    updateTextResults (fun f => (results f).map dotted) files (dotted ip) =
      fun f => (updateSearchResults results files ip f).map dotted := by
  induction files generalizing results with
  | nil => rfl
  | cons g files ih =>
    have hupdate : Function.update (fun f => (results f).map dotted) g (some (dotted ip)) =
        fun f => (Function.update results g (some ip) f).map dotted := by
      funext f
      by_cases hf : f = g <;> simp [hf]
    simp only [updateTextResults, updateSearchResults, List.foldl_cons] at ih ⊢
    rw [hupdate]
    exact ih _

/-- The client keeps the text of the address of each result. -/
theorem textResults_eq (seq : UInt64) (received : List Datagram) :
    textResults seq received = fun f => (searchResults seq received f).map dotted := by
  induction received using List.reverseRecOn with
  | nil => rfl
  | append_singleton received d ih =>
    simp only [textResults, searchResults, List.foldl_concat] at ih ⊢
    rw [ih]
    exact updateTextResults_map _ _ _

/-- A fetch goes to the server that was the last to list the name. -/
theorem fetch_address (seq : UInt64) (received : List Datagram) (f : Bytes) :
    fetchAddress (textResults seq received) f =
      (received.filter fun d => f ∈ receiveSearchRespond seq d.payload).getLast?.map
        (·.source.sinAddr) := by
  rw [← searchResults_apply, fetchAddress, textResults_eq]
  dsimp only
  cases searchResults seq received f with
  | none => rfl
  | some ip => exact inetAton_dotted ip

end Netstore
