import Netstore.Protocol

/-!
# Requests that name a file

The string of a search or of a removal goes through two limits on its way : `strncpy`
copies it up to its first zero, and its length is narrowed to sixteen bits twice, for the
send and with the header added. So what arrives may be shorter than what was given, or
another name. It is the string itself, or nothing is sent, exactly if the string has no
zero and fits, or its narrowed length is one that the send refuses (`names_iff`).
-/

namespace Netstore

/-- The request of `Client::search`. -/
def searchRequest (messageSeq : UInt64) (pattern : Bytes) : Option Bytes :=
  simpleRequest messageSeq filesListRequest pattern

/-- The request of `Client::remove`. -/
def removeRequest (messageSeq : UInt64) (filename : Bytes) : Option Bytes :=
  simpleRequest messageSeq fileRemoveRequest filename

/-- What is sent, if anything is, is the header and the string, and the server reads the
string. -/
def Names (payload : Option Bytes) (messageSeq : UInt64) (command s : Bytes) : Prop :=
  ∀ bs, payload = some bs →
    bs = fillCommand command ++ (Bytes.be64 messageSeq ++ s) ∧ (recvfrom bs).1.simpleData = s

/-- The string can be sent as it is, or its length is one that the send refuses. -/
def Nameable (s : Bytes) : Prop :=
  ((0 : UInt8) ∉ s ∧ s.length ≤ maxSimpleDataSize) ∨
    maxDatagramSize < (simpleMessageNoDataSize + s.length) % 2 ^ 16

section Names

variable {seq : UInt64} {c s : Bytes}

/-- The length of the message in sixteen bits. -/
theorem toNat_messageLength (n : ℕ) :
    (UInt16.ofNat simpleMessageNoDataSize + UInt16.ofNat n).toNat =
      (simpleMessageNoDataSize + n) % 2 ^ 16 := by
  rw [UInt16.toNat_add, UInt16.toNat_ofNat', UInt16.toNat_ofNat', ← Nat.add_mod]

theorem simpleRequest_eq (seq : UInt64) (c s : Bytes) : simpleRequest seq c s =
    if (simpleMessageNoDataSize + s.length) % 2 ^ 16 ≤ maxDatagramSize then
      some ((simpleMessage seq c s).field 0 ((simpleMessageNoDataSize + s.length) % 2 ^ 16))
    else none := by
  rw [simpleRequest, sendSimple, sendto, toNat_messageLength]

theorem names_simpleRequest_iff (hc : c.length ≤ maxCommandLength) :
    Names (simpleRequest seq c s) seq c s ↔ Nameable s := by
  have h18 : simpleMessageNoDataSize = 18 := rfl
  have hdata : maxSimpleDataSize = 65489 := rfl
  have hdatagram : maxDatagramSize = 65507 := rfl
  constructor
  · intro h
    refine or_iff_not_imp_right.mpr fun hfits => ?_
    have hsent := simpleRequest_eq seq c s
    rw [if_pos (by omega)] at hsent
    obtain ⟨hpayload, hstring⟩ := h _ hsent
    have hlen := congrArg List.length hpayload
    rw [Bytes.length_field, length_simple_append hc] at hlen
    refine ⟨?_, by omega⟩
    rw [← hstring]
    exact Bytes.zero_not_mem_cString _ _
  · rintro (⟨h0, hs⟩ | hbig) bs hbs
    · rw [simpleRequest, sendSimple_simpleMessage hc seq h0 hs, Option.some.injEq] at hbs
      rw [← hbs, recvfrom_simple_append hc hs]
      exact ⟨rfl, simpleData_append hc h0⟩
    · rw [simpleRequest_eq, if_neg (by omega)] at hbs
      cases hbs

end Names

/-- A search or a removal names its string exactly if the string is nameable. -/
theorem names_iff (seq : UInt64) (s : Bytes) :
    (Names (searchRequest seq s) seq filesListRequest s ↔ Nameable s) ∧
      (Names (removeRequest seq s) seq fileRemoveRequest s ↔ Nameable s) :=
  ⟨names_simpleRequest_iff (by decide), names_simpleRequest_iff (by decide)⟩

/-- A string with a zero is cut, and so is one whose length does not fit in sixteen bits. -/
theorem removeRequest_not_names :
    ¬Names (removeRequest 1 [97, 0, 98]) 1 fileRemoveRequest [97, 0, 98] ∧
      ¬Names (removeRequest 1 (List.replicate 65537 97)) 1 fileRemoveRequest
        (List.replicate 65537 97) := by
  rw [removeRequest, removeRequest, names_simpleRequest_iff (by decide),
    names_simpleRequest_iff (by decide)]
  refine ⟨?_, ?_⟩
  · rintro (⟨h0, -⟩ | hbig)
    · exact h0 (by decide)
    · exact absurd hbig (by decide)
  · rintro (⟨-, hle⟩ | hbig)
    · rw [List.length_replicate] at hle
      exact absurd hle (by decide)
    · rw [List.length_replicate] at hbig
      exact absurd hbig (by decide)

end Netstore
