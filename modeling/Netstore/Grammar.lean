import Netstore.Protocol

/-!
# What is accepted

The two validations as grammars. The client takes a datagram exactly if it is the command
and the sequence number that it expects, a parameter in the complex view, and a string
that zeros may follow (`validation_iff`). What the server takes is described by a command
and a range of lengths (`IsDescribed`), but an upload request that ends before its filename
is taken too : its filename is asked for in a branch that is never reached
(`messageValidation_described_iff`).
-/

namespace Netstore

/-- The validation succeeds if `p` holds, and throws otherwise. -/
structure AcceptsExactly (validation : Except String Unit) (p : Prop) : Prop where
  ok_iff : validation = .ok () ↔ p
  error_iff : (∃ reason, validation = .error reason) ↔ ¬p

theorem acceptsExactly_iff {validation : Except String Unit} {p : Prop} :
    AcceptsExactly validation p ↔ (validation = .ok () ↔ p) := by
  refine ⟨AcceptsExactly.ok_iff, fun h => ⟨h, ?_⟩⟩
  rw [← h]
  cases validation <;> simp

/-! ## Fields -/

theorem Bytes.field_of_le {m : Bytes} {off len : ℕ} (h : off + len ≤ m.length) :
    m.field off len = (m.drop off).take len := by
  rw [Bytes.field, List.take_append_of_le_length]
  rw [List.length_drop]
  omega

/-- A message that is no shorter than its header is the header and the rest. -/
theorem eq_header_append {m : Message} {n : ℕ} (h : simpleMessageNoDataSize + n ≤ m.length) :
    m = m.command ++ (Bytes.field m maxCommandLength 8 ++
      (Bytes.field m simpleMessageNoDataSize n ++ List.drop (simpleMessageNoDataSize + n) m)) := by
  have h18 : simpleMessageNoDataSize = 18 := rfl
  have h10 : maxCommandLength = 10 := rfl
  rw [Message.command, Bytes.field_of_le (by omega), Bytes.field_of_le (by omega),
    Bytes.field_of_le (by omega), List.drop_zero]
  have hparams : List.take n (List.drop simpleMessageNoDataSize m) ++
      List.drop (simpleMessageNoDataSize + n) m = List.drop simpleMessageNoDataSize m := by
    rw [← List.drop_drop, List.take_append_drop]
  have hseq : List.take 8 (List.drop maxCommandLength m) ++ List.drop simpleMessageNoDataSize m =
      List.drop maxCommandLength m := by
    rw [simpleMessageNoDataSize, ← List.drop_drop, List.take_append_drop]
  rw [hparams, hseq, List.take_append_drop]

/-- The field holds the expected command exactly if it is the command and zeros. -/
theorem isExpectedCommand_iff {command c : Bytes} (hlen : command.length = maxCommandLength) :
    isExpectedCommand command c ↔ command = fillCommand c := by
  rw [isExpectedCommand, Bool.and_eq_true, decide_eq_true_eq, List.all_eq_true]
  constructor
  · rintro ⟨htake, hzero⟩
    have hdrop : command.drop c.length = List.replicate (maxCommandLength - c.length) 0 :=
      List.eq_replicate_iff.mpr
        ⟨by rw [List.length_drop, hlen], fun b hb => of_decide_eq_true (hzero b hb)⟩
    calc command = command.take c.length ++ command.drop c.length :=
          (List.take_append_drop ..).symm
      _ = fillCommand c := by rw [htake, hdrop, fillCommand]
  · rintro rfl
    simp [fillCommand]

/-- The data is valid exactly if it is a string and zeros. -/
theorem isValidData_iff {data : Bytes} : isValidData data ↔
    ∃ s zeros, data = s ++ List.replicate zeros 0 ∧ (0 : UInt8) ∉ s := by
  induction data with
  | nil => exact ⟨fun _ => ⟨[], 0, rfl, by simp⟩, fun _ => rfl⟩
  | cons a data ih =>
    have hcons : isValidData (a :: data) ↔ (a = 0 → data.head?.getD 0 = 0) ∧ isValidData data := by
      cases data with
      | nil => simp [isValidData]
      | cons b data => by_cases ha : a = 0 <;> simp [isValidData, ha]
    rw [hcons, ih]
    constructor
    · rintro ⟨hhead, s, zeros, rfl, hs⟩
      by_cases ha : a = 0
      · -- after a zero there is no string
        obtain rfl : s = [] := by
          cases s with
          | nil => rfl
          | cons b s =>
            have hb : b = 0 := hhead ha
            exact (hs (by simp [hb])).elim
        exact ⟨[], zeros + 1, by simp [ha, List.replicate_succ], by simp⟩
      · exact ⟨a :: s, zeros, rfl, by simp [hs, Ne.symm ha]⟩
    · rintro ⟨s, zeros, heq, hs⟩
      cases s with
      | nil =>
        cases zeros with
        | zero => cases heq
        | succ zeros =>
          obtain ⟨rfl, rfl⟩ := List.cons.inj heq
          exact ⟨fun _ => by cases zeros <;> rfl, [], zeros, rfl, by simp⟩
      | cons b s =>
        obtain ⟨rfl, rfl⟩ := List.cons.inj heq
        exact ⟨fun ha => (hs (by simp [ha])).elim, s, zeros, rfl,
          fun h => hs (List.mem_cons_of_mem _ h)⟩

/-! ## Replies -/

/-- The datagram is a header with `n` bytes of parameters, then a string and zeros. -/
def IsReply (n : ℕ) (payload : Bytes) (messageSeq : UInt64) (command expectedData : Bytes) : Prop :=
  ∃ params s zeros,
    payload = fillCommand command ++ (Bytes.be64 messageSeq ++ (params ++
      (s ++ List.replicate zeros 0))) ∧
    params.length = n ∧ (0 : UInt8) ∉ s ∧ (expectedData = [] ∨ expectedData = s)

section Replies

variable {n : ℕ} {payload : Bytes} {seq : UInt64} {c expectedData : Bytes}

/-- The string of a datagram of this form. -/
theorem cString_reply {params s : Bytes} {zeros : ℕ} (hc : c.length ≤ maxCommandLength)
    (hparams : params.length = n) (h0 : (0 : UInt8) ∉ s) :
    Bytes.cString (fillCommand c ++ (Bytes.be64 seq ++ (params ++ (s ++ List.replicate zeros 0))))
      (simpleMessageNoDataSize + n) = s := by
  have hhead : (List.replicate zeros (0 : UInt8)).head? = none ∨
      (List.replicate zeros (0 : UInt8)).head? = some 0 := by
    cases zeros
    · exact Or.inl rfl
    · exact Or.inr rfl
  have h := Bytes.cString_append (fillCommand c ++ (Bytes.be64 seq ++ params)) s _ h0 hhead
  rw [length_simple_append hc, hparams] at h
  simpa only [List.append_assoc] using h

/-- The client takes exactly the replies of the form. -/
theorem responseValidation_eq_ok_iff (hp : payload.length ≤ maxDatagramSize)
    (hc : c.length ≤ maxCommandLength) :
    responseValidation (simpleMessageNoDataSize + n) (recvfrom payload).1 seq c
        (recvfrom payload).2 expectedData = .ok () ↔ IsReply n payload seq c expectedData := by
  rw [recvfrom_of_le (hp.trans (by decide))]
  dsimp only
  constructor
  · intro h
    unfold responseValidation at h
    split_ifs at h with hsize hcommand hseq hvalid hdata
    have hle := Nat.not_lt.mp hsize
    have hexpected : isExpectedCommand (Message.command payload) c := by simpa using hcommand
    have hcmd : Message.command payload = fillCommand c :=
      (isExpectedCommand_iff (Bytes.length_field ..)).mp hexpected
    have hbe : Bytes.field payload maxCommandLength 8 = Bytes.be64 seq :=
      (Bytes.be64toh_eq_iff (Bytes.length_field ..) seq).mp
        (by simpa [Message.messageSeq] using hseq)
    have hfield : Bytes.field payload (simpleMessageNoDataSize + n)
        (payload.length - (simpleMessageNoDataSize + n)) =
          payload.drop (simpleMessageNoDataSize + n) := by
      rw [Bytes.field_of_le (by omega), List.take_of_length_le (by rw [List.length_drop])]
    rw [hfield] at hvalid
    obtain ⟨s, zeros, hs, h0⟩ := isValidData_iff.mp (by simpa using hvalid)
    have hpayload := eq_header_append hle
    rw [hcmd, hbe, hs] at hpayload
    refine ⟨_, s, zeros, hpayload, Bytes.length_field .., h0, ?_⟩
    have hstring : Bytes.cString payload (simpleMessageNoDataSize + n) = s := by
      rw [hpayload]
      exact cString_reply hc (Bytes.length_field ..) h0
    rw [hstring] at hdata
    by_cases hempty : expectedData = []
    · exact Or.inl hempty
    · exact Or.inr (by simpa [hempty] using hdata)
  · rintro ⟨params, s, zeros, rfl, hparams, h0, hdata⟩
    have hhead : (fillCommand c ++ (Bytes.be64 seq ++ params)).length =
        simpleMessageNoDataSize + n := by
      rw [length_simple_append hc, hparams]
    have hassoc : fillCommand c ++ (Bytes.be64 seq ++ (params ++ (s ++ List.replicate zeros 0))) =
        fillCommand c ++ (Bytes.be64 seq ++ params) ++ ((s ++ List.replicate zeros 0) ++ []) := by
      simp
    have hfield : Bytes.field
        (fillCommand c ++ (Bytes.be64 seq ++ (params ++ (s ++ List.replicate zeros 0))))
        (simpleMessageNoDataSize + n) (s ++ List.replicate zeros 0).length =
          s ++ List.replicate zeros 0 := by
      rw [hassoc, ← hhead, Bytes.field_append]
    have hlen : (fillCommand c ++
        (Bytes.be64 seq ++ (params ++ (s ++ List.replicate zeros 0)))).length =
          simpleMessageNoDataSize + n + (s ++ List.replicate zeros 0).length := by
      rw [length_simple_append hc, List.length_append, hparams, Nat.add_assoc]
    have hcommand : isExpectedCommand (fillCommand c) c :=
      (isExpectedCommand_iff (length_fillCommand hc)).mpr rfl
    rw [responseValidation, hlen, if_neg (by omega), Nat.add_sub_cancel_left, hfield,
      cString_reply hc hparams h0, command_append hc, messageSeq_append hc, hcommand,
      isValidData_iff.mpr ⟨s, zeros, rfl, h0⟩]
    rcases hdata with rfl | rfl <;> simp

/-- Each of the client's validations takes exactly the replies of its form. -/
theorem validation_iff (hp : payload.length ≤ maxDatagramSize) (hc : c.length ≤ maxCommandLength) :
    AcceptsExactly (simpleMessageValidation (recvfrom payload).1 seq c (recvfrom payload).2
        expectedData) (IsReply 0 payload seq c expectedData) ∧
      AcceptsExactly (complexMessageValidation (recvfrom payload).1 seq c (recvfrom payload).2
        expectedData) (IsReply 8 payload seq c expectedData) := by
  rw [acceptsExactly_iff, acceptsExactly_iff]
  exact ⟨@responseValidation_eq_ok_iff 0 _ _ _ _ hp hc,
    @responseValidation_eq_ok_iff 8 _ _ _ _ hp hc⟩

theorem oneReply_validation :
    AcceptsExactly (simpleMessageValidation (recvfrom (simpleMessage 1 filesListResponse [97])).1 1
        filesListResponse (recvfrom (simpleMessage 1 filesListResponse [97])).2 [])
        (IsReply 0 (simpleMessage 1 filesListResponse [97]) 1 filesListResponse []) ∧
      AcceptsExactly (complexMessageValidation (recvfrom (simpleMessage 1 filesListResponse [97])).1
        1 filesListResponse (recvfrom (simpleMessage 1 filesListResponse [97])).2 [])
        (IsReply 8 (simpleMessage 1 filesListResponse [97]) 1 filesListResponse []) :=
  validation_iff (by decide) (by decide)

end Replies

/-! ## Requests -/

/-- The datagram is what the server's validation is meant to take : a command with the data
that it needs. -/
def IsDescribed (payload : Bytes) : Prop :=
  (recvfrom payload).1.command = fillCommand discoverRequest ∧
      payload.length = simpleMessageNoDataSize ∨
    (recvfrom payload).1.command = fillCommand filesListRequest ∧
      simpleMessageNoDataSize ≤ payload.length ∨
    ((recvfrom payload).1.command = fillCommand fileGetRequest ∨
      (recvfrom payload).1.command = fillCommand fileRemoveRequest) ∧
      simpleMessageNoDataSize < payload.length ∨
    (recvfrom payload).1.command = fillCommand fileAddRequest ∧
      complexMessageNoDataSize < payload.length

instance (payload : Bytes) : Decidable (IsDescribed payload) :=
  inferInstanceAs (Decidable (_ ∨ _))

theorem isValidString_fillCommand {c : Bytes} (h0 : (0 : UInt8) ∉ c)
    (hc : c.length < maxCommandLength) : isValidString (fillCommand c) := by
  have hdrop : (fillCommand c).dropWhile (· ≠ 0) =
      List.replicate (maxCommandLength - c.length) 0 := by
    rw [fillCommand, List.dropWhile_append_of_pos (Bytes.ne_zero_of_mem h0),
      List.dropWhile_eq_self_iff]
    simp
  have hlast : (fillCommand c).getLast? = some 0 := by
    rw [fillCommand, List.getLast?_append, List.getLast?_replicate, if_neg (by omega)]
    rfl
  rw [isValidString, hdrop, hlast]
  simp

/-- The command field is a word and zeros exactly if it is valid and reads as the word. -/
theorem command_eq_iff {m : Message} {c : Bytes} (h0 : (0 : UInt8) ∉ c)
    (hc : c.length < maxCommandLength) :
    m.command = fillCommand c ↔ isValidString m.command ∧ m.commandString = c := by
  constructor
  · intro h
    have hstring := commandString_append hc.le [] h0 hc
    rw [Message.commandString, command_append hc.le] at hstring
    rw [Message.commandString, h]
    exact ⟨isValidString_fillCommand h0 hc, hstring⟩
  · rintro ⟨hvalid, rfl⟩
    obtain ⟨hzero, -⟩ := Bool.and_eq_true_iff.mp hvalid
    have hsplit := List.takeWhile_append_dropWhile (p := (· ≠ 0)) (l := m.command)
    have hlen := congrArg List.length hsplit
    rw [List.length_append,
      show m.command.length = maxCommandLength from Bytes.length_field ..] at hlen
    have hdrop : m.command.dropWhile (· ≠ 0) =
        List.replicate (maxCommandLength - m.commandString.length) 0 := by
      refine List.eq_replicate_iff.mpr ⟨?_, fun b hb => ?_⟩
      · rw [Message.commandString]
        omega
      · exact of_decide_eq_true (List.all_eq_true.mp hzero b hb)
    rw [fillCommand, ← hdrop]
    exact hsplit.symm

/-- What the server takes : what is described, and an upload request without a filename. -/
theorem messageValidation_eq_ok_iff {payload : Bytes} (hp : payload.length ≤ maxDatagramSize) :
    messageValidation (recvfrom payload).1 (recvfrom payload).2 = .ok () ↔
      IsDescribed payload ∨ (recvfrom payload).1.command = fillCommand fileAddRequest ∧
        payload.length = complexMessageNoDataSize := by
  have h26 : complexMessageNoDataSize = 26 := rfl
  have h18 : simpleMessageNoDataSize = 18 := rfl
  unfold IsDescribed
  rw [recvfrom_of_le (hp.trans (by decide)), command_eq_iff (by decide) (by decide),
    command_eq_iff (by decide) (by decide), command_eq_iff (by decide) (by decide),
    command_eq_iff (by decide) (by decide), command_eq_iff (by decide) (by decide)]
  dsimp only
  unfold messageValidation
  by_cases hvalid : isValidString (Message.command payload)
  · simp only [hvalid, if_true, true_and]
    generalize Message.commandString payload = w
    rcases eq_or_ne w fileAddRequest with rfl | hadd
    · have hne : fileAddRequest ≠ discoverRequest ∧ fileAddRequest ≠ filesListRequest ∧
          fileAddRequest ≠ fileGetRequest ∧ fileAddRequest ≠ fileRemoveRequest := by decide
      simp [hne]
      omega
    rcases eq_or_ne w discoverRequest with rfl | hdiscover
    · have hne : discoverRequest ≠ filesListRequest ∧ discoverRequest ≠ fileGetRequest ∧
          discoverRequest ≠ fileRemoveRequest := by decide
      simp only [hadd, hne, if_true, if_false, true_and, false_and, or_false]
      split_ifs <;> simp <;> omega
    rcases eq_or_ne w filesListRequest with rfl | hlist
    · have hne : filesListRequest ≠ fileGetRequest ∧ filesListRequest ≠ fileRemoveRequest := by
        decide
      simp only [hadd, hdiscover, hne, if_true, if_false, true_and, false_and, or_false]
      split_ifs <;> simp <;> omega
    rcases eq_or_ne w fileGetRequest with rfl | hget
    · have hne : fileGetRequest ≠ fileRemoveRequest := by decide
      simp only [hadd, hdiscover, hlist, hne, if_true, if_false, true_and, false_and, or_false]
      split_ifs <;> simp <;> omega
    rcases eq_or_ne w fileRemoveRequest with rfl | hremove
    · simp only [hadd, hdiscover, hlist, hget, if_true, if_false, false_and, or_false]
      split_ifs <;> simp <;> omega
    · simp only [hadd, hdiscover, hlist, hget, hremove, if_false, false_and, or_false]
      split_ifs <;> simp
  · simp [hvalid]

/-- What the server takes is what is described, but for an upload request that ends with its
header. -/
theorem messageValidation_described_iff {payload : Bytes} (hp : payload.length ≤ maxDatagramSize) :
    AcceptsExactly (messageValidation (recvfrom payload).1 (recvfrom payload).2)
        (IsDescribed payload) ↔
      ¬((recvfrom payload).1.command = fillCommand fileAddRequest ∧
        payload.length = complexMessageNoDataSize) := by
  have hadd : (recvfrom payload).1.command = fillCommand fileAddRequest →
      payload.length = complexMessageNoDataSize → ¬IsDescribed payload := by
    rintro hadd hlen (⟨h, -⟩ | ⟨h, -⟩ | ⟨h | h, -⟩ | ⟨-, h⟩)
    · exact absurd (hadd.symm.trans h) (by decide)
    · exact absurd (hadd.symm.trans h) (by decide)
    · exact absurd (hadd.symm.trans h) (by decide)
    · exact absurd (hadd.symm.trans h) (by decide)
    · omega
  rw [acceptsExactly_iff, messageValidation_eq_ok_iff hp]
  constructor
  · rintro h ⟨hcommand, hlen⟩
    exact hadd hcommand hlen (h.mp (Or.inr ⟨hcommand, hlen⟩))
  · intro h
    exact or_iff_left h

theorem oneRequest_described :
    AcceptsExactly (messageValidation (recvfrom (complexMessage 1 fileAddRequest [97] 5)).1
        (recvfrom (complexMessage 1 fileAddRequest [97] 5)).2)
        (IsDescribed (complexMessage 1 fileAddRequest [97] 5)) ↔
      ¬((recvfrom (complexMessage 1 fileAddRequest [97] 5)).1.command =
          fillCommand fileAddRequest ∧
        (complexMessage 1 fileAddRequest [97] 5).length = complexMessageNoDataSize) :=
  messageValidation_described_iff (by decide)

/-- An upload request without a filename is taken. -/
theorem noFilename_not_described :
    ¬AcceptsExactly (messageValidation (recvfrom (complexMessage 1 fileAddRequest [] 5)).1
      (recvfrom (complexMessage 1 fileAddRequest [] 5)).2)
      (IsDescribed (complexMessage 1 fileAddRequest [] 5)) := by
  intro h
  have hok : messageValidation (recvfrom (complexMessage 1 fileAddRequest [] 5)).1
      (recvfrom (complexMessage 1 fileAddRequest [] 5)).2 = .ok () := by decide
  exact absurd (h.ok_iff.mp hok) (by decide)

end Netstore
