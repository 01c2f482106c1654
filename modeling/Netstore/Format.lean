import Netstore.ClientUpload
import Netstore.FilesList
import Netstore.Threads

/-!
# The message format

What each side sends is what the other reads. A request of the client passes the server's
validation and is dispatched to the handler of its command with the sequence number, the
string and the parameter it was made of (`Delivered`). A reply of the server passes the
client's validation exactly for the sequence number and the command it was made of, and
for no string or its own (`ReadAsSimple`, `ReadAsComplex`). A refusal is a simple message
that the client receives as a complex one; an acceptance is sent without its string.
-/

namespace Netstore

/-! ## Replies of the server -/

section Replies

variable (messageSeq : UInt64) (s : Bytes) (param : UInt64)

/-- The answer to a discovery as it is sent. -/
def discoverReply : Option Bytes :=
  sendComplex (complexMessage messageSeq discoverResponse s param) (UInt16.ofNat s.length)

/-- A files list that is filled with one string. -/
def filesListReply : Option Bytes :=
  let (message, length) :=
    fillMessageWithFilename (simpleMessage messageSeq filesListResponse []) 0 s
  sendSimple message (UInt16.ofNat length)

/-- The answer to a fetch as it is sent. -/
def fileReply : Option Bytes :=
  sendComplex (complexMessage messageSeq fileGetResponse s param) (UInt16.ofNat s.length)

/-- The acceptance of an upload as it is sent : without the filename. -/
def addAcceptance : Option Bytes :=
  sendComplex (complexMessage messageSeq fileAddAcceptance s param) 0

/-- The refusal of an upload as it is sent. -/
def addRefusal : Option Bytes :=
  sendSimple (simpleMessage messageSeq fileAddRefusal s) (UInt16.ofNat s.length)

end Replies

theorem Upload.acceptance_eq (u : Upload) (port : UInt16) :
    u.acceptance port = addAcceptance u.messageSeq u.filename port.toUInt64 :=
  rfl

theorem Upload.refusal_eq (u : Upload) : u.refusal = addRefusal u.messageSeq u.filename :=
  rfl

theorem Download.response_eq (u : Download) (port : UInt16) :
    u.response port = fileReply u.messageSeq u.filename port.toUInt64 :=
  rfl

/-! ## Agreement -/

/-- The payload is sent, and the server takes it for the request. -/
def Delivered (payload : Option Bytes) (messageSeq : UInt64) (r : Request) : Prop :=
  ∃ bs, payload = some bs ∧ (recvfrom bs).1.messageSeq = messageSeq ∧ receive bs = .ok (some r)

/-- What the client that receives the payload makes of the simple view. -/
structure ReadAsSimple (payload : Bytes) (messageSeq : UInt64) (command data : Bytes) : Prop where
  valid_iff : ∀ {seq c expectedData}, (0 : UInt8) ∉ c → c.length ≤ maxCommandLength →
    (simpleMessageValidation (recvfrom payload).1 seq c (recvfrom payload).2 expectedData =
        .ok () ↔
      seq = messageSeq ∧ c = command ∧ (expectedData = [] ∨ expectedData = data))
  data_eq : (recvfrom payload).1.simpleData = data

/-- What the client that receives the payload makes of the complex view. -/
structure ReadAsComplex (payload : Bytes) (messageSeq : UInt64) (command data : Bytes)
    (param : UInt64) : Prop where
  valid_iff : ∀ {seq c expectedData}, (0 : UInt8) ∉ c → c.length ≤ maxCommandLength →
    (complexMessageValidation (recvfrom payload).1 seq c (recvfrom payload).2 expectedData =
        .ok () ↔
      seq = messageSeq ∧ c = command ∧ (expectedData = [] ∨ expectedData = data))
  data_eq : (recvfrom payload).1.complexData = data
  param_eq : (recvfrom payload).1.param = param

section Sent

variable {seq : UInt64} {c s : Bytes}

theorem readAsSimple_append (hc : c.length ≤ maxCommandLength) (hc0 : (0 : UInt8) ∉ c)
    (h0 : (0 : UInt8) ∉ s) (hs : s.length ≤ maxSimpleDataSize) :
    ReadAsSimple (fillCommand c ++ (Bytes.be64 seq ++ s)) seq c s := by
  refine ⟨fun hc0' _ => ?_, ?_⟩
  · rw [recvfrom_simple_append hc hs]
    exact simpleMessageValidation_append hc hc0 hc0' h0
  · rw [recvfrom_simple_append hc hs]
    exact simpleData_append hc h0

theorem readAsComplex_append (hc : c.length ≤ maxCommandLength) (hc0 : (0 : UInt8) ∉ c)
    (param : UInt64) (h0 : (0 : UInt8) ∉ s) (hs : s.length ≤ maxComplexDataSize) :
    ReadAsComplex (fillCommand c ++ (Bytes.be64 seq ++ (Bytes.be64 param ++ s))) seq c s param := by
  refine ⟨fun hc0' _ => ?_, ?_, ?_⟩
  · rw [recvfrom_complex_append hc param hs]
    exact complexMessageValidation_append hc hc0 hc0' h0
  · rw [recvfrom_complex_append hc param hs]
    exact complexData_append hc h0
  · rw [recvfrom_complex_append hc param hs]
    exact param_append hc s

/-- Without its string a complex message is its header. -/
theorem sendComplex_zero (hc : c.length ≤ maxCommandLength) (param : UInt64) :
    sendComplex (complexMessage seq c s param) 0 =
      some (fillCommand c ++ (Bytes.be64 seq ++ (Bytes.be64 param ++ []))) := by
  have hfield := Bytes.field_append [] (fillCommand c ++ (Bytes.be64 seq ++ (Bytes.be64 param ++ [])))
    (strncpy s maxComplexDataSize)
  rw [length_complex_append hc, List.length_nil] at hfield
  have hn : (UInt16.ofNat complexMessageNoDataSize + 0).toNat = complexMessageNoDataSize := by decide
  rw [sendComplex, sendto, hn, if_pos (by decide), complexMessage]
  simpa using hfield

/-! ## Requests -/

theorem delivered_simpleRequest (hc : c.length < maxCommandLength) (hc0 : (0 : UInt8) ∉ c)
    (h0 : (0 : UInt8) ∉ s) (hs : s.length ≤ maxSimpleDataSize) {r : Request}
    (hr : ∀ m : Message, m.command = fillCommand c → m.commandString = c → m.messageSeq = seq →
      m.simpleData = s → messageValidation m (simpleMessageNoDataSize + s.length) = .ok () ∧
        dispatch m = some r) :
    Delivered (simpleRequest seq c s) seq r := by
  have hle := hc.le
  obtain ⟨hval, hdis⟩ := hr _ (command_append hle _) (commandString_append hle _ hc0 hc)
    (messageSeq_append hle s) (simpleData_append hle h0)
  refine ⟨_, sendSimple_simpleMessage hle seq h0 hs, ?_, ?_⟩
  · rw [recvfrom_simple_append hle hs]
    exact messageSeq_append hle s
  · rw [receive, recvfrom_simple_append hle hs]
    simp only [length_simple_append hle, hval, hdis]
    rfl

theorem delivered_discover : Delivered (simpleRequest seq discoverRequest []) seq (.discover seq) := by
  refine delivered_simpleRequest (by decide) (by decide) (by simp) (Nat.zero_le _) ?_
  intro m hcmd hstr hseq _
  refine ⟨?_, ?_⟩
  · rw [messageValidation, hcmd, hstr, if_pos (by decide), if_neg (by decide), if_neg (by decide),
      if_pos rfl, if_neg (by decide)]
  · rw [dispatch, hstr, hseq, if_neg (by decide), if_pos rfl]

theorem delivered_filesList (h0 : (0 : UInt8) ∉ s) (hs : s.length ≤ maxSimpleDataSize) :
    Delivered (simpleRequest seq filesListRequest s) seq (.filesList seq s) := by
  refine delivered_simpleRequest (by decide) (by decide) h0 hs ?_
  intro m hcmd hstr hseq hdata
  refine ⟨?_, ?_⟩
  · rw [messageValidation, hcmd, hstr, if_pos (by decide), if_neg (by decide), if_neg (by omega),
      if_neg (by decide), if_pos rfl]
  · rw [dispatch, hstr, hseq, hdata, if_neg (by decide), if_neg (by decide), if_pos rfl]

theorem delivered_file (h0 : (0 : UInt8) ∉ s) (hs : s.length ≤ maxSimpleDataSize) (hne : s ≠ []) :
    Delivered (simpleRequest seq fileGetRequest s) seq (.file seq s) := by
  have hpos := List.length_pos_iff.mpr hne
  refine delivered_simpleRequest (by decide) (by decide) h0 hs ?_
  intro m hcmd hstr hseq hdata
  refine ⟨?_, ?_⟩
  · rw [messageValidation, hcmd, hstr, if_pos (by decide), if_neg (by decide), if_neg (by omega),
      if_neg (by decide), if_neg (by decide), if_neg (by decide), if_pos rfl, if_neg (by omega)]
  · rw [dispatch, hstr, hseq, hdata, if_neg (by decide), if_neg (by decide), if_neg (by decide),
      if_pos rfl]

theorem delivered_remove (h0 : (0 : UInt8) ∉ s) (hs : s.length ≤ maxSimpleDataSize)
    (hne : s ≠ []) : Delivered (simpleRequest seq fileRemoveRequest s) seq (.remove s) := by
  have hpos := List.length_pos_iff.mpr hne
  refine delivered_simpleRequest (by decide) (by decide) h0 hs ?_
  intro m hcmd hstr _ hdata
  refine ⟨?_, ?_⟩
  · rw [messageValidation, hcmd, hstr, if_pos (by decide), if_neg (by decide), if_neg (by omega),
      if_neg (by decide), if_neg (by decide), if_neg (by decide), if_neg (by decide), if_pos rfl,
      if_neg (by omega)]
  · rw [dispatch, hstr, hdata, if_neg (by decide), if_neg (by decide), if_neg (by decide),
      if_neg (by decide), if_pos rfl]

theorem delivered_add (n : UInt64) (h0 : (0 : UInt8) ∉ s) (hs : s.length ≤ maxComplexDataSize) :
    Delivered (addRequest seq s n) seq (.upload seq s n) := by
  have hc : fileAddRequest.length ≤ maxCommandLength := by decide
  obtain ⟨payload, hp, hr⟩ := receive_addRequest seq n h0 hs
  refine ⟨payload, hp, ?_, hr⟩
  rw [addRequest, sendComplex_complexMessage hc seq n h0 hs, Option.some.injEq] at hp
  rw [← hp, recvfrom_complex_append hc n hs]
  exact messageSeq_append hc _

/-- A request for the files list has its own sequence number, and its own pattern unless that
holds a zero or its length does not fit in sixteen bits. -/
theorem filesList_of_request {seq' : UInt64} {pattern payload : Bytes}
    (hp : simpleRequest seq filesListRequest s = some payload)
    (hr : receive payload = .ok (some (.filesList seq' pattern))) :
    seq' = seq ∧ ((0 : UInt8) ∉ s → s.length < 2 ^ 16 → pattern = s) := by
  have hc : filesListRequest.length ≤ maxCommandLength := by decide
  have hmin := le_length_of_receive hr
  have hdis := (validated_of_receive hr).2
  obtain ⟨rest, hrest⟩ := exists_append_of_sendto hc hp hmin
  refine ⟨?_, fun h0 hlen => ?_⟩
  · rw [recvfrom_of_sendto hp, hrest] at hdis
    exact (dispatch_filesList hdis).1.trans (messageSeq_append hc _)
  · have hsize : simpleMessageNoDataSize = 18 := rfl
    have hdatagram : maxDatagramSize = 65507 := rfl
    have hdata : maxSimpleDataSize = 65489 := rfl
    have hsent := hp
    rw [simpleRequest, sendSimple, sendto] at hsent
    split_ifs at hsent with hmax
    rw [← Option.some.inj hsent, Bytes.length_field] at hmin
    rw [UInt16.toNat_add, UInt16.toNat_ofNat', UInt16.toNat_ofNat'] at hmin hmax
    obtain ⟨bs, hbs, -, hr'⟩ := @delivered_filesList seq s h0 (by omega)
    obtain rfl : payload = bs := Option.some.inj (hp.symm.trans hbs)
    cases hr.symm.trans hr'
    rfl

/-- The sequence number that a server reads in a discovery is the one that was sent. -/
theorem discover_of_request {seq' : UInt64} {payload : Bytes} (hc : c.length ≤ maxCommandLength)
    (hp : simpleRequest seq c s = some payload)
    (hr : receive payload = .ok (some (.discover seq'))) : seq' = seq := by
  have hdis := (validated_of_receive hr).2
  obtain ⟨rest, hrest⟩ := exists_append_of_sendto hc hp (le_length_of_receive hr)
  rw [recvfrom_of_sendto hp, hrest] at hdis
  exact (dispatch_discover hdis).trans (messageSeq_append hc _)

/-! ## Replies -/

theorem addAcceptance_eq (param : UInt64) : addAcceptance seq s param =
    some (fillCommand fileAddAcceptance ++ (Bytes.be64 seq ++ (Bytes.be64 param ++ []))) :=
  sendComplex_zero (by decide) param

theorem addRefusal_eq (h0 : (0 : UInt8) ∉ s) (hs : s.length ≤ maxSimpleDataSize) :
    addRefusal seq s = some (fillCommand fileAddRefusal ++ (Bytes.be64 seq ++ s)) :=
  sendSimple_simpleMessage (by decide) seq h0 hs

theorem filesListReply_eq (h0 : (0 : UInt8) ∉ s) (hs : s.length ≤ maxSimpleDataSize) :
    filesListReply seq s = some (listMessage seq [s]) := by
  have hempty : simpleMessage seq filesListResponse [] = listMessage seq [] := by
    simp [simpleMessage, strncpy, listMessage, listHeader]
  have hfill : fillMessageWithFilename (listMessage seq []) 0 s =
      (listMessage seq [s] ++ [0], s.length) := by
    have h := @fillMessageWithFilename_listMessage seq s [] (by simp) h0
    rwa [if_pos rfl, List.append_nil, List.nil_append, Bytes.joinLines_singleton] at h
  have hsend : trySendMessage (listMessage seq [s] ++ [0]) s.length = [listMessage seq [s]] := by
    have h := @trySendMessage_listMessage seq [s] [0] (by rwa [Bytes.joinLines_singleton])
    rwa [Bytes.joinLines_singleton] at h
  rw [filesListReply, hempty, hfill]
  exact Option.toList_eq_singleton_iff.mp hsend

/-- An acceptance is an answer to its own request only. -/
theorem receiveUploadFileResponse_addAcceptance (seq' param : UInt64) (f : Bytes) :
    receiveUploadFileResponse seq' f
        (fillCommand fileAddAcceptance ++ (Bytes.be64 seq ++ (Bytes.be64 param ++ []))) =
      if seq' = seq then some (param.toUInt16, true) else none := by
  have hc : fileAddAcceptance.length ≤ maxCommandLength := by decide
  have hval := @complexMessageValidation_append seq seq' param _ _ [] [] hc (by decide)
    (by decide : (0 : UInt8) ∉ fileAddAcceptance) (by simp)
  rw [receiveUploadFileResponse, recvfrom_complex_append hc param (Nat.zero_le _)]
  dsimp only
  rw [command_append hc, if_pos (by decide)]
  split
  case h_1 hok =>
    rw [param_append hc, if_pos (hval.mp hok).1]
  case h_2 e herror =>
    refine (if_neg fun hseq => ?_).symm
    rw [hval.mpr ⟨hseq, rfl, Or.inl rfl⟩] at herror
    cases herror

/-- So is a refusal, of the name that was asked for. -/
theorem receiveUploadFileResponse_addRefusal (seq' : UInt64) (f : Bytes) (h0 : (0 : UInt8) ∉ s)
    (hs : s.length ≤ maxSimpleDataSize) :
    (receiveUploadFileResponse seq' f (fillCommand fileAddRefusal ++ (Bytes.be64 seq ++ s))).map
        Prod.snd = if seq' = seq ∧ (f = [] ∨ f = s) then some false else none := by
  have hc : fileAddRefusal.length ≤ maxCommandLength := by decide
  have hval := @simpleMessageValidation_append seq seq' _ _ s f hc (by decide)
    (by decide : (0 : UInt8) ∉ fileAddRefusal) h0
  rw [receiveUploadFileResponse, recvfrom_simple_append hc hs]
  dsimp only
  rw [command_append hc, if_neg (by decide)]
  split
  case h_1 hok =>
    rw [if_pos ⟨(hval.mp hok).1, (hval.mp hok).2.2⟩]
    rfl
  case h_2 e herror =>
    refine (if_neg fun h => ?_).symm
    rw [hval.mpr ⟨h.1, rfl, h.2⟩] at herror
    cases herror

end Sent

/-! ## Both ways -/

section Agree

variable (seq : UInt64) (s : Bytes) (param : UInt64)

/-- The requests that are made of a sequence number, a string and a parameter. -/
structure RequestsAgree : Prop where
  discover : Delivered (simpleRequest seq discoverRequest []) seq (.discover seq)
  filesList : s.length ≤ maxSimpleDataSize →
    Delivered (simpleRequest seq filesListRequest s) seq (.filesList seq s)
  file : s.length ≤ maxSimpleDataSize → s ≠ [] →
    Delivered (simpleRequest seq fileGetRequest s) seq (.file seq s)
  remove : s.length ≤ maxSimpleDataSize → s ≠ [] →
    Delivered (simpleRequest seq fileRemoveRequest s) seq (.remove s)
  add : s.length ≤ maxComplexDataSize → Delivered (addRequest seq s param) seq (.upload seq s param)

/-- The replies that are. -/
structure RepliesAgree : Prop where
  discover : s.length ≤ maxComplexDataSize → ∃ payload, discoverReply seq s param = some payload ∧
    ReadAsComplex payload seq discoverResponse s param
  filesList : s.length ≤ maxSimpleDataSize → ∃ payload, filesListReply seq s = some payload ∧
    ReadAsSimple payload seq filesListResponse s ∧
    ∀ seq', receiveSearchRespond seq' payload =
      if seq' = seq then s.splitOn Bytes.newline else []
  file : s.length ≤ maxComplexDataSize → ∃ payload, fileReply seq s param = some payload ∧
    ReadAsComplex payload seq fileGetResponse s param
  addAcceptance : s.length ≤ maxComplexDataSize →
    ∃ payload, addAcceptance seq s param = some payload ∧
      ReadAsComplex payload seq fileAddAcceptance [] param ∧
      ∀ seq' f, receiveUploadFileResponse seq' f payload =
        if seq' = seq then some (param.toUInt16, true) else none
  addRefusal : s.length ≤ maxSimpleDataSize → ∃ payload, addRefusal seq s = some payload ∧
    ReadAsSimple payload seq fileAddRefusal s ∧
    ∀ seq' f, (receiveUploadFileResponse seq' f payload).map Prod.snd =
      if seq' = seq ∧ (f = [] ∨ f = s) then some false else none

variable {s} (h0 : (0 : UInt8) ∉ s)

include h0

theorem requestsAgree : RequestsAgree seq s param where
  discover := delivered_discover
  filesList hs := delivered_filesList h0 hs
  file hs hne := delivered_file h0 hs hne
  remove hs hne := delivered_remove h0 hs hne
  add hs := delivered_add param h0 hs

theorem repliesAgree : RepliesAgree seq s param where
  discover hs := ⟨_, sendComplex_complexMessage (by decide) seq param h0 hs,
    readAsComplex_append (by decide) (by decide) param h0 hs⟩
  filesList hs := by
    have hlist : listMessage seq [s] =
        fillCommand filesListResponse ++ (Bytes.be64 seq ++ s) := by
      rw [listMessage_eq, Bytes.joinLines_singleton]
    refine ⟨_, filesListReply_eq h0 hs, ?_, fun seq' => ?_⟩
    · rw [hlist]
      exact readAsSimple_append (by decide) (by decide) h0 hs
    · rw [hlist, receiveSearchRespond_append seq' h0 hs]
  file hs := ⟨_, sendComplex_complexMessage (by decide) seq param h0 hs,
    readAsComplex_append (by decide) (by decide) param h0 hs⟩
  addAcceptance _ := ⟨_, addAcceptance_eq param,
    readAsComplex_append (by decide) (by decide) param (by simp) (Nat.zero_le _),
    fun seq' f => receiveUploadFileResponse_addAcceptance seq' param f⟩
  addRefusal hs := ⟨_, addRefusal_eq h0 hs, readAsSimple_append (by decide) (by decide) h0 hs,
    fun seq' f => receiveUploadFileResponse_addRefusal seq' f h0 hs⟩

end Agree

/-- A datagram of a files list is read as the names that it lists. -/
theorem ListsNames.readAsSimple {files : SortedSet Bytes} {seq : UInt64} {pattern payload : Bytes}
    {names : List Bytes} (h : ListsNames files seq pattern payload names)
    (hn : ∀ f ∈ files, Sendable f) :
    ReadAsSimple payload seq filesListResponse (Bytes.joinLines names) := by
  have hzero : (0 : UInt8) ∉ Bytes.joinLines names :=
    Bytes.zero_not_mem_joinLines fun f hf => (hn f (h.found f hf).1).zero_not_mem
  rw [h.payload_eq, listMessage_eq]
  exact readAsSimple_append (by decide) (by decide) hzero h.le

/-- What a client sends, the server reads, and what the server sends, the client reads : of
any string, and of the lists that the handler makes of the names in an index. -/
theorem format_agrees (seq param : UInt64) {s : Bytes} (h0 : (0 : UInt8) ∉ s)
    (files : SortedSet Bytes) (hn : ∀ f ∈ files, Sendable f) (pattern : Bytes) :
    RequestsAgree seq s param ∧ RepliesAgree seq s param ∧
      ∀ payload ∈ handleFilesListRequest files seq pattern,
        ∃ names, ListsNames files seq pattern payload names ∧
          ReadAsSimple payload seq filesListResponse (Bytes.joinLines names) := by
  refine ⟨requestsAgree seq param h0, repliesAgree seq param h0, fun payload hmem => ?_⟩
  obtain ⟨names, h⟩ := listsNames_of_mem hn hmem
  exact ⟨names, h, h.readAsSimple hn⟩

theorem oneName_agrees : RequestsAgree 1 [97] 5 ∧ RepliesAgree 1 [97] 5 ∧
    ∀ payload ∈ handleFilesListRequest (SortedSet.ofList [[97]]) 1 [],
      ∃ names, ListsNames (SortedSet.ofList [[97]]) 1 [] payload names ∧
        ReadAsSimple payload 1 filesListResponse (Bytes.joinLines names) := by
  refine format_agrees 1 5 (by decide) _ (fun f hf => ?_) []
  obtain rfl : f = [97] := by simpa using hf
  exact ⟨by decide, by decide, by decide⟩

end Netstore
