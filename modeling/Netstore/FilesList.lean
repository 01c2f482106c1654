import Netstore.Protocol
import Netstore.SortedSet

/-!
# The files list

`handleFilesListRequest` packs the names that contain the pattern into messages, one
name a line. A name that does not fit has the message sent and the next one begun, and
is left out of both. So a client that splits what it receives gets the names that
`pack` keeps, in order, and these are all of them exactly if they fit in one message
(`filesList_complete_iff`).
-/

namespace Netstore

/-! ## The handler -/

/-- Append a name to the data of a message, after a newline unless it is the first. -/
def fillMessageWithFilename (msgSend : Message) (startIndex : ℕ) (filename : Bytes) :
    Message × ℕ :=
  let (msgSend, startIndex) :=
    if startIndex > 0 then
      (msgSend.overwrite (simpleMessageNoDataSize + startIndex) [Bytes.newline], startIndex + 1)
    else (msgSend, startIndex)
  -- `strcpy` stores the terminating zero as well
  (msgSend.overwrite (simpleMessageNoDataSize + startIndex) (filename.takeWhile (· ≠ 0) ++ [0]),
    startIndex + filename.length)

/-- The variables of the handler's loop, and what it has sent. -/
structure Packing where
  message : Message
  currDataLen : ℕ
  sent : List Bytes

/-- A send that succeeds if the system takes the datagram. -/
def trySendMessage (message : Message) (length : ℕ) : List Bytes :=
  (sendSimple message (UInt16.ofNat length)).toList

/-- One turn of the loop. -/
def addFilename (pattern : Bytes) (p : Packing) (filename : Bytes) : Packing :=
  if pattern <:+: filename then
    if maxSimpleDataSize > p.currDataLen + filename.length then
      let (message, currDataLen) := fillMessageWithFilename p.message p.currDataLen filename
      { p with message, currDataLen }
    else
      -- the data is zeroed for the next name
      { message := p.message.take simpleMessageNoDataSize
        currDataLen := 0
        sent := p.sent ++ trySendMessage p.message p.currDataLen }
  else p

/-- The datagrams that the handler sends, in order. -/
def handleFilesListRequest (filesInStorage : SortedSet Bytes) (messageSeq : UInt64)
    (pattern : Bytes) : List Bytes :=
  let p := filesInStorage.toList.foldl (addFilename pattern)
    ⟨simpleMessage messageSeq filesListResponse [], 0, []⟩
  if p.currDataLen > 0 then p.sent ++ trySendMessage p.message p.currDataLen else p.sent

/-- The names that the client makes of a datagram it receives. -/
def receiveSearchRespond (expectedMessageSeq : UInt64) (payload : Bytes) : List Bytes :=
  let (message, messageLength) := recvfrom payload
  match simpleMessageValidation message expectedMessageSeq filesListResponse messageLength [] with
  | .ok _ => message.simpleData.splitOn Bytes.newline
  | .error _ => []

/-- The client gets the names that contain the pattern, each once, and nothing is sent if
there is none. -/
def FilesListComplete (filesInStorage : SortedSet Bytes) (messageSeq : UInt64)
    (pattern : Bytes) : Prop :=
  let received := (handleFilesListRequest filesInStorage messageSeq pattern).flatMap
    (receiveSearchRespond messageSeq)
  received.Nodup ∧ (∀ f, f ∈ received ↔ f ∈ filesInStorage ∧ pattern <:+: f) ∧
    ((∀ f ∈ filesInStorage, ¬pattern <:+: f) →
      handleFilesListRequest filesInStorage messageSeq pattern = [])

/-! ## Packing -/

/-- The loop on the lists of names : the messages that are full, and the names of the
next. -/
def packName (p : List (List Bytes) × List Bytes) (f : Bytes) : List (List Bytes) × List Bytes :=
  if maxSimpleDataSize > (Bytes.joinLines p.2).length + f.length then (p.1, p.2 ++ [f])
  else (p.1 ++ [p.2], [])

/-- The names of each message. -/
def pack (names : List Bytes) : List (List Bytes) :=
  let p := names.foldl packName ([], [])
  if p.2 = [] then p.1 else p.1 ++ [p.2]

/-- A name that can be listed : not empty, in one line and one C string, and of the
length that a file system allows. -/
structure Listable (f : Bytes) : Prop where
  ne_nil : f ≠ []
  newline_not_mem : Bytes.newline ∉ f
  zero_not_mem : (0 : UInt8) ∉ f
  length_le : f.length ≤ 255

theorem listable_iff {f : Bytes} :
    Listable f ↔ f ≠ [] ∧ Bytes.newline ∉ f ∧ (0 : UInt8) ∉ f ∧ f.length ≤ 255 :=
  ⟨fun ⟨h₁, h₂, h₃, h₄⟩ => ⟨h₁, h₂, h₃, h₄⟩, fun ⟨h₁, h₂, h₃, h₄⟩ => ⟨h₁, h₂, h₃, h₄⟩⟩

instance (f : Bytes) : Decidable (Listable f) :=
  decidable_of_iff' _ listable_iff

section Pack

variable {names cur : List Bytes} {ps : List (List Bytes)} {f : Bytes}

/-- What is packed is kept in order. -/
theorem flatten_packName_sublist (p : List (List Bytes) × List Bytes) (f : Bytes) :
    ((packName p f).1.flatten ++ (packName p f).2).Sublist (p.1.flatten ++ p.2 ++ [f]) := by
  unfold packName
  split_ifs
  · rw [List.append_assoc]
  · simp

theorem flatten_foldl_packName_sublist (p : List (List Bytes) × List Bytes)
    (names : List Bytes) : ((names.foldl packName p).1.flatten ++
      (names.foldl packName p).2).Sublist (p.1.flatten ++ p.2 ++ names) := by
  induction names generalizing p with
  | nil => simp
  | cons f names ih =>
    refine (ih (packName p f)).trans ?_
    have h := (flatten_packName_sublist p f).append_right names
    simpa using h

theorem flatten_pack (names : List Bytes) : (pack names).flatten =
    (names.foldl packName ([], [])).1.flatten ++ (names.foldl packName ([], [])).2 := by
  unfold pack
  dsimp only
  split_ifs with h
  · rw [h, List.append_nil]
  · rw [List.flatten_append, List.flatten_singleton]

/-- A name is packed if it leaves room for the lines before it. -/
theorem packName_of_le (hf : f.length ≤ 255)
    (hle : (Bytes.joinLines (cur ++ [f])).length ≤ maxSimpleDataSize) :
    packName (ps, cur) f = (ps, cur ++ [f]) := by
  rw [Bytes.length_joinLines_concat] at hle
  unfold packName
  rw [if_pos]
  simp only [maxSimpleDataSize] at hle ⊢
  split_ifs at hle with hc
  · subst hc
    simp
    omega
  · omega

/-- Names that fit in one message are all packed. -/
theorem foldl_packName_of_le (hn : ∀ f ∈ names, f.length ≤ 255)
    (hle : (Bytes.joinLines (cur ++ names)).length ≤ maxSimpleDataSize) :
    names.foldl packName (ps, cur) = (ps, cur ++ names) := by
  induction names generalizing cur with
  | nil => simp
  | cons f names ih =>
    have hsplit : cur ++ f :: names = (cur ++ [f]) ++ names := by simp
    rw [hsplit] at hle ⊢
    rw [List.foldl_cons, packName_of_le (hn f (by simp))
      ((Bytes.length_joinLines_le _ _).trans hle)]
    exact ih (fun g hg => hn g (by simp [hg])) hle

/-- Of names that do not, one is left out. -/
theorem length_foldl_packName_lt (ps : List (List Bytes)) (cur names : List Bytes)
    (hcur : (Bytes.joinLines cur).length ≤ maxSimpleDataSize)
    (hlt : maxSimpleDataSize < (Bytes.joinLines (cur ++ names)).length) :
    ((names.foldl packName (ps, cur)).1.flatten ++ (names.foldl packName (ps, cur)).2).length <
      (ps.flatten ++ cur ++ names).length := by
  induction names generalizing cur with
  | nil =>
    rw [List.append_nil] at hlt
    omega
  | cons f names ih =>
    rw [List.foldl_cons]
    by_cases hfit : maxSimpleDataSize > (Bytes.joinLines cur).length + f.length
    · have hsplit : cur ++ f :: names = (cur ++ [f]) ++ names := by simp
      rw [packName, if_pos hfit]
      rw [hsplit] at hlt
      have hle : (Bytes.joinLines (cur ++ [f])).length ≤ maxSimpleDataSize := by
        rw [Bytes.length_joinLines_concat]
        split_ifs <;> omega
      simpa using ih _ hle hlt
    · rw [packName, if_neg hfit]
      have h := (flatten_foldl_packName_sublist (ps ++ [cur], []) names).length_le
      simp only [List.length_append, List.length_flatten, List.map_append, List.sum_append,
        List.map_cons, List.map_nil, List.sum_cons, List.sum_nil, List.length_nil,
        List.length_cons] at h ⊢
      omega

end Pack

/-! ## The handler packs -/

/-- The bytes before the data of a files list. -/
def listHeader (messageSeq : UInt64) : Bytes :=
  fillCommand filesListResponse ++ Bytes.be64 messageSeq

/-- The files list that holds the names. -/
def listMessage (messageSeq : UInt64) (names : List Bytes) : Bytes :=
  listHeader messageSeq ++ Bytes.joinLines names

theorem listMessage_eq (seq : UInt64) (names : List Bytes) : listMessage seq names =
    fillCommand filesListResponse ++ (Bytes.be64 seq ++ Bytes.joinLines names) := by
  rw [listMessage, listHeader, List.append_assoc]

theorem length_listHeader (messageSeq : UInt64) :
    (listHeader messageSeq).length = simpleMessageNoDataSize := by
  rw [listHeader, List.length_append, length_fillCommand (by decide), Bytes.length_be64]
  rfl

/-- The names make a message. -/
structure Fits (names : List Bytes) : Prop where
  ne_nil : names ≠ []
  listable : ∀ f ∈ names, Listable f
  le : (Bytes.joinLines names).length ≤ maxSimpleDataSize

/-- The variables of the loop hold what is packed. -/
structure Packs (messageSeq : UInt64) (p : Packing) (q : List (List Bytes) × List Bytes) :
    Prop where
  message : p.message = listMessage messageSeq q.2 ++ if q.2 = [] then [] else [0]
  length : p.currDataLen = (Bytes.joinLines q.2).length
  sent : p.sent = q.1.map (listMessage messageSeq)
  le : p.currDataLen ≤ maxSimpleDataSize
  listable : ∀ f ∈ q.2, Listable f
  fits : ∀ l ∈ q.1, Fits l

section Loop

variable {messageSeq : UInt64} {pattern f : Bytes} {p : Packing}
  {q : List (List Bytes) × List Bytes} {names : List Bytes}

/-- A message that fits in a datagram is sent without what follows its data. -/
theorem trySendMessage_listMessage (rest : Bytes)
    (hle : (Bytes.joinLines names).length ≤ maxSimpleDataSize) :
    trySendMessage (listMessage messageSeq names ++ rest) (Bytes.joinLines names).length =
      [listMessage messageSeq names] := by
  have hlen : (listMessage messageSeq names).length = 18 + (Bytes.joinLines names).length := by
    rw [listMessage, List.length_append, length_listHeader]
    rfl
  have hn : (UInt16.ofNat simpleMessageNoDataSize +
      UInt16.ofNat (Bytes.joinLines names).length).toNat =
        (listMessage messageSeq names).length := by
    rw [UInt16.toNat_add, UInt16.toNat_ofNat', UInt16.toNat_ofNat', hlen]
    simp only [simpleMessageNoDataSize, maxCommandLength, maxSimpleDataSize] at hle ⊢
    omega
  have hfield := Bytes.field_append [] (listMessage messageSeq names) rest
  rw [trySendMessage, sendSimple, sendto, hn, if_pos]
  · exact congrArg (fun bs => (some bs).toList) hfield
  · rw [hlen]
    simp only [maxSimpleDataSize, maxDatagramSize] at hle ⊢
    omega

theorem Packs.trySendMessage (h : Packs messageSeq p q) :
    trySendMessage p.message p.currDataLen = [listMessage messageSeq q.2] := by
  rw [h.message, h.length]
  exact trySendMessage_listMessage _ (h.length ▸ h.le)

theorem Packs.currDataLen_pos (h : Packs messageSeq p q) : p.currDataLen > 0 ↔ q.2 ≠ [] := by
  rw [h.length]
  constructor
  · rintro hpos hq
    rw [hq] at hpos
    exact lt_irrefl 0 hpos
  · exact fun hq => List.length_pos_iff.mpr
      (Bytes.joinLines_ne_nil hq fun s hs => (h.listable s hs).ne_nil)

theorem fillMessageWithFilename_zero (m : Message) (hf : (0 : UInt8) ∉ f) :
    fillMessageWithFilename m 0 f =
      (m.overwrite simpleMessageNoDataSize (f ++ [0]), f.length) := by
  rw [fillMessageWithFilename, Bytes.takeWhile_ne_zero hf]
  simp

theorem fillMessageWithFilename_pos (m : Message) {n : ℕ} (hn : n > 0) (hf : (0 : UInt8) ∉ f) :
    fillMessageWithFilename m n f =
      ((m.overwrite (simpleMessageNoDataSize + n) [Bytes.newline]).overwrite
        (simpleMessageNoDataSize + n + 1) (f ++ [0]), n + 1 + f.length) := by
  rw [fillMessageWithFilename, Bytes.takeWhile_ne_zero hf, if_pos hn]
  rfl

/-- Filling in a name adds a line. -/
theorem fillMessageWithFilename_listMessage (hn : ∀ g ∈ names, g ≠ []) (hf : (0 : UInt8) ∉ f) :
    fillMessageWithFilename (listMessage messageSeq names ++ if names = [] then [] else [0])
        (Bytes.joinLines names).length f =
      (listMessage messageSeq (names ++ [f]) ++ [0], (Bytes.joinLines (names ++ [f])).length) := by
  by_cases hnames : names = []
  · have hover := Bytes.overwrite_length_self (listHeader messageSeq) (f ++ [0])
    rw [length_listHeader] at hover
    subst hnames
    rw [Bytes.joinLines_nil, List.length_nil, fillMessageWithFilename_zero _ hf]
    simp [listMessage, hover]
  · have hoff : simpleMessageNoDataSize + (Bytes.joinLines names).length =
        (listMessage messageSeq names).length := by
      rw [listMessage, List.length_append, length_listHeader]
    have hnl := Bytes.overwrite_append (listMessage messageSeq names) [0] [Bytes.newline] le_rfl
    have hname := Bytes.overwrite_length_self (listMessage messageSeq names ++ [Bytes.newline])
      (f ++ [0])
    rw [List.length_append, List.length_singleton] at hname
    have hpos : (Bytes.joinLines names).length > 0 :=
      List.length_pos_iff.mpr (Bytes.joinLines_ne_nil hnames hn)
    rw [fillMessageWithFilename_pos _ hpos hf, hoff, if_neg hnames, hnl, hname]
    simp [listMessage, Bytes.joinLines_concat hnames]
    omega

theorem Packs.fill (h : Packs messageSeq p q) (hf : Listable f) :
    fillMessageWithFilename p.message p.currDataLen f =
      (listMessage messageSeq (q.2 ++ [f]) ++ [0], (Bytes.joinLines (q.2 ++ [f])).length) := by
  rw [h.message, h.length]
  exact fillMessageWithFilename_listMessage (fun g hg => (h.listable g hg).ne_nil) hf.zero_not_mem

/-- Nothing but the header is left of a message whose data is zeroed. -/
theorem take_listMessage (rest : Bytes) :
    (listMessage messageSeq names ++ rest).take simpleMessageNoDataSize =
      listMessage messageSeq [] := by
  rw [← length_listHeader messageSeq, listMessage, List.append_assoc, List.take_left, listMessage,
    Bytes.joinLines_nil, List.append_nil]

theorem Packs.addFilename (h : Packs messageSeq p q) (hf : Listable f) (hp : pattern <:+: f) :
    Packs messageSeq (addFilename pattern p f) (packName q f) := by
  unfold Netstore.addFilename packName
  rw [if_pos hp, h.length]
  split_ifs with hfit
  · have hle : (Bytes.joinLines (q.2 ++ [f])).length ≤ maxSimpleDataSize := by
      rw [Bytes.length_joinLines_concat]
      split_ifs <;> omega
    rw [← h.length, h.fill hf]
    refine ⟨by simp, rfl, h.sent, hle, fun g hg => ?_, h.fits⟩
    rcases List.mem_append.mp hg with hg | hg
    · exact h.listable g hg
    · exact List.mem_singleton.mp hg ▸ hf
  · have hq : q.2 ≠ [] := by
      intro hq
      have := hf.length_le
      simp only [hq, Bytes.joinLines_nil, List.length_nil, maxSimpleDataSize] at hfit
      omega
    refine ⟨?_, rfl, ?_, Nat.zero_le _, by simp, fun l hl => ?_⟩
    · rw [h.message, take_listMessage, if_pos rfl, List.append_nil]
    · rw [← h.length, h.trySendMessage, h.sent, List.map_append, List.map_singleton]
    · rcases List.mem_append.mp hl with hl | hl
      · exact h.fits l hl
      · exact List.mem_singleton.mp hl ▸ ⟨hq, h.listable, h.length ▸ h.le⟩

theorem Packs.foldl (h : Packs messageSeq p q) (pattern : Bytes) (hn : ∀ f ∈ names, Listable f) :
    Packs messageSeq (names.foldl (Netstore.addFilename pattern) p)
      ((names.filter fun f => pattern <:+: f).foldl packName q) := by
  induction names generalizing p q with
  | nil => exact h
  | cons f names ih =>
    have hn' : ∀ g ∈ names, Listable g := fun g hg => hn g (by simp [hg])
    by_cases hp : pattern <:+: f
    · rw [List.foldl_cons, List.filter_cons_of_pos (by simpa using hp), List.foldl_cons]
      exact ih (h.addFilename (hn f (by simp)) hp) hn'
    · have hskip : Netstore.addFilename pattern p f = p := if_neg hp
      rw [List.foldl_cons, hskip, List.filter_cons_of_neg (by simpa using hp)]
      exact ih h hn'

/-- The handler sends a message for each list of names that is packed. -/
theorem handleFilesListRequest_eq {files : SortedSet Bytes} (hn : ∀ f ∈ files, Listable f) :
    handleFilesListRequest files messageSeq pattern =
        (pack (files.toList.filter fun f => pattern <:+: f)).map (listMessage messageSeq) ∧
      ∀ l ∈ pack (files.toList.filter fun f => pattern <:+: f), Fits l := by
  have h0 : Packs messageSeq ⟨simpleMessage messageSeq filesListResponse [], 0, []⟩ ([], []) :=
    ⟨by simp [simpleMessage, strncpy, listMessage, listHeader], rfl, rfl, Nat.zero_le _, by simp,
      by simp⟩
  have h := h0.foldl pattern hn
  unfold handleFilesListRequest pack
  dsimp only
  by_cases hq : ((files.toList.filter fun f => pattern <:+: f).foldl packName ([], [])).2 = []
  · rw [if_neg (fun hpos => h.currDataLen_pos.mp hpos hq), if_pos hq]
    exact ⟨h.sent, h.fits⟩
  · rw [if_pos (h.currDataLen_pos.mpr hq), if_neg hq, h.trySendMessage, h.sent]
    refine ⟨by simp, fun l hl => ?_⟩
    rcases List.mem_append.mp hl with hl | hl
    · exact h.fits l hl
    · exact List.mem_singleton.mp hl ▸ ⟨hq, h.listable, h.length ▸ h.le⟩

end Loop

/-! ## Names of any bytes -/

/-- A name that a message can carry : a C string that is not empty and leaves room in the
data. -/
structure Sendable (f : Bytes) : Prop where
  ne_nil : f ≠ []
  zero_not_mem : (0 : UInt8) ∉ f
  length_lt : f.length < maxSimpleDataSize

theorem sendable_iff {f : Bytes} :
    Sendable f ↔ f ≠ [] ∧ (0 : UInt8) ∉ f ∧ f.length < maxSimpleDataSize :=
  ⟨fun ⟨h₁, h₂, h₃⟩ => ⟨h₁, h₂, h₃⟩, fun ⟨h₁, h₂, h₃⟩ => ⟨h₁, h₂, h₃⟩⟩

instance (f : Bytes) : Decidable (Sendable f) :=
  decidable_of_iff' _ sendable_iff

/-- The datagram lists names that are in the index and contain the pattern. -/
structure ListsNames (files : SortedSet Bytes) (messageSeq : UInt64) (pattern payload : Bytes)
    (names : List Bytes) : Prop where
  payload_eq : payload = listMessage messageSeq names
  ne_nil : names ≠ []
  found : ∀ f ∈ names, f ∈ files ∧ pattern <:+: f
  le : (Bytes.joinLines names).length ≤ maxSimpleDataSize

section AnyNames

variable {files : SortedSet Bytes} {messageSeq : UInt64} {pattern f : Bytes} {p : Packing}
  {names : List Bytes}

/-- The variables of the loop hold the names of the next message. -/
structure Gathers (files : SortedSet Bytes) (messageSeq : UInt64) (pattern : Bytes) (p : Packing)
    (names : List Bytes) : Prop where
  message : p.message = listMessage messageSeq names ++ if names = [] then [] else [0]
  length : p.currDataLen = (Bytes.joinLines names).length
  le : p.currDataLen ≤ maxSimpleDataSize
  found : ∀ f ∈ names, f ∈ files ∧ pattern <:+: f
  sent : ∀ payload ∈ p.sent, ∃ names, ListsNames files messageSeq pattern payload names

theorem Gathers.trySendMessage (h : Gathers files messageSeq pattern p names) (hne : names ≠ []) :
    ∀ payload ∈ p.sent ++ trySendMessage p.message p.currDataLen,
      ∃ names, ListsNames files messageSeq pattern payload names := by
  intro payload hmem
  have hle := h.le
  rw [h.length] at hle
  rw [h.message, h.length, trySendMessage_listMessage _ hle] at hmem
  rcases List.mem_append.mp hmem with hmem | hmem
  · exact h.sent payload hmem
  · exact ⟨names, List.mem_singleton.mp hmem, hne, h.found, hle⟩

theorem Gathers.addFilename (h : Gathers files messageSeq pattern p names)
    (hn : ∀ f ∈ files, Sendable f) (hf : f ∈ files) :
    ∃ names, Gathers files messageSeq pattern (addFilename pattern p f) names := by
  unfold Netstore.addFilename
  split_ifs with hp hfit
  · refine ⟨names ++ [f], ?_⟩
    have hlen := Bytes.length_joinLines_concat names f
    have hle : (Bytes.joinLines (names ++ [f])).length ≤ maxSimpleDataSize := by
      rw [h.length] at hfit
      rw [hlen]
      split_ifs <;> omega
    rw [h.message, h.length, fillMessageWithFilename_listMessage
      (fun g hg => (hn g (h.found g hg).1).ne_nil) (hn f hf).zero_not_mem]
    refine ⟨by simp, rfl, hle, fun g hg => ?_, h.sent⟩
    rcases List.mem_append.mp hg with hg | hg
    · exact h.found g hg
    · exact List.mem_singleton.mp hg ▸ ⟨hf, hp⟩
  · have hne : names ≠ [] := by
      intro hnames
      have := (hn f hf).length_lt
      rw [h.length, hnames, Bytes.joinLines_nil, List.length_nil] at hfit
      omega
    refine ⟨[], ?_, rfl, Nat.zero_le _, by simp, h.trySendMessage hne⟩
    rw [h.message, take_listMessage, if_pos rfl, List.append_nil]
  · exact ⟨names, h⟩

theorem Gathers.foldl (h : Gathers files messageSeq pattern p names)
    (hn : ∀ f ∈ files, Sendable f) {fs : List Bytes} (hfs : ∀ f ∈ fs, f ∈ files) :
    ∃ names, Gathers files messageSeq pattern (fs.foldl (Netstore.addFilename pattern) p) names := by
  induction fs generalizing p names with
  | nil => exact ⟨names, h⟩
  | cons f fs ih =>
    obtain ⟨names', h'⟩ := h.addFilename hn (hfs f (by simp))
    exact ih h' fun g hg => hfs g (by simp [hg])

/-- Every datagram that the handler sends lists names that it found. -/
theorem listsNames_of_mem (hn : ∀ f ∈ files, Sendable f) {payload : Bytes}
    (hmem : payload ∈ handleFilesListRequest files messageSeq pattern) :
    ∃ names, ListsNames files messageSeq pattern payload names := by
  have h0 : Gathers files messageSeq pattern ⟨simpleMessage messageSeq filesListResponse [], 0, []⟩
      [] :=
    ⟨by simp [simpleMessage, strncpy, listMessage, listHeader], rfl, Nat.zero_le _, by simp,
      by simp⟩
  obtain ⟨names, h⟩ := h0.foldl hn fun f hf => SortedSet.mem_toList.mp hf
  unfold handleFilesListRequest at hmem
  dsimp only at hmem
  split_ifs at hmem with hpos
  · refine h.trySendMessage (fun hnames => ?_) payload hmem
    rw [h.length, hnames] at hpos
    exact lt_irrefl 0 hpos
  · exact h.sent payload hmem

end AnyNames

/-! ## The client takes apart -/

/-- A client that waits for the files list splits the string it is filled with. -/
theorem receiveSearchRespond_append {seq : UInt64} {s : Bytes} (seq' : UInt64)
    (h0 : (0 : UInt8) ∉ s) (hs : s.length ≤ maxSimpleDataSize) :
    receiveSearchRespond seq' (fillCommand filesListResponse ++ (Bytes.be64 seq ++ s)) =
      if seq' = seq then s.splitOn Bytes.newline else [] := by
  have hc : filesListResponse.length ≤ maxCommandLength := by decide
  have hval := @simpleMessageValidation_append seq seq' _ _ s [] hc (by decide)
    (by decide : (0 : UInt8) ∉ filesListResponse) h0
  rw [receiveSearchRespond, recvfrom_simple_append hc hs]
  dsimp only
  split
  case h_1 hok =>
    rw [if_pos (hval.mp hok).1, simpleData_append hc h0]
  case h_2 e herror =>
    refine (if_neg fun hseq => ?_).symm
    rw [hval.mpr ⟨hseq, rfl, Or.inl rfl⟩] at herror
    cases herror

/-- A client that waits for the files list takes nothing from another message. -/
theorem receiveSearchRespond_of_sendto {c rest payload : Bytes} {seq : UInt64} {n : UInt16}
    (h : sendto (fillCommand c ++ (Bytes.be64 seq ++ rest)) n = some payload)
    (hc : c.length ≤ maxCommandLength) (h0 : (0 : UInt8) ∉ c) (hne : c ≠ filesListResponse)
    (seq' : UInt64) : receiveSearchRespond seq' payload = [] := by
  have hval : simpleMessageValidation payload seq' filesListResponse payload.length [] ≠ .ok () := by
    rw [simpleMessageValidation, responseValidation]
    by_cases hmin : payload.length < simpleMessageNoDataSize
    · rw [if_pos hmin]
      simp
    · obtain ⟨rest', rfl⟩ := exists_append_of_sendto hc h (Nat.not_lt.mp hmin)
      have hcommand : isExpectedCommand (fillCommand c) filesListResponse = false := by
        rw [← Bool.not_eq_true]
        exact fun he => hne ((isExpectedCommand_fillCommand h0 (by decide)).mp he).symm
      rw [if_neg hmin, command_append hc, hcommand]
      simp
  rw [receiveSearchRespond, recvfrom_of_sendto h]
  dsimp only
  split
  case h_1 hok => exact (hval hok).elim
  case h_2 => rfl

theorem receiveSearchRespond_listMessage_eq {messageSeq : UInt64} {names : List Bytes}
    (h0 : ∀ f ∈ names, (0 : UInt8) ∉ f)
    (hle : (Bytes.joinLines names).length ≤ maxSimpleDataSize) :
    receiveSearchRespond messageSeq (listMessage messageSeq names) =
      (Bytes.joinLines names).splitOn Bytes.newline := by
  rw [listMessage_eq, receiveSearchRespond_append _ (Bytes.zero_not_mem_joinLines h0) hle,
    if_pos rfl]

/-- The client gets the lines of the names of its own list. -/
theorem ListsNames.receiveSearchRespond_eq {files : SortedSet Bytes} {seq : UInt64}
    {pattern payload : Bytes} {names : List Bytes} (h : ListsNames files seq pattern payload names)
    (hn : ∀ f ∈ files, Sendable f) (seq' : UInt64) : receiveSearchRespond seq' payload =
      if seq' = seq then names.flatMap (·.splitOn Bytes.newline) else [] := by
  have h0 : (0 : UInt8) ∉ Bytes.joinLines names :=
    Bytes.zero_not_mem_joinLines fun f hf => (hn f (h.found f hf).1).zero_not_mem
  rw [h.payload_eq, listMessage_eq, receiveSearchRespond_append seq' h0 h.le,
    Bytes.splitOn_joinLines_eq_flatMap h.ne_nil]

/-- The client gets the names of a message. -/
theorem receiveSearchRespond_listMessage {messageSeq : UInt64} {names : List Bytes}
    (h : Fits names) : receiveSearchRespond messageSeq (listMessage messageSeq names) = names := by
  rw [receiveSearchRespond_listMessage_eq (fun f hf => (h.listable f hf).zero_not_mem) h.le]
  exact Bytes.splitOn_joinLines h.ne_nil fun s hs => (h.listable s hs).newline_not_mem

/-! ## Completeness -/

section Complete

variable {files : SortedSet Bytes} {messageSeq : UInt64} {pattern : Bytes}

/-- The indexed names that contain the pattern. -/
def matching (files : SortedSet Bytes) (pattern : Bytes) : List Bytes :=
  files.toList.filter fun f => pattern <:+: f

theorem mem_matching {f : Bytes} : f ∈ matching files pattern ↔ f ∈ files ∧ pattern <:+: f := by
  simp [matching]

theorem nodup_matching : (matching files pattern).Nodup := files.nodup.filter _

/-- The client gets the names that are packed. -/
theorem flatMap_receiveSearchRespond (hn : ∀ f ∈ files, Listable f) :
    (handleFilesListRequest files messageSeq pattern).flatMap (receiveSearchRespond messageSeq) =
      (pack (matching files pattern)).flatten := by
  obtain ⟨heq, hfits⟩ := handleFilesListRequest_eq hn
  rw [heq, List.flatMap_map, List.flatMap_def]
  congr 1
  exact (List.map_congr_left fun l hl => receiveSearchRespond_listMessage (hfits l hl)).trans
    (List.map_id _)

/-- Names that fit in one message are all received. -/
theorem complete_of_le (hn : ∀ f ∈ files, Listable f)
    (hle : (Bytes.joinLines (matching files pattern)).length ≤ maxSimpleDataSize) :
    FilesListComplete files messageSeq pattern := by
  have hpack : (pack (matching files pattern)).flatten = matching files pattern := by
    rw [flatten_pack, foldl_packName_of_le (fun f hf => (hn f (mem_matching.mp hf).1).length_le)
      hle]
    rfl
  rw [FilesListComplete, flatMap_receiveSearchRespond hn, hpack]
  refine ⟨nodup_matching, fun f => mem_matching, fun hnone => ?_⟩
  have hempty : matching files pattern = [] := List.eq_nil_iff_forall_not_mem.mpr fun f hf =>
    hnone f (mem_matching.mp hf).1 (mem_matching.mp hf).2
  rw [(handleFilesListRequest_eq hn).1, ← matching, hempty]
  rfl

/-- Of names that do not, one is never received. -/
theorem not_complete_of_lt (hn : ∀ f ∈ files, Listable f)
    (hlt : maxSimpleDataSize < (Bytes.joinLines (matching files pattern)).length) :
    ¬FilesListComplete files messageSeq pattern := by
  rw [FilesListComplete, flatMap_receiveSearchRespond hn]
  rintro ⟨hnd, hiff, -⟩
  have hperm : (pack (matching files pattern)).flatten.Perm (matching files pattern) :=
    (List.perm_ext_iff_of_nodup hnd nodup_matching).mpr fun f => (hiff f).trans mem_matching.symm
  have h := length_foldl_packName_lt [] [] (matching files pattern) (Nat.zero_le _) hlt
  rw [← flatten_pack, hperm.length_eq] at h
  exact lt_irrefl _ h

/-- The files list is complete exactly if the names that contain the pattern fit in one
message. -/
theorem filesList_complete_iff (hn : ∀ f ∈ files, Listable f) :
    FilesListComplete files messageSeq pattern ↔
      (Bytes.joinLines (matching files pattern)).length ≤ maxSimpleDataSize :=
  ⟨fun h => not_lt.mp fun hlt => not_complete_of_lt hn hlt h, complete_of_le hn⟩

end Complete

theorem twoNames_complete : FilesListComplete (SortedSet.ofList [[97], [98]]) 1 [] :=
  (filesList_complete_iff (by decide)).mpr (by decide)

/-- The 256 names of 255 bytes that are some `a`s, then `b`s. -/
def manyNames : SortedSet Bytes :=
  SortedSet.ofList ((List.range 256).map fun k =>
    List.replicate k 97 ++ List.replicate (255 - k) 98)

theorem mem_manyNames {f : Bytes} : f ∈ manyNames ↔
    ∃ k < 256, List.replicate k 97 ++ List.replicate (255 - k) 98 = f := by
  simp [manyNames]

theorem length_of_mem_manyNames {f : Bytes} (hf : f ∈ manyNames) : f.length = 255 := by
  obtain ⟨k, hk, rfl⟩ := mem_manyNames.mp hf
  simp only [List.length_append, List.length_replicate]
  omega

theorem length_manyNames : manyNames.toList.length = 256 := by
  have hinj : Function.Injective fun k : ℕ =>
      List.replicate k (97 : UInt8) ++ List.replicate (255 - k) 98 := by
    intro k l h
    simpa [List.count_append, List.count_replicate] using congrArg (List.count 97) h
  rw [manyNames, SortedSet.length_ofList (List.nodup_range.map hinj)]
  simp

theorem listable_of_mem_manyNames {f : Bytes} (hf : f ∈ manyNames) : Listable f := by
  have hlen := length_of_mem_manyNames hf
  obtain ⟨k, hk, rfl⟩ := mem_manyNames.mp hf
  refine ⟨fun h => ?_, ?_, ?_, hlen.le⟩
  · rw [h] at hlen
    cases hlen
  · simp [Bytes.newline]
  · simp

/-- Of these names, one is never received. -/
theorem manyNames_not_complete :
    (∀ f ∈ manyNames, Listable f) ∧ ¬FilesListComplete manyNames 1 [] := by
  have hall : matching manyNames [] = manyNames.toList := by simp [matching]
  have hne : manyNames.toList ≠ [] := fun h => by
    have := length_manyNames
    rw [h] at this
    cases this
  have hmap : (manyNames.toList.map fun f => f.length + 1) = List.replicate 256 256 := by
    refine List.eq_replicate_iff.mpr ⟨by rw [List.length_map, length_manyNames], fun n hn => ?_⟩
    obtain ⟨f, hf, rfl⟩ := List.mem_map.mp hn
    rw [length_of_mem_manyNames (SortedSet.mem_toList.mp hf)]
  have hlen := Bytes.length_joinLines hne
  rw [hmap, List.sum_replicate_nat] at hlen
  refine ⟨fun f => listable_of_mem_manyNames, not_complete_of_lt
    (fun f => listable_of_mem_manyNames) ?_⟩
  rw [hall]
  have hmax : maxSimpleDataSize = 65489 := rfl
  omega

end Netstore
