import Netstore.Arrays
import Netstore.FilesList

/-!
# The buffer of the files list

The loop of `FilesList` on the data array itself, 65490 bytes, with each store in it
(`ListBuffer.handleFilesListRequest`). The test for room does not count the newline that is
stored before a name, and the zero after it takes one byte more : a strict comparison and the
last byte of the array are what is left for them.

What the array holds is what `packName` packs, then zeros (`ofPack`), so no store is out of
the array and each send has the length of its string (`packing_in_bounds`). The datagrams
are those of `FilesList` (`handleFilesListRequest_eq_flatMap`).
-/

namespace Netstore

/-- A name that an upload request can carry. -/
structure Carried (f : Bytes) : Prop where
  ne_nil : f ≠ []
  zero_not_mem : (0 : UInt8) ∉ f
  length_le : f.length ≤ maxComplexDataSize

theorem carried_iff {f : Bytes} :
    Carried f ↔ f ≠ [] ∧ (0 : UInt8) ∉ f ∧ f.length ≤ maxComplexDataSize :=
  ⟨fun ⟨h₁, h₂, h₃⟩ => ⟨h₁, h₂, h₃⟩, fun ⟨h₁, h₂, h₃⟩ => ⟨h₁, h₂, h₃⟩⟩

instance (f : Bytes) : Decidable (Carried f) :=
  decidable_of_iff' _ carried_iff

/-! ## The handler -/

/-- The arguments of a call of `try_send_message`. -/
structure TrySend where
  data : Bytes
  currDataLen : ℕ
  deriving DecidableEq

/-- The variables of the handler's loop, and the calls it has made. -/
structure ListBuffer where
  data : Bytes
  currDataLen : ℕ
  calls : List TrySend

namespace ListBuffer

/-- `memset(&message.data, '\0', sizeof(message.data))` -/
def zeroed : Bytes :=
  List.replicate (maxSimpleDataSize + 1) 0

/-- The stores in the data, and the new index. -/
def fillMessageWithFilename (startIndex : ℕ) (filename : Bytes) : List (UInt8 × ℕ) × ℕ :=
  let (separator, startIndex) :=
    if startIndex > 0 then ([(Bytes.newline, startIndex)], startIndex + 1)
    else ([], startIndex)
  (separator ++ CArray.strcpy filename startIndex, startIndex + filename.length)

/-- One turn of the loop. -/
def addFilename (pattern : Bytes) (b : ListBuffer) (filename : Bytes) : Option ListBuffer :=
  if pattern <:+: filename then
    if maxSimpleDataSize > b.currDataLen + filename.length then
      let (stores, currDataLen) := fillMessageWithFilename b.currDataLen filename
      (CArray.storeAll b.data stores).map fun data => { b with data, currDataLen }
    else
      some ⟨zeroed, 0, b.calls ++ [⟨b.data, b.currDataLen⟩]⟩
  else some b

/-- The buffer after some names. -/
def addFilenames (pattern : Bytes) (names : List Bytes) : Option ListBuffer :=
  names.foldlM (addFilename pattern) ⟨zeroed, 0, []⟩

/-- The calls of the loop, and the one after it. -/
def allCalls (b : ListBuffer) : List TrySend :=
  if b.currDataLen > 0 then b.calls ++ [⟨b.data, b.currDataLen⟩] else b.calls

/-- The calls that the handler makes, if it stores nothing out of the array. -/
def handleFilesListRequest (pattern : Bytes) (names : List Bytes) : Option (List TrySend) :=
  (addFilenames pattern names).map allCalls

end ListBuffer

/-! ## What is packed -/

/-- A list of names that is sent. -/
structure Fills (names : List Bytes) : Prop where
  ne_nil : names ≠ []
  carried : ∀ f ∈ names, Carried f
  le : (Bytes.joinLines names).length ≤ maxSimpleDataSize

/-- The lists that are full are sent, and the names of the next one fit. -/
structure Packed (q : List (List Bytes) × List Bytes) : Prop where
  fills : ∀ l ∈ q.1, Fills l
  carried : ∀ f ∈ q.2, Carried f
  le : (Bytes.joinLines q.2).length ≤ maxSimpleDataSize

theorem packed_nil : Packed ([], []) :=
  ⟨by simp, by simp, Nat.zero_le _⟩

section Pack

variable {q : List (List Bytes) × List Bytes} {f : Bytes} {names : List Bytes}

/-- A name for which there is room, with the newline before it. -/
theorem length_joinLines_concat_le
    (hfit : maxSimpleDataSize > (Bytes.joinLines names).length + f.length) :
    (Bytes.joinLines (names ++ [f])).length ≤ maxSimpleDataSize := by
  rw [Bytes.length_joinLines_concat]
  split_ifs <;> omega

/-- There is something to send when a name does not fit. -/
theorem Packed.fills_of_not_fit (h : Packed q) (hf : Carried f)
    (hfit : ¬maxSimpleDataSize > (Bytes.joinLines q.2).length + f.length) : Fills q.2 := by
  refine ⟨fun hq => ?_, h.carried, h.le⟩
  have hlen := hf.length_le
  rw [hq, Bytes.joinLines_nil, List.length_nil] at hfit
  simp only [maxComplexDataSize, maxSimpleDataSize] at hlen hfit
  omega

theorem Packed.packName (h : Packed q) (hf : Carried f) : Packed (packName q f) := by
  unfold Netstore.packName
  split_ifs with hfit
  · refine ⟨h.fills, fun g hg => ?_, length_joinLines_concat_le hfit⟩
    rcases List.mem_append.mp hg with hg | hg
    · exact h.carried g hg
    · exact List.mem_singleton.mp hg ▸ hf
  · refine ⟨fun l hl => ?_, by simp, Nat.zero_le _⟩
    rcases List.mem_append.mp hl with hl | hl
    · exact h.fills l hl
    · exact List.mem_singleton.mp hl ▸ h.fills_of_not_fit hf hfit

theorem Packed.foldl (h : Packed q) (hn : ∀ f ∈ names, Carried f) :
    Packed (names.foldl Netstore.packName q) := by
  induction names generalizing q with
  | nil => exact h
  | cons f names ih =>
    exact ih (h.packName (hn f (by simp))) fun g hg => hn g (by simp [hg])

theorem Packed.fills_pack (hn : ∀ f ∈ names, Carried f) : ∀ l ∈ pack names, Fills l := by
  have h := packed_nil.foldl hn
  unfold pack
  dsimp only
  split_ifs with hq
  · exact h.fills
  · intro l hl
    rcases List.mem_append.mp hl with hl | hl
    · exact h.fills l hl
    · exact List.mem_singleton.mp hl ▸ ⟨hq, h.carried, h.le⟩

end Pack

/-! ## The array -/

/-- The names with their newlines, then zeros. -/
def listData (names : List Bytes) : Bytes :=
  Bytes.joinLines names ++
    List.replicate (maxSimpleDataSize + 1 - (Bytes.joinLines names).length) 0

/-- The call that sends the names. -/
def trySendOf (names : List Bytes) : TrySend :=
  ⟨listData names, (Bytes.joinLines names).length⟩

namespace ListBuffer

section Fill

variable {q : List (List Bytes) × List Bytes} {f pattern : Bytes} {names : List Bytes}

/-- The stores are one block : the newline unless the name is the first, the name and a zero. -/
theorem fillMessageWithFilename_eq (hn : ∀ g ∈ names, g ≠ []) (hf : (0 : UInt8) ∉ f) :
    fillMessageWithFilename (Bytes.joinLines names).length f =
      (((if names = [] then [] else [Bytes.newline]) ++ f ++ [0]).zipIdx
        (Bytes.joinLines names).length, (Bytes.joinLines (names ++ [f])).length) := by
  rw [Bytes.length_joinLines_concat]
  by_cases hnames : names = []
  · simp [fillMessageWithFilename, CArray.strcpy_eq hf, hnames]
  · have hpos : (Bytes.joinLines names).length > 0 :=
      List.length_pos_iff.mpr (Bytes.joinLines_ne_nil hnames hn)
    simp [fillMessageWithFilename, CArray.strcpy_eq hf, hnames, hpos, List.zipIdx_cons]

/-- Its length is that of the line and a zero. -/
theorem length_block : (((if names = [] then [] else [Bytes.newline]) ++ f ++ [0]).length) +
    (Bytes.joinLines names).length = (Bytes.joinLines (names ++ [f])).length + 1 := by
  rw [Bytes.length_joinLines_concat]
  split_ifs
  · simp
    omega
  · simp
    omega

theorem length_listData (h : (Bytes.joinLines names).length ≤ maxSimpleDataSize) :
    (listData names).length = maxSimpleDataSize + 1 := by
  rw [listData, List.length_append, List.length_replicate]
  omega

theorem storeAll_listData (hn : ∀ g ∈ names, g ≠ []) (hf : (0 : UInt8) ∉ f)
    (hfit : maxSimpleDataSize > (Bytes.joinLines names).length + f.length) :
    CArray.storeAll (listData names)
        (fillMessageWithFilename (Bytes.joinLines names).length f).1 =
      some (listData (names ++ [f])) := by
  have hlen := @length_block f names
  have hle := length_joinLines_concat_le hfit
  have hdata := @length_listData names (by omega)
  have hjoin : Bytes.joinLines (names ++ [f]) =
      Bytes.joinLines names ++ ((if names = [] then [] else [Bytes.newline]) ++ f) := by
    by_cases hnames : names = []
    · simp [hnames]
    · simp [Bytes.joinLines_concat hnames, hnames]
  have hzeros : maxSimpleDataSize + 1 - (Bytes.joinLines (names ++ [f])).length =
      maxSimpleDataSize + 1 - (Bytes.joinLines names).length -
        ((if names = [] then [] else [Bytes.newline]) ++ f ++ [0]).length + 1 := by
    omega
  rw [fillMessageWithFilename_eq hn hf, CArray.storeAll_zipIdx _ (by omega), listData,
    List.take_left, ← List.drop_drop, List.drop_left, List.drop_replicate, listData, hzeros,
    List.replicate_succ, hjoin]
  simp

/-- Every store of a name that fits is in the array, as all can be made. -/
theorem le_of_mem_stores (hn : ∀ g ∈ names, g ≠ []) (hf : (0 : UInt8) ∉ f)
    (hfit : maxSimpleDataSize > (Bytes.joinLines names).length + f.length) :
    ∀ w ∈ (fillMessageWithFilename (Bytes.joinLines names).length f).1,
      w.2 ≤ maxSimpleDataSize := by
  intro w hw
  have hsome : (CArray.storeAll (listData names)
      (fillMessageWithFilename (Bytes.joinLines names).length f).1).isSome := by
    rw [storeAll_listData hn hf hfit]
    rfl
  have hlt := CArray.isSome_storeAll.mp hsome w hw
  rw [length_listData (by omega)] at hlt
  exact Nat.le_of_lt_succ hlt

/-- The buffer of what is packed. -/
def ofPack (q : List (List Bytes) × List Bytes) : ListBuffer :=
  ⟨listData q.2, (Bytes.joinLines q.2).length, q.1.map trySendOf⟩

theorem ofPack_nil : ofPack ([], []) = ⟨zeroed, 0, []⟩ :=
  rfl

/-- A name is packed. -/
theorem addFilename_ofPack (h : Packed q) (hf : Carried f) (hp : pattern <:+: f) :
    addFilename pattern (ofPack q) f = some (ofPack (packName q f)) := by
  have hn : ∀ g ∈ q.2, g ≠ [] := fun g hg => (h.carried g hg).ne_nil
  rw [addFilename, if_pos hp, ofPack, packName]
  dsimp only
  split_ifs with hfit
  · rw [storeAll_listData hn hf.zero_not_mem hfit, fillMessageWithFilename_eq hn hf.zero_not_mem]
    rfl
  · rw [ofPack, List.map_append]
    rfl

theorem addFilename_of_not (b : ListBuffer) (hp : ¬pattern <:+: f) :
    addFilename pattern b f = some b :=
  if_neg hp

theorem foldlM_addFilename (h : Packed q) (hn : ∀ f ∈ names, pattern <:+: f → Carried f) :
    names.foldlM (addFilename pattern) (ofPack q) =
      some (ofPack ((names.filter fun f => pattern <:+: f).foldl packName q)) := by
  induction names generalizing q with
  | nil => rfl
  | cons f names ih =>
    have hn' : ∀ g ∈ names, pattern <:+: g → Carried g := fun g hg => hn g (by simp [hg])
    rw [List.foldlM_cons]
    by_cases hp : pattern <:+: f
    · have hf := hn f (by simp) hp
      rw [addFilename_ofPack h hf hp, List.filter_cons_of_pos (by simpa using hp),
        List.foldl_cons]
      exact ih (h.packName hf) hn'
    · rw [addFilename_of_not _ hp, List.filter_cons_of_neg (by simpa using hp)]
      exact ih h hn'

theorem carried_of_mem_filter (hn : ∀ f ∈ names, pattern <:+: f → Carried f) :
    ∀ f ∈ names.filter fun f => pattern <:+: f, Carried f := by
  intro f hf
  obtain ⟨hf, hp⟩ := List.mem_filter.mp hf
  exact hn f hf (by simpa using hp)

/-- What the names before a turn leave. -/
theorem addFilenames_eq (hn : ∀ f ∈ names, pattern <:+: f → Carried f) :
    ∃ q, Packed q ∧ addFilenames pattern names = some (ofPack q) :=
  ⟨_, packed_nil.foldl (carried_of_mem_filter hn), foldlM_addFilename packed_nil hn⟩

theorem allCalls_ofPack (h : Packed q) :
    (ofPack q).allCalls = (if q.2 = [] then q.1 else q.1 ++ [q.2]).map trySendOf := by
  by_cases hq : q.2 = []
  · have hlen : ¬(ofPack q).currDataLen > 0 := by simp [ofPack, hq]
    rw [allCalls, if_neg hlen, if_pos hq, ofPack]
  · have hlen : (ofPack q).currDataLen > 0 := List.length_pos_iff.mpr
      (Bytes.joinLines_ne_nil hq fun g hg => (h.carried g hg).ne_nil)
    rw [allCalls, if_pos hlen, if_neg hq, List.map_append]
    rfl

/-- The handler sends the lists that are packed. -/
theorem handleFilesListRequest_eq (hn : ∀ f ∈ names, pattern <:+: f → Carried f) :
    handleFilesListRequest pattern names =
      some ((pack (names.filter fun f => pattern <:+: f)).map trySendOf) := by
  have hpacked := packed_nil.foldl (carried_of_mem_filter hn)
  rw [handleFilesListRequest, addFilenames, ← ofPack_nil, foldlM_addFilename packed_nil hn,
    Option.map_some, allCalls_ofPack hpacked]
  rfl

end Fill

end ListBuffer

/-! ## In bounds -/

/-- The length of a call fits in sixteen bits, as that of the message does, and is that of the
string in the data. -/
structure TrySend.Safe (c : TrySend) : Prop where
  pos : 1 ≤ c.currDataLen
  le : c.currDataLen ≤ maxSimpleDataSize
  toNat_ofNat : (UInt16.ofNat c.currDataLen).toNat = c.currDataLen
  string : (CArray.readString c.data).map List.length = some c.currDataLen
  messageLength_eq : (UInt16.ofNat simpleMessageNoDataSize + UInt16.ofNat c.currDataLen).toNat =
    simpleMessageNoDataSize + c.currDataLen
  messageLength_le : (UInt16.ofNat simpleMessageNoDataSize + UInt16.ofNat c.currDataLen).toNat ≤
    maxDatagramSize

/-- What a turn with the name does to the buffer : it stores in the array only, and a
call leaves nothing in it. -/
structure TurnSafe (pattern f : Bytes) (b b' : ListBuffer) : Prop where
  size : b'.data.length = maxSimpleDataSize + 1
  stores : pattern <:+: f → maxSimpleDataSize > b.currDataLen + f.length →
    ∀ w ∈ (ListBuffer.fillMessageWithFilename b.currDataLen f).1, w.2 ≤ maxSimpleDataSize
  zeroed : b'.calls ≠ b.calls → b'.data = ListBuffer.zeroed ∧ b'.currDataLen = 0

section Safe

variable {names : List Bytes} {pattern f : Bytes} {q : List (List Bytes) × List Bytes}

/-- The string of the data. -/
theorem readString_listData (h0 : ∀ f ∈ names, (0 : UInt8) ∉ f)
    (hle : (Bytes.joinLines names).length ≤ maxSimpleDataSize) :
    CArray.readString (listData names) = some (Bytes.joinLines names) := by
  have hzeros : maxSimpleDataSize + 1 - (Bytes.joinLines names).length ≠ 0 := by omega
  have hstring := Bytes.cString_append [] (Bytes.joinLines names)
    (List.replicate (maxSimpleDataSize + 1 - (Bytes.joinLines names).length) 0)
    (Bytes.zero_not_mem_joinLines h0) (Or.inr (by rw [List.head?_replicate, if_neg hzeros]))
  rw [CArray.readString_eq, listData, if_pos]
  · exact congrArg some hstring
  · exact List.mem_append_right _ (List.mem_replicate.mpr ⟨hzeros, rfl⟩)

theorem Fills.safe (h : Fills names) : (trySendOf names).Safe := by
  have hpos := List.length_pos_iff.mpr
    (Bytes.joinLines_ne_nil h.ne_nil fun f hf => (h.carried f hf).ne_nil)
  have hle := h.le
  have heq : (UInt16.ofNat simpleMessageNoDataSize +
      UInt16.ofNat (Bytes.joinLines names).length).toNat =
        simpleMessageNoDataSize + (Bytes.joinLines names).length := by
    rw [UInt16.toNat_add, UInt16.toNat_ofNat', UInt16.toNat_ofNat']
    simp only [simpleMessageNoDataSize, maxCommandLength, maxSimpleDataSize] at hle ⊢
    omega
  refine ⟨hpos, hle, ?_, ?_, heq, ?_⟩
  · exact UInt16.toNat_ofNat_of_lt' (hle.trans_lt (by decide))
  · rw [trySendOf, readString_listData (fun f hf => (h.carried f hf).zero_not_mem) hle]
    rfl
  · rw [trySendOf, heq]
    simp only [simpleMessageNoDataSize, maxCommandLength, maxSimpleDataSize,
      maxDatagramSize] at hle ⊢
    omega

/-- A turn from a buffer of what is packed. -/
theorem turnSafe_ofPack (h : Packed q) (hf : pattern <:+: f → Carried f) :
    ∃ b', ListBuffer.addFilename pattern (.ofPack q) f = some b' ∧
      TurnSafe pattern f (.ofPack q) b' := by
  have hn : ∀ g ∈ q.2, g ≠ [] := fun g hg => (h.carried g hg).ne_nil
  by_cases hp : pattern <:+: f
  · have hpacked := h.packName (hf hp)
    refine ⟨_, ListBuffer.addFilename_ofPack h (hf hp) hp, ?_, ?_, ?_⟩
    · exact ListBuffer.length_listData hpacked.le
    · exact fun _ hfit => ListBuffer.le_of_mem_stores hn (hf hp).zero_not_mem hfit
    · rw [packName]
      split_ifs with hfit
      · exact fun hcalls => (hcalls rfl).elim
      · exact fun _ => ⟨rfl, rfl⟩
  · exact ⟨_, ListBuffer.addFilename_of_not _ hp, ListBuffer.length_listData h.le,
      fun hp' => (hp hp').elim, fun hcalls => (hcalls rfl).elim⟩

/-! ### The datagrams -/

/-- The variables of the loop of `FilesList`, for what is packed. -/
def packingOf (messageSeq : UInt64) (q : List (List Bytes) × List Bytes) : Packing where
  message := listMessage messageSeq q.2 ++ if q.2 = [] then [] else [0]
  currDataLen := (Bytes.joinLines q.2).length
  sent := q.1.map (listMessage messageSeq)

theorem addFilename_packingOf (h : Packed q) (hf : Carried f) (hp : pattern <:+: f)
    (messageSeq : UInt64) :
    addFilename pattern (packingOf messageSeq q) f = packingOf messageSeq (packName q f) := by
  rw [addFilename, if_pos hp, packName, packingOf]
  dsimp only
  by_cases hfit : maxSimpleDataSize > (Bytes.joinLines q.2).length + f.length
  · rw [if_pos hfit, if_pos hfit, fillMessageWithFilename_listMessage
      (fun g hg => (h.carried g hg).ne_nil) hf.zero_not_mem, packingOf]
    simp
  · rw [if_neg hfit, if_neg hfit, take_listMessage, trySendMessage_listMessage _ h.le, packingOf]
    simp

theorem foldl_addFilename_packingOf (h : Packed q)
    (hn : ∀ f ∈ names, pattern <:+: f → Carried f) (messageSeq : UInt64) :
    names.foldl (addFilename pattern) (packingOf messageSeq q) =
      packingOf messageSeq ((names.filter fun f => pattern <:+: f).foldl packName q) := by
  induction names generalizing q with
  | nil => rfl
  | cons f names ih =>
    have hn' : ∀ g ∈ names, pattern <:+: g → Carried g := fun g hg => hn g (by simp [hg])
    rw [List.foldl_cons]
    by_cases hp : pattern <:+: f
    · have hf := hn f (by simp) hp
      rw [addFilename_packingOf h hf hp, List.filter_cons_of_pos (by simpa using hp),
        List.foldl_cons]
      exact ih (h.packName hf) hn'
    · have hskip : addFilename pattern (packingOf messageSeq q) f = packingOf messageSeq q :=
        if_neg hp
      rw [hskip, List.filter_cons_of_neg (by simpa using hp)]
      exact ih h hn'

/-- The datagrams of `FilesList` are those of the calls. -/
theorem handleFilesListRequest_eq_flatMap {files : SortedSet Bytes}
    (hn : ∀ f ∈ files, pattern <:+: f → Carried f) (messageSeq : UInt64) :
    ∃ calls, ListBuffer.handleFilesListRequest pattern files.toList = some calls ∧
      handleFilesListRequest files messageSeq pattern =
        calls.flatMap fun c => trySendMessage (listHeader messageSeq ++ c.data) c.currDataLen := by
  have hn' : ∀ f ∈ files.toList, pattern <:+: f → Carried f :=
    fun f hf => hn f (SortedSet.mem_toList.mp hf)
  have hpacked := packed_nil.foldl (ListBuffer.carried_of_mem_filter hn')
  have h0 : (⟨simpleMessage messageSeq filesListResponse [], 0, []⟩ : Packing) =
      packingOf messageSeq ([], []) := by
    simp [packingOf, simpleMessage, strncpy, listMessage, listHeader]
  have hsend : ∀ l ∈ pack (files.toList.filter fun f => pattern <:+: f),
      trySendMessage (listHeader messageSeq ++ (trySendOf l).data) (trySendOf l).currDataLen =
        [listMessage messageSeq l] := by
    intro l hl
    have hle := (Packed.fills_pack (ListBuffer.carried_of_mem_filter hn') l hl).le
    rw [trySendOf, listData, ← List.append_assoc]
    exact trySendMessage_listMessage _ hle
  refine ⟨_, ListBuffer.handleFilesListRequest_eq hn', ?_⟩
  rw [List.flatMap_map, List.flatMap_congr hsend, ← List.map_eq_flatMap,
    handleFilesListRequest, h0, foldl_addFilename_packingOf packed_nil hn', pack]
  generalize (files.toList.filter fun f => pattern <:+: f).foldl packName ([], []) = q at hpacked ⊢
  by_cases hq : q.2 = []
  · have hlen : ¬(packingOf messageSeq q).currDataLen > 0 := by simp [packingOf, hq]
    rw [if_neg hlen, if_pos hq, packingOf]
  · have hlen : (packingOf messageSeq q).currDataLen > 0 := List.length_pos_iff.mpr
      (Bytes.joinLines_ne_nil hq fun g hg => (hpacked.carried g hg).ne_nil)
    rw [if_pos hlen, if_neg hq, packingOf, trySendMessage_listMessage _ hpacked.le,
      List.map_append, List.map_singleton]

end Safe

/-- For any names that requests can carry, the handler stores nothing out of the data, sends no
length but that of the string it has stored, and begins again with zeros. -/
theorem packing_in_bounds {pattern : Bytes} {names : List Bytes}
    (hn : ∀ f ∈ names, pattern <:+: f → Carried f) :
    (∃ calls, ListBuffer.handleFilesListRequest pattern names = some calls ∧
        ∀ c ∈ calls, c.Safe) ∧
      ∀ before f after, names = before ++ f :: after →
        ∃ b b', ListBuffer.addFilenames pattern before = some b ∧
          ListBuffer.addFilename pattern b f = some b' ∧ TurnSafe pattern f b b' := by
  refine ⟨⟨_, ListBuffer.handleFilesListRequest_eq hn, fun c hc => ?_⟩, ?_⟩
  · obtain ⟨l, hl, rfl⟩ := List.mem_map.mp hc
    exact (Packed.fills_pack (ListBuffer.carried_of_mem_filter hn) l hl).safe
  · rintro before f after rfl
    obtain ⟨q, hq, hbefore⟩ := @ListBuffer.addFilenames_eq pattern before
      fun g hg => hn g (by simp [hg])
    obtain ⟨b', hb', hsafe⟩ := turnSafe_ofPack hq (hn f (by simp))
    exact ⟨_, b', hbefore, hb', hsafe⟩

theorem twoNames_in_bounds :
    (∃ calls, ListBuffer.handleFilesListRequest [] [[97], [98, 99]] = some calls ∧
        ∀ c ∈ calls, c.Safe) ∧
      ∀ before f after, [[97], [98, 99]] = before ++ f :: after →
        ∃ b b', ListBuffer.addFilenames [] before = some b ∧
          ListBuffer.addFilename [] b f = some b' ∧ TurnSafe [] f b b' :=
  packing_in_bounds fun f hf _ => by
    rcases List.mem_pair.mp hf with rfl | rfl
    · exact ⟨by decide, by decide, by decide⟩
    · exact ⟨by decide, by decide, by decide⟩

end Netstore
