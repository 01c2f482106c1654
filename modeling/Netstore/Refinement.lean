import Netstore.Abstraction
import Netstore.Agreement
import Netstore.Path

/-!
# Requests handled one at a time

A server that handles its requests one at a time, each to its end before it receives the
next, refines the store of `World.store`. What its clients see of a request
(`World.outputs`), read as an event of the store, is a step of the store, whatever
becomes of the transfer of an upload (`refines_store`).

Such runs are orderly, so the invariants of the other files hold along them. What is
left is to follow one handler through its calls : `Upload.Shown` and `Download.Shown`
say, for each place a handler can stand at, what it has shown so far.
-/

namespace Netstore

/-! ## What is seen of a step -/

/-- What a client sees of the server. -/
inductive Output where
  /-- The answer to a discovery. -/
  | goodDay (m : Message)
  | canAdd
  | noWay
  | connectMe
  /-- Bytes of an upload are taken. -/
  | took (bs : Bytes)
  /-- The transfer of an upload times out or fails. -/
  | broke
  /-- Bytes of a download are given. -/
  | gave (bs : Bytes)
  deriving DecidableEq

namespace Output

/-- The bytes that an output shows as received. -/
def taken : Output → Bytes
  | took bs => bs
  | _ => []

/-- The bytes that an output shows as sent. -/
def given : Output → Bytes
  | gave bs => bs
  | _ => []

end Output

/-- How the transfer went of which this is seen. -/
def transfer (os : List Output) : Transfer :=
  ⟨os.flatMap Output.taken, .broke ∉ os⟩

/-- The answer to a discovery. -/
def Server.handleDiscoverRequest (s : Server) (multicastAddress : Bytes) (messageSeq : UInt64) :
    Message :=
  complexMessage messageSeq discoverResponse multicastAddress s.getAvailableSpace

theorem Server.param_handleDiscoverRequest (s : Server) (multicastAddress : Bytes)
    (messageSeq : UInt64) :
    (s.handleDiscoverRequest multicastAddress messageSeq).param = s.getAvailableSpace :=
  param_append (by decide) _

namespace UploadCall

/-- What is seen of a call of an upload. -/
def outputs : UploadCall → List Output
  | announce port => if port.isSome then [.canAdd] else []
  | refuse ok => if ok then [.noWay] else []
  | select .timeout | select .failure | accept false | read .failure => [.broke]
  | read (.piece bs) => [.took bs]
  | select .ready | accept true | read .endOfStream => []
  | checkAndReserveSpace | addFileToStorage | freeSpace | removeFileFromStorage | openFile _
  | flush _ _ | closeFile _ | fileExists _ | removeFile _ => []

/-- No send and no file operation fails, and the sockets are created. -/
def succeeds : UploadCall → Bool
  | announce port => port.isSome
  | refuse ok | openFile ok | flush _ ok | closeFile ok | fileExists ok | removeFile ok => ok
  | checkAndReserveSpace | addFileToStorage | freeSpace | removeFileFromStorage | select _
  | accept _ | read _ => true

end UploadCall

/-- What is seen of a call of a download. -/
def Download.outputs (u : Download) : DownloadCall → List Output
  | .announce port => if port.isSome then [.connectMe] else []
  | .write none =>
    match u.pc with
    | .writing _ _ bs _ _ => [.gave bs]
    | _ => []
  | .write (some _) | .select _ | .accept _ | .openFile _ | .readFile _ => []

/-- The transfer does not fail. -/
def DownloadCall.succeeds : DownloadCall → Bool
  | announce port => port.isSome
  | select r => r = .ready
  | accept ok | openFile ok => ok
  | readFile error | write error => error.isNone

/-- The call of a removal does not fail. -/
def RemovalCall.succeeds : RemovalCall → Bool
  | fileSize ok | removeFile ok => ok
  | freeSpace => true

/-- The step belongs to the handling of a request that has been received, and does not
fail but for the transfer of an upload. -/
def Action.succeeds : Action → Bool
  | .receive _ => false
  | .discover ok => ok
  | .remove c => c.succeeds
  | .upload _ c => c.succeeds
  | .download _ c => c.succeeds
  | .receiveFails | .filesList _ _ => true

/-- The download is at its end. -/
def DownloadPc.hasEnded : DownloadPc → Bool
  | ended _ => true
  | _ => false

/-- A request for a file by a name it can have, or a discovery. -/
def Request.Legal : Request → Prop
  | discover _ => True
  | filesList _ _ => False
  | file _ f | remove f | upload _ f _ => Path.IsName f

instance (r : Request) : Decidable r.Legal := by
  unfold Request.Legal
  split <;> infer_instance

/-- What came of a request. -/
def event : Request → List Output → Option (Event Filename)
  | .discover _, [.goodDay m] => some (.hello m.param.toNat)
  | .upload _ f n, [.noWay] => some (.add f n.toNat none)
  | .upload _ f n, .canAdd :: os => some (.add f n.toNat (some (transfer os)))
  | .remove f, [] => some (.del f)
  | .file _ f, [] => some (.get f none)
  | .file _ f, .connectMe :: os => some (.get f (some (os.flatMap Output.given)))
  | _, _ => none

/-- The datagram of a request, and the steps that follow until the next is received. -/
structure Handling where
  datagram : Datagram
  steps : List Action

namespace World

open Transition

variable (multicastAddress : Bytes)

/-- What is seen of a step of the server. -/
def outputs (w : World) : Action → List Output
  | .discover true =>
    match w.loop with
    | .discovering _ seq => [.goodDay (w.server.handleDiscoverRequest multicastAddress seq)]
    | _ => []
  | .upload _ c => c.outputs
  | .download i c => (w.downloads[i]?.map fun u => u.outputs c).getD []
  | _ => []

/-- The loop waits for a datagram and every handler has ended. -/
def Idle (w : World) : Prop :=
  w.loop = .idle ∧ (∀ u ∈ w.uploads, u.pc.ended) ∧ (∀ u ∈ w.downloads, u.pc.hasEnded) ∧
    ∀ l ∈ w.listings, l.ended

instance (w : World) : Decidable w.Idle :=
  inferInstanceAs (Decidable (_ ∧ _))

/-- Receive a datagram and take the steps that follow. -/
def handle (w : World) (h : Handling) : Option World :=
  run w (.receive h.datagram :: h.steps)

/-- What came of the request, as the clients see it. -/
def observe (w : World) (h : Handling) : Option (Event Filename) :=
  match Netstore.receive h.datagram.payload with
  | .ok (some r) =>
    event r (trace step (outputs multicastAddress) w (.receive h.datagram :: h.steps)).flatten
  | _ => none

/-- A legal request is handled to its end, with nothing failing but transfers of
uploads. -/
def Alone (w : World) (h : Handling) : Prop :=
  (match Netstore.receive h.datagram.payload with
    | .ok (some r) => r.Legal
    | _ => False) ∧
  (∀ a ∈ h.steps, a.succeeds) ∧ ∀ w' ∈ w.handle h, w'.Idle

instance (w : World) (h : Handling) : Decidable (Alone w h) :=
  @instDecidableAnd _ _ (by split <;> infer_instance) inferInstance

end World

/-! ## Handlers that have ended -/

theorem Upload.next_of_ended {s : Server} {u : Upload} (h : u.pc.ended) (c : UploadCall) :
    u.next s c = none := by
  cases hpc : u.pc <;> cases c <;> simp_all [next, UploadPc.ended]

theorem Download.next_of_ended {s : Server} {u : Download} (h : u.pc.hasEnded) (c : DownloadCall) :
    u.next s c = none := by
  cases hpc : u.pc <;> cases c <;> simp_all [next, DownloadPc.hasEnded]

namespace World

open Transition

variable {w w' : World} {a : Action}

/-- What a step of the handling of a request can be. -/
inductive AloneCase (w : World) : Action → World → Prop
  | wait (idle : w.loop = .idle) : AloneCase w .receiveFails w
  | discover {source seq} (loop : w.loop = .discovering source seq) :
      AloneCase w (.discover true) { w with loop := .idle }
  | remove {c f pc} {w' : World} (loop : w.loop = .removing f pc)
      (next : w.removeNext f pc c = some w') : AloneCase w (.remove c) w'
  | upload {i c u s pc} (thread : w.uploads[i]? = some u)
      (next : u.next w.server c = some (s, pc)) (t : Bool) : AloneCase w (.upload i c)
        { w with server := s, uploads := w.uploads.set i { u with pc := pc }, terminated := t }
  | download {i c u pc} (thread : w.downloads[i]? = some u)
      (next : u.next w.server c = some pc) (t : Bool) : AloneCase w (.download i c)
        { w with downloads := w.downloads.set i { u with pc := pc }, terminated := t }

theorem alone_cases (hl : ∀ l ∈ w.listings, l.ended) (ha : a.succeeds)
    (hs : w.step a = some w') : AloneCase w a w' := by
  unfold World.step at hs
  rw [ite_eq_iff] at hs
  obtain ⟨-, hs⟩ := hs.resolve_left (by simp)
  cases a with
  | receive d => cases ha
  | receiveFails =>
    dsimp only at hs
    split_ifs at hs with hidle
    have he : w' = w := by
      rw [← Option.some.inj hs]
      obtain ⟨server, loop, uploads, downloads, listings, terminated⟩ := w
      obtain rfl : loop = .idle := hidle
      rfl
    rw [he]
    exact .wait hidle
  | discover ok =>
    obtain rfl : ok = true := ha
    dsimp only at hs
    split at hs
    · cases hs
      exact .discover (by assumption)
    · cases hs
  | remove c =>
    dsimp only at hs
    split at hs
    · exact .remove (by assumption) hs
    · cases hs
  | upload i c =>
    obtain ⟨u, hu, hs⟩ := Option.bind_eq_some_iff.mp hs
    obtain ⟨⟨s, pc⟩, hn, hs⟩ := Option.map_eq_some_iff.mp hs
    cases hs
    exact .upload hu hn _
  | download i c =>
    obtain ⟨u, hu, hs⟩ := Option.bind_eq_some_iff.mp hs
    obtain ⟨pc, hn, hs⟩ := Option.map_eq_some_iff.mp hs
    cases hs
    exact .download hu hn _
  | filesList i sends =>
    obtain ⟨l, hl', hs⟩ := Option.bind_eq_some_iff.mp hs
    rw [if_pos (hl l (List.mem_of_getElem? hl'))] at hs
    cases hs

theorem filesOk_of_succeeds (ha : a.succeeds) : FilesOk w a := by
  refine ⟨?_, ?_⟩
  · cases a with
    | upload i c =>
      cases hu : w.uploads[i]? <;> cases c <;>
        simp_all [fileCall, Action.succeeds, UploadCall.succeeds]
    | download i c =>
      cases hu : w.downloads[i]? <;> cases c <;>
        simp_all [fileCall, Action.succeeds, DownloadCall.succeeds]
    | remove c =>
      cases ht : w.loop.target <;> cases c <;>
        simp_all [fileCall, Action.succeeds, RemovalCall.succeeds]
    | _ => trivial
  · cases a with
    | upload i c => cases c <;> simp_all [Action.succeeds, UploadCall.succeeds, UploadCall.writesOk]
    | _ => trivial

/-- A step of the handling of a request is orderly. -/
theorem orderly_of_succeeds (ha : a.succeeds)
    (halone : w.loop.target = none ∨ ∀ u ∈ w.uploads, u.pc.ended)
    (hs : w.step a = some w') : Orderly w a := by
  refine ⟨filesOk_of_succeeds ha, ?_⟩
  cases a with
  | receive d => cases ha
  | upload i c =>
    rintro - u hu
    rcases halone with ht | hend
    · simp [ht]
    · cases step_cases hs with
      | upload thread next =>
        rw [Upload.next_of_ended (hend _ (List.mem_of_getElem? thread))] at next
        cases next
      | other call => exact (call i c rfl).elim
  | _ => trivial

/-- The invariants of orderly runs. -/
def Sound (w : World) : Prop :=
  Undisturbed w ∧ Exact w

theorem Sound.step (h : Sound w) (ha : Orderly w a) (hs : w.step a = some w') : Sound w' :=
  ⟨h.1.step ha hs, h.2.step h.1 ha hs⟩

end World

/-! ## What an upload has shown -/

theorem transfer_took (os : List Output) (bs : Bytes) : transfer (os ++ [.took bs]) =
    ⟨(transfer os).received ++ bs, (transfer os).clean⟩ := by
  simp [transfer, Output.taken]

theorem transfer_broke (os : List Output) :
    transfer (os ++ [.broke]) = ⟨(transfer os).received, false⟩ := by
  simp [transfer, Output.taken]

namespace Upload

/-- The server `s₀` admits the upload. -/
def Admitted (s₀ : Server) (u : Upload) : Prop :=
  u.filename ∉ s₀.filesInStorage ∧ (s₀.checkAndReserveSpace u.fileSize).1

/-- What an upload has shown before it is accepted, or if it is refused. -/
def Early (s₀ s : Server) (u : Upload) (os : List Output) : Prop :=
  match u.pc with
  | .start => os = [] ∧ s = s₀
  | .reserved => os = [] ∧ s.filesInStorage = s₀.filesInStorage ∧
      (s₀.checkAndReserveSpace u.fileSize).1
  | .nameTaken | .refusing => os = [] ∧ ¬Admitted s₀ u
  | .refused => os = [.noWay] ∧ ¬Admitted s₀ u
  | .accepted => os = [] ∧ Admitted s₀ u
  | _ => False

/-- How the transfer of an accepted upload has gone so far. -/
def Went (u : Upload) (t : Transfer) : Prop :=
  match u.pc with
  | .waiting | .connecting => t = ⟨[], true⟩
  | .opening failed => t = ⟨[], !failed⟩
  | .receiving failed _ _ received | .closing failed _ _ received => t = ⟨received, !failed⟩
  | .checking | .removing | .releasing | .forgetting | .failed => ¬t.Delivers u.fileSize.toNat
  | .kept bs => t = ⟨bs, true⟩ ∧ bs.length = u.fileSize.toNat
  | _ => False

/-- What an upload that began at the server `s₀` has shown. -/
def Shown (s₀ s : Server) (u : Upload) (os : List Output) : Prop :=
  Early s₀ s u os ∨ Admitted s₀ u ∧ ∃ os', os = .canAdd :: os' ∧ Went u (transfer os')

variable {s₀ s s' : Server} {u : Upload} {c : UploadCall} {pc : UploadPc} {os : List Output}
  {target : Option Filename}

theorem not_delivers_of_not_clean {t : Transfer} {n : ℕ} (h : t.clean = false) : ¬t.Delivers n :=
  fun hd => by simp [Transfer.Delivers, h] at hd

theorem Early.next (h : u.Early s₀ s os) (hn : u.next s c = some (s', pc)) (hc : c.succeeds)
    (hname : acceptableName u.filename) :
    Shown s₀ s' { u with pc := pc } (os ++ c.outputs) := by
  unfold Early at h
  cases next_cases hn with
  | reserve before name fits =>
    rw [before] at h
    obtain ⟨rfl, rfl⟩ := h
    exact Or.inl ⟨rfl, rfl, (s.checkAndReserveSpace_iff _).mpr fits⟩
  | reject before unfit =>
    rw [before] at h
    obtain ⟨rfl, rfl⟩ := h
    exact Or.inl ⟨rfl, fun ha => unfit ⟨hname, ha.2⟩⟩
  | add before fresh =>
    rw [before] at h
    obtain ⟨rfl, hfiles, hr⟩ := h
    exact Or.inl ⟨rfl, hfiles ▸ fresh, hr⟩
  | taken before mem =>
    rw [before] at h
    obtain ⟨rfl, hfiles, hr⟩ := h
    exact Or.inl ⟨rfl, fun ha => ha.1 (hfiles ▸ mem)⟩
  | freeTaken before =>
    rw [before] at h
    exact Or.inl ⟨by simp [h.1, UploadCall.outputs], h.2⟩
  | announce before port =>
    rw [before] at h
    exact Or.inr ⟨h.2, [], by simp [h.1, UploadCall.outputs], rfl⟩
  | announceFail => cases hc
  | refuse before ok =>
    obtain rfl : ok = true := hc
    rw [before] at h
    exact Or.inl ⟨by simp [h.1, UploadCall.outputs], h.2⟩
  | forget before => rcases before with before | before <;> rw [before] at h <;> exact h.elim
  | freeAnnounce before | free before | ready before | notReady before | accept before
  | create before | openFail before | piece before | endOfStream before | readFail before
  | flush before | spoil before | close before | closeFail before | found before | absent before
  | existsThrows before | remove before | removeThrows before =>
    rw [before] at h
    exact h.elim

theorem Went.next (h : u.Went (transfer os)) (hn : u.next s c = some (s', pc)) (hc : c.succeeds)
    (hu : u.OnDisk s.folder target) :
    Went { u with pc := pc } (transfer (os ++ c.outputs)) := by
  unfold Went at h
  cases next_cases hn with
  | free before | ready before | create before | endOfStream before | flush before
  | found before | absent before | remove before =>
    rw [before] at h
    simpa [Went, UploadCall.outputs] using h
  | forget before =>
    rcases before with before | before <;> rw [before] at h
    · exact h.elim
    · simpa [Went, UploadCall.outputs] using h
  | @notReady r before result =>
    refine not_delivers_of_not_clean ?_
    have hout : UploadCall.outputs (.select r) = [.broke] := by
      cases r
      · exact (result rfl).elim
      · rfl
      · rfl
    rw [hout, transfer_broke]
  | accept before ok =>
    rw [before] at h
    cases ok
    · show transfer (os ++ [.broke]) = ⟨[], !true⟩
      rw [transfer_broke, h]
      rfl
    · simpa [Went, UploadCall.outputs] using h
  | piece before pos le =>
    rw [before] at h
    show transfer (os ++ [.took _]) = _
    rw [transfer_took, h]
  | readFail before =>
    rw [before] at h
    show transfer (os ++ [.broke]) = _
    rw [transfer_broke, h]
    rfl
  | @close failed st toUpload received before =>
    simp only [OnDisk, before] at hu
    have hleft := hu.left
    rw [before] at h
    rw [show os ++ UploadCall.outputs (.closeFile true) = os from List.append_nil os, h]
    unfold afterTransfer
    split_ifs with hfail
    · -- what is missing of a transfer that did not fail is still to be uploaded
      rintro ⟨hclean, hlen⟩
      have hne : toUpload ≠ 0 := hfail.resolve_left (by simpa using hclean)
      exact hne (UInt64.toNat_inj.mp (by rw [UInt64.toNat_zero]; dsimp only at hlen; omega))
    · simp only [not_or, Bool.not_eq_true, not_not] at hfail
      obtain ⟨rfl, rfl⟩ := hfail
      exact ⟨rfl, by simpa using hleft⟩
  | announceFail | openFail | spoil | closeFail | existsThrows | removeThrows => cases hc
  | reserve before | reject before | add before | taken before | freeTaken before
  | freeAnnounce before | announce before | refuse before =>
    rw [before] at h
    exact h.elim

theorem Shown.next (h : u.Shown s₀ s os) (hn : u.next s c = some (s', pc)) (hc : c.succeeds)
    (hname : acceptableName u.filename) (hu : u.OnDisk s.folder target) :
    Shown s₀ s' { u with pc := pc } (os ++ c.outputs) := by
  rcases h with h | ⟨ha, os', rfl, h⟩
  · exact h.next hn hc hname
  · exact Or.inr ⟨ha, os' ++ c.outputs, rfl, h.next hn hc hu⟩

end Upload

/-! ## What a download has shown -/

namespace Download

/-- What a download of a file with the bytes `bs` has shown. -/
def Shown (bs : Bytes) (s : Server) (u : Download) (os : List Output) : Prop :=
  match u.pc with
  | .announcing => os = []
  | .waiting | .connecting | .opening => os = [.connectMe]
  | .reading ino offset _ => ∃ os', os = .connectMe :: os' ∧
      os'.flatMap Output.given = bs.take offset ∧ s.folder.contents ino = bs
  | .writing ino offset block more _ => ∃ os', os = .connectMe :: os' ∧
      os'.flatMap Output.given = bs.take offset ∧ s.folder.contents ino = bs ∧
      block = (bs.drop offset).take maxBufferSize ∧ more = decide (block.length = maxBufferSize)
  | .ended _ => ∃ os', os = .connectMe :: os' ∧ os'.flatMap Output.given = bs
  | .uncaught _ => False

variable {s : Server} {u : Download} {c : DownloadCall} {pc : DownloadPc} {os : List Output}
  {bs : Bytes}

theorem Shown.next (h : u.Shown bs s os) (hn : u.next s c = some pc) (hc : c.succeeds)
    (hf : s.folder.content u.filename = some bs) :
    Shown bs s { u with pc := pc } (os ++ u.outputs c) := by
  unfold Shown at h
  cases next_cases hn with
  | announce before port =>
    rw [before] at h
    simp [Shown, h, outputs]
  | ready before | accept before =>
    rw [before] at h
    simpa [Shown, outputs] using h
  | @openFile ino before opened =>
    rw [before] at h
    refine ⟨[], by simp [h, outputs], rfl, ?_⟩
    rw [Folder.content, opened] at hf
    simpa using hf
  | readFile before =>
    rw [before] at h
    obtain ⟨os', rfl, hgiven, hino⟩ := h
    refine ⟨os', by simp [outputs], hgiven, hino, ?_, rfl⟩
    rw [block, hino]
  | @write ino offset block sent before =>
    rw [before] at h
    obtain ⟨os', rfl, hgiven, hino, hblock, hmore⟩ := h
    refine ⟨os' ++ [.gave block], by simp [outputs, before], ?_, hino⟩
    rw [List.flatMap_append, hgiven, List.flatMap_singleton, Output.given,
      Bytes.take_append_block hblock]
  | @writeLast ino offset block sent before =>
    rw [before] at h
    obtain ⟨os', rfl, hgiven, hino, hblock, hmore⟩ := h
    have hlen : block.length ≠ maxBufferSize := by simpa using hmore
    refine ⟨os' ++ [.gave block], by simp [outputs, before], ?_⟩
    rw [List.flatMap_append, hgiven, List.flatMap_singleton, Output.given,
      Bytes.take_append_last hblock hlen]
  | notReady before result => exact (result (by simpa [DownloadCall.succeeds] using hc)).elim
  | announceFail | acceptFail | openFail | readFail | writeFail => cases hc

end Download

/-! ## A request is a step of the store -/

namespace World

open Transition

variable {multicastAddress : Bytes} {w w₁ w' : World} {h : Handling} {f : Filename}

theorem Sound.usedSpace_eq (hw : Sound w) (hi : w.Idle) :
    w.server.usedSpace.toNat = w.store.total := by
  have hheld : w.heldSize = 0 := by
    refine List.sum_eq_zero fun n hn => ?_
    obtain ⟨u, hu, rfl⟩ := List.mem_map.mp hn
    have hend := hi.2.1 u hu
    cases hpc : u.pc <;> simp_all [Upload.held, UploadPc.holds, UploadPc.ended]
  rw [hw.2.accounted (by rw [hi.1]; rfl), hheld, total_store, Nat.add_zero]

theorem Idle.not_owned (hi : w.Idle) (f : Filename) : ¬w.Owned f :=
  Quiet.not_owned ⟨by rw [hi.1]; rfl, hi.2.1⟩ f

/-- When the server is idle the store has what the index lists. -/
theorem Idle.lookup_files (hi : w.Idle) (f : Filename) :
    w.files.lookup f =
      if f ∈ w.server.filesInStorage then w.server.folder.content f else none := by
  rw [World.lookup_files]
  refine if_congr ?_ rfl rfl
  simp [Stored, hi.not_owned]

theorem Sound.mem_files_iff (hw : Sound w) (hi : w.Idle) (f : Filename) :
    f ∈ w.store.files ↔ f ∈ w.server.filesInStorage := by
  rw [← not_iff_not, ← Finmap.lookup_eq_none, store, hi.lookup_files]
  split_ifs with hf
  · have hi := (hw.1.stored ⟨hf, hi.not_owned f⟩).1
    simp [hf, Folder.content_eq_none_iff, hi]
  · simp [hf]

theorem Sound.admitted_iff (hw : Sound w) (hi : w.Idle) (u : Upload) :
    Upload.Admitted w.server u ↔ w.store.Admits u.filename u.fileSize.toNat := by
  rw [Upload.Admitted, Store.Admits, hw.mem_files_iff hi, Server.checkAndReserveSpace_iff,
    hw.usedSpace_eq hi]
  rfl

/-- The handling of a request begins with the start of its handler. -/
theorem start_of_handle (multicastAddress : Bytes) {r : Request} (hr : Netstore.receive h.datagram.payload = .ok (some r))
    (hrun : w.handle h = some w') :
    w.loop = .idle ∧ step w (.receive h.datagram) = some (w.start h.datagram.source r) ∧
      run (w.start h.datagram.source r) h.steps = some w' ∧
      w.observe multicastAddress h = event r (trace World.step (outputs multicastAddress)
        (w.start h.datagram.source r) h.steps).flatten := by
  rw [handle, World.run, run_cons] at hrun
  obtain ⟨w₁, hs, hrun⟩ := Option.bind_eq_some_iff.mp hrun
  obtain ⟨hidle, rfl⟩ := step_receive hr hs
  refine ⟨hidle, hs, hrun, ?_⟩
  simp only [observe, hr, trace, hs, List.flatten_cons, outputs, List.nil_append]

/-- No handler has ended in the middle of a call. -/
theorem Idle.upload_next (hi : w.Idle) {i : ℕ} {u : Upload} (hu : w.uploads[i]? = some u)
    (s : Server) (c : UploadCall) : u.next s c = none :=
  Upload.next_of_ended (hi.2.1 u (List.mem_of_getElem? hu)) c

theorem Idle.download_next (hi : w.Idle) {i : ℕ} {u : Download} (hu : w.downloads[i]? = some u)
    (s : Server) (c : DownloadCall) : u.next s c = none :=
  Download.next_of_ended (hi.2.2.1 u (List.mem_of_getElem? hu)) c

/-- A request that an idle server receives finds no upload of its name. -/
theorem Sound.start (hw : Sound w) (hi : w.Idle) {d : Datagram}
    (hs : w.step (.receive d) = some w₁) : Sound w₁ := by
  have hoverlap : NoOverlap w (.receive d) := fun f _ => hi.not_owned f
  exact hw.step ⟨⟨trivial, trivial⟩, hoverlap⟩ hs

/-- What a request must do to the store, with what is seen of it. -/
def Handled (multicastAddress : Bytes) (w : World) (h : Handling) (w' : World) : Prop :=
  ∃ e, w.observe multicastAddress h = some e ∧ w.store.step e = some w'.store ∧ Sound w'

section Handled

variable (hw : Sound w) (hi : w.Idle) (hrun : w.handle h = some w')
  (hsteps : ∀ a ∈ h.steps, a.succeeds)

include hw hi hrun hsteps

theorem handled_discover (hend : w'.Idle) {seq : UInt64}
    (hr : Netstore.receive h.datagram.payload = .ok (some (.discover seq))) :
    Handled multicastAddress w h w' := by
  obtain ⟨hidle, -, hrun, hobs⟩ := start_of_handle multicastAddress hr hrun
  have hseen := run_induction_trace (outputs multicastAddress) hrun (along_of_forall _ hsteps)
    (fun os w₁ =>
      os = [] ∧ w₁ = { w with loop := .discovering h.datagram.source seq } ∨
      os = [.goodDay (w.server.handleDiscoverRequest multicastAddress seq)] ∧ w₁ = w)
    (Or.inl ⟨rfl, rfl⟩) (fun os w₁ a w₂ hI ha hs => ?_)
  · rcases hseen with ⟨-, rfl⟩ | ⟨hos, rfl⟩
    · cases hend.1
    · refine ⟨_, by rw [hobs, hos]; rfl, ?_, hw⟩
      have hspace : w'.server.getAvailableSpace.toNat = w'.store.capacity - w'.store.total := by
        rw [Server.toNat_getAvailableSpace, hw.usedSpace_eq hi]
        rfl
      rw [Store.step, Server.param_handleDiscoverRequest, if_pos hspace]
  · rcases hI with ⟨rfl, rfl⟩ | ⟨rfl, rfl⟩
    · cases alone_cases (by exact hi.2.2.2) ha hs with
      | wait idle => cases idle
      | discover loop =>
        refine Or.inr ⟨rfl, ?_⟩
        rw [← hidle]
      | remove loop => cases loop
      | upload thread next => simp [hi.upload_next thread] at next
      | download thread next => simp [hi.download_next thread] at next
    · cases alone_cases hi.2.2.2 ha hs with
      | wait idle => exact Or.inr ⟨rfl, rfl⟩
      | discover loop => simp [hidle] at loop
      | remove loop => simp [hidle] at loop
      | upload thread next => simp [hi.upload_next thread] at next
      | download thread next => simp [hi.download_next thread] at next

theorem handled_remove {f : Filename}
    (hr : Netstore.receive h.datagram.payload = .ok (some (.remove f))) :
    Handled multicastAddress w h w' := by
  obtain ⟨hidle, hbegin, hrun, hobs⟩ := start_of_handle multicastAddress hr hrun
  have hloop : (w.start h.datagram.source (.remove f)).loop = .idle ∨
      ∃ pc, (w.start h.datagram.source (.remove f)).loop = .removing f pc := by
    simp only [World.start]
    split_ifs
    · exact Or.inr ⟨_, rfl⟩
    · exact Or.inl rfl
  have hseen := run_induction_trace (outputs multicastAddress) hrun (along_of_forall _ hsteps)
    (fun os w₁ => os = [] ∧ w₁.store = w.store.remove f ∧ Sound w₁ ∧
      (w₁.loop = .idle ∨ ∃ pc, w₁.loop = .removing f pc) ∧ w₁.uploads = w.uploads ∧
      w₁.downloads = w.downloads ∧ w₁.listings = w.listings)
    ⟨rfl, store_erase _ f, hw.start hi hbegin, hloop, rfl, rfl, rfl⟩
    (fun os w₁ a w₂ hI ha hs => ?_)
  · exact ⟨.del f, by rw [hobs, hseen.1]; rfl, by rw [Store.step, hseen.2.1], hseen.2.2.1⟩
  · obtain ⟨rfl, hstore, hsound, hloop, huploads, hdownloads, hlistings⟩ := hI
    have hsound₂ := hsound.step (orderly_of_succeeds ha (Or.inr (huploads ▸ hi.2.1)) hs) hs
    cases alone_cases (hlistings ▸ hi.2.2.2) ha hs with
    | wait idle => exact ⟨rfl, hstore, hsound, hloop, huploads, hdownloads, hlistings⟩
    | discover loop => simp [loop] at hloop
    | @remove c g pc _ loop next =>
      obtain rfl : g = f := by simpa [loop] using hloop
      refine ⟨rfl, (hsound.1.store_removal loop next).trans hstore, hsound₂, ?_⟩
      cases removeNext_cases next with
      | measure before content => exact ⟨Or.inr ⟨_, rfl⟩, huploads, hdownloads, hlistings⟩
      | release before => exact ⟨Or.inr ⟨_, rfl⟩, huploads, hdownloads, hlistings⟩
      | remove before remove => exact ⟨Or.inl rfl, huploads, hdownloads, hlistings⟩
      | fail call => exact ⟨Or.inl rfl, huploads, hdownloads, hlistings⟩
    | upload thread next => simp [hi.upload_next (huploads ▸ thread)] at next
    | download thread next => simp [hi.download_next (hdownloads ▸ thread)] at next

theorem handled_file (hend : w'.Idle) {seq : UInt64} {f : Filename}
    (hr : Netstore.receive h.datagram.payload = .ok (some (.file seq f))) :
    Handled multicastAddress w h w' := by
  obtain ⟨hidle, hbegin, hrun, hobs⟩ := start_of_handle multicastAddress hr hrun
  have hlookup := hi.lookup_files f
  by_cases hf : f ∈ w.server.filesInStorage
  · obtain ⟨bs, hbs⟩ : ∃ bs, w.server.folder.content f = some bs := by
      rw [← Option.ne_none_iff_exists', Ne, Folder.content_eq_none_iff]
      exact (hw.1.stored ⟨hf, hi.not_owned f⟩).1
    have hstart : w.start h.datagram.source (.file seq f) = { w with
        downloads := w.downloads ++ [⟨h.datagram.source, seq, f, .announcing⟩] } := by
      simp [World.start, Server.isInStorage, hf]
    have hseen := run_induction_trace (outputs multicastAddress) hrun (along_of_forall _ hsteps)
      (fun os w₁ => Sound w₁ ∧ w₁.server = w.server ∧ w₁.loop = .idle ∧ w₁.uploads = w.uploads ∧
        w₁.listings = w.listings ∧ ∃ pc,
          w₁.downloads = w.downloads ++ [⟨h.datagram.source, seq, f, pc⟩] ∧
          Download.Shown bs w.server ⟨h.datagram.source, seq, f, pc⟩ os)
      (by
        refine ⟨hw.start hi hbegin, ?_⟩
        rw [hstart]
        exact ⟨rfl, hidle, rfl, rfl, _, rfl, rfl⟩)
      (fun os w₁ a w₂ hI ha hs => ?_)
    · obtain ⟨hsound, hserver, -, huploads, -, pc, hdownloads, hshown⟩ := hseen
      have hpc : pc.hasEnded := hend.2.2.1 ⟨h.datagram.source, seq, f, pc⟩ (by simp [hdownloads])
      cases pc with
      | ended sent =>
        obtain ⟨os, hos, hgiven⟩ := hshown
        refine ⟨.get f (some bs), by rw [hobs, hos, event, hgiven], ?_, hsound⟩
        rw [Store.step, if_pos, store_congr hserver huploads]
        rw [store, hlookup, if_pos hf, hbs]
      | _ => cases hpc
    · obtain ⟨hsound, hserver, hloop, huploads, hlistings, pc, hdownloads, hshown⟩ := hI
      have hsound₂ := hsound.step (orderly_of_succeeds ha (Or.inr (huploads ▸ hi.2.1)) hs) hs
      cases alone_cases (hlistings ▸ hi.2.2.2) ha hs with
      | wait idle =>
        refine ⟨hsound₂, hserver, hloop, huploads, hlistings, pc, hdownloads, ?_⟩
        simpa [outputs] using hshown
      | discover loop => simp [hloop] at loop
      | remove loop => simp [hloop] at loop
      | upload thread next => simp [hi.upload_next (huploads ▸ thread)] at next
      | @download i c u pc' thread next t =>
        have hout : outputs multicastAddress w₁ (.download i c) = u.outputs c := by
          simp [outputs, thread]
        rw [hdownloads, getElem?_concat_eq_some] at thread
        rcases thread with thread | ⟨rfl, rfl⟩
        · simp [hi.download_next thread] at next
        · refine ⟨hsound₂, hserver, hloop, huploads, hlistings, pc', ?_, ?_⟩
          · simp only [hdownloads, set_concat]
          · rw [hout]
            rw [hserver] at next
            exact hshown.next next ha hbs
  · have hstart : w.start h.datagram.source (.file seq f) = w := by
      simp [World.start, Server.isInStorage, hf]
    have hseen := run_induction_trace (outputs multicastAddress) hrun (along_of_forall _ hsteps)
      (fun os w₁ => os = [] ∧ w₁ = w) ⟨rfl, hstart⟩ (fun os w₁ a w₂ hI ha hs => ?_)
    · obtain ⟨hos, rfl⟩ := hseen
      refine ⟨.get f none, by rw [hobs, hos]; rfl, ?_, hw⟩
      rw [Store.step, if_pos]
      rw [store, hlookup, if_neg hf]
    · obtain ⟨rfl, rfl⟩ := hI
      cases alone_cases hi.2.2.2 ha hs with
      | wait idle => exact ⟨rfl, rfl⟩
      | discover loop => simp [hidle] at loop
      | remove loop => simp [hidle] at loop
      | upload thread next => simp [hi.upload_next thread] at next
      | download thread next => simp [hi.download_next thread] at next

theorem handled_upload (hend : w'.Idle) {seq n : UInt64} {f : Filename} (hname : Path.IsName f)
    (hr : Netstore.receive h.datagram.payload = .ok (some (.upload seq f n))) :
    Handled multicastAddress w h w' := by
  obtain ⟨hidle, hbegin, hrun, hobs⟩ := start_of_handle multicastAddress hr hrun
  have hname : acceptableName f := acceptableName_iff.mpr ⟨hname.1, hname.2.1⟩
  have hadmits := hw.admitted_iff hi ⟨h.datagram.source, seq, f, n, .start⟩
  have hseen := run_induction_trace (outputs multicastAddress) hrun (along_of_forall _ hsteps)
    (fun os w₁ => Sound w₁ ∧ w₁.loop = .idle ∧ w₁.downloads = w.downloads ∧
      w₁.listings = w.listings ∧ ∃ pc,
        w₁.uploads = w.uploads ++ [⟨h.datagram.source, seq, f, n, pc⟩] ∧
        Upload.Shown w.server w₁.server ⟨h.datagram.source, seq, f, n, pc⟩ os ∧
        w₁.store = pc.keptBytes.elim w.store (w.store.put f))
    ⟨hw.start hi hbegin, hidle, rfl, rfl, .start, rfl, Or.inl ⟨rfl, rfl⟩, store_append rfl⟩
    (fun os w₁ a w₂ hI ha hs => ?_)
  · obtain ⟨hsound, -, -, -, pc, huploads, hshown, hstore⟩ := hseen
    have hpc : pc.ended := hend.2.1 ⟨h.datagram.source, seq, f, n, pc⟩ (by simp [huploads])
    rcases hshown with hshown | ⟨hadm, os, hos, hwent⟩
    · cases pc with
      | refused =>
        refine ⟨.add f n.toNat none, by rw [hobs, hshown.1]; rfl, ?_, hsound⟩
        rw [Store.step, if_neg fun ha => hshown.2 (hadmits.mpr ha), hstore]
        rfl
      | _ => first | exact hshown.elim | cases hpc
    · refine ⟨.add f n.toNat (some (transfer os)), by rw [hobs, hos]; rfl, ?_, hsound⟩
      rw [Store.step, if_pos (hadmits.mp hadm), hstore]
      cases pc with
      | kept bs =>
        obtain ⟨htransfer, hlen⟩ := hwent
        rw [htransfer, if_pos ⟨rfl, hlen⟩]
        rfl
      | failed => rw [if_neg hwent]; rfl
      | _ => first | exact hwent.elim | cases hpc
  · obtain ⟨hsound, hloop, hdownloads, hlistings, pc, huploads, hshown, hstore⟩ := hI
    have horderly := orderly_of_succeeds ha (Or.inl (by rw [hloop]; rfl)) hs
    have hsound₂ := hsound.step horderly hs
    cases alone_cases (hlistings ▸ hi.2.2.2) ha hs with
    | wait idle =>
      refine ⟨hsound, hloop, hdownloads, hlistings, pc, huploads, ?_, hstore⟩
      simpa [outputs] using hshown
    | discover loop => simp [hloop] at loop
    | remove loop => simp [hloop] at loop
    | @upload i c u s pc' thread next t =>
      have hdisk := hsound.1.onDisk thread
      have hstore₂ := hsound.1.store_upload thread next horderly t
      rw [huploads, getElem?_concat_eq_some] at thread
      rcases thread with thread | ⟨rfl, rfl⟩
      · simp [hi.upload_next thread] at next
      · have hkept : pc.keptBytes = none := by
          cases pc with
          | kept bs => simp [Upload.next_of_ended (u := ⟨h.datagram.source, seq, f, n, .kept bs⟩) rfl] at next
          | _ => rfl
        refine ⟨hsound₂, hloop, hdownloads, hlistings, pc', ?_, hshown.next next ha hname hdisk, ?_⟩
        · simp only [huploads, set_concat]
        · rw [hstore₂, hstore, hkept]
          rfl
    | download thread next => simp [hi.download_next (hdownloads ▸ thread)] at next

end Handled

/-- The handling of a request of an idle server is a step of the store. -/
theorem Sound.handled (hw : Sound w) (hi : w.Idle) (ha : Alone w h) (hrun : w.handle h = some w') :
    w'.Idle ∧ Handled multicastAddress w h w' := by
  obtain ⟨hlegal, hsteps, hend⟩ := ha
  have hend := hend w' hrun
  refine ⟨hend, ?_⟩
  split at hlegal
  case h_1 r hr =>
    cases r with
    | discover seq => exact handled_discover hw hi hrun hsteps hend hr
    | filesList seq pattern => exact hlegal.elim
    | file seq f => exact handled_file hw hi hrun hsteps hend hr
    | remove f => exact handled_remove hw hi hrun hsteps hr
    | upload seq f n => exact handled_upload hw hi hrun hsteps hend hlegal hr
  case h_2 => exact hlegal.elim

/-- What is seen of requests that are handled one at a time is a run of the store that the
folder is at the start, to the store that the server keeps at the end. -/
theorem exists_run_store (multicastAddress : Bytes) {max : UInt64} {folder : Folder Filename}
    {listing : List Filename} {hs : List Handling} (hl : Lists listing folder)
    (hlt : ∑ f ∈ (Server.generateFilesInStorage max folder listing).filesInStorage.toFinset,
      folder.size f < 2 ^ 64)
    (hr : Transition.run handle (initial (Server.generateFilesInStorage max folder listing)) hs =
      some w)
    (hP : Along handle Alone (initial (Server.generateFilesInStorage max folder listing)) hs) :
    ∃ es, trace handle (observe multicastAddress)
        (initial (Server.generateFilesInStorage max folder listing)) hs = es.map some ∧
      Transition.run Store.step
        (initial (Server.generateFilesInStorage max folder listing)).store es = some w.store ∧
      w.Idle := by
  have hsound : Sound (initial (Server.generateFilesInStorage max folder listing)) :=
    ⟨undisturbed_initial hl, exact_initial hl hlt⟩
  have hidle : Idle (initial (Server.generateFilesInStorage max folder listing)) := by
    simp [Idle, initial]
  have hstep : ∀ w h w' s, (s = w.store ∧ w.Idle ∧ Sound w) → Alone w h → handle w h = some w' →
      ∃ e s', observe multicastAddress w h = some e ∧ Store.step s e = some s' ∧
        s' = w'.store ∧ w'.Idle ∧ Sound w' := by
    rintro w h w' _ ⟨rfl, hi, hw⟩ ha hs
    obtain ⟨hi', e, he, hstep, hw'⟩ := hw.handled hi ha hs
    exact ⟨e, w'.store, he, hstep, rfl, hi', hw'⟩
  obtain ⟨es, _, hes, hrun, rfl, hi, -⟩ :=
    run_refines (fun w s => s = w.store ∧ w.Idle ∧ Sound w) hstep ⟨rfl, hidle, hsound⟩ hr hP
  exact ⟨es, hes, hrun, hi⟩

/-- The files that a server keeps stay within its capacity, or within what they were at
the start if that was more. -/
theorem storedSize_le {max : UInt64} {folder : Folder Filename} {listing : List Filename}
    {hs : List Handling} (hl : Lists listing folder)
    (hlt : ∑ f ∈ (Server.generateFilesInStorage max folder listing).filesInStorage.toFinset,
      folder.size f < 2 ^ 64)
    (hr : Transition.run handle (initial (Server.generateFilesInStorage max folder listing)) hs =
      some w)
    (hP : Along handle Alone (initial (Server.generateFilesInStorage max folder listing)) hs) :
    w.storedSize ≤ Max.max max.toNat
      (initial (Server.generateFilesInStorage max folder listing)).storedSize := by
  obtain ⟨es, -, hrun, -⟩ := exists_run_store [] hl hlt hr hP
  have hle := Store.run_total_le hrun
  rw [total_store, total_store] at hle
  simpa [store, initial] using hle

/-- A server that handles its requests one at a time refines the store that its folder is
at the start : what is seen of each request is an event of the store, and the store goes
through these events to the one that the server keeps at the end. -/
theorem refines_store {max : UInt64} {folder : Folder Filename} {listing : List Filename}
    {hs : List Handling} (hl : Lists listing folder)
    (hlt : ∑ f ∈ (Server.generateFilesInStorage max folder listing).filesInStorage.toFinset,
      folder.size f < 2 ^ 64)
    (hr : Transition.run handle (initial (Server.generateFilesInStorage max folder listing)) hs =
      some w)
    (hP : Along handle Alone (initial (Server.generateFilesInStorage max folder listing)) hs) :
    ∃ s es, s.capacity = max.toNat ∧ (∀ f, s.files.lookup f = folder.content f) ∧
      trace handle (observe multicastAddress)
        (initial (Server.generateFilesInStorage max folder listing)) hs = es.map some ∧
      Transition.run Store.step s es = some w.store ∧
      ∀ f, w.store.files.lookup f =
        if f ∈ w.server.filesInStorage then w.server.folder.content f else none := by
  obtain ⟨es, hes, hrun, hi⟩ := exists_run_store multicastAddress hl hlt hr hP
  exact ⟨_, es, by simp [store, initial], lookup_store_initial hl, hes, hrun, hi.lookup_files⟩

/-- A file is uploaded and fetched, another upload of its name is refused and one of
another name cut short; then the space is announced and the file removed. -/
def oneAtATime : List Handling :=
  [⟨addDatagram ⟨1, 1⟩ 1 [97] 3, [.upload 0 .checkAndReserveSpace, .upload 0 .addFileToStorage,
      .upload 0 (.announce (some 5)), .upload 0 (.select .ready), .upload 0 (.accept true),
      .upload 0 (.openFile true), .upload 0 (.read (.piece [1, 2])), .upload 0 (.flush 1 true),
      .upload 0 (.read (.piece [3])), .upload 0 (.read .endOfStream), .upload 0 (.closeFile true)]⟩,
    ⟨simpleDatagram ⟨2, 2⟩ 2 fileGetRequest [97], [.download 0 (.announce (some 6)),
      .download 0 (.select .ready), .download 0 (.accept true), .download 0 (.openFile true),
      .download 0 (.readFile none), .download 0 (.write none)]⟩,
    ⟨addDatagram ⟨1, 1⟩ 3 [97] 1, [.upload 1 .checkAndReserveSpace, .upload 1 .addFileToStorage,
      .upload 1 .freeSpace, .upload 1 (.refuse true)]⟩,
    ⟨addDatagram ⟨2, 2⟩ 4 [98] 4, [.upload 2 .checkAndReserveSpace, .upload 2 .addFileToStorage,
      .upload 2 (.announce (some 7)), .upload 2 (.select .ready), .upload 2 (.accept true),
      .upload 2 (.openFile true), .upload 2 (.read (.piece [1])), .upload 2 (.read .endOfStream),
      .upload 2 (.closeFile true), .upload 2 (.fileExists true), .upload 2 (.removeFile true),
      .upload 2 .freeSpace, .upload 2 .removeFileFromStorage]⟩,
    ⟨simpleDatagram ⟨1, 1⟩ 5 discoverRequest [], [.discover true]⟩,
    ⟨simpleDatagram ⟨1, 1⟩ 6 fileRemoveRequest [97], [.remove (.fileSize true),
      .remove .freeSpace, .remove (.removeFile true)]⟩]

theorem oneAtATime_refines : ∃ w, Transition.run handle (started 10) oneAtATime = some w ∧
    ∃ s es, s.capacity = 10 ∧ (∀ f, s.files.lookup f = Folder.empty.content f) ∧
      trace handle (observe []) (started 10) oneAtATime = es.map some ∧
      Transition.run Store.step s es = some w.store ∧
      ∀ f, w.store.files.lookup f =
        if f ∈ w.server.filesInStorage then w.server.folder.content f else none := by
  obtain ⟨w, hr, -⟩ : ∃ w, Transition.run handle (started 10) oneAtATime = some w ∧
      decide (w.loop = .idle) := exists_run_of_any _ (by decide)
  exact ⟨w, hr, refines_store lists_empty (by decide) hr (by decide)⟩

end World

end Netstore
