import Netstore.Threads
import Netstore.Transition

/-!
# The running server

The state of a running server is its storage, its loop and the threads the loop has
started. A step is one atomic call of the loop or of one thread, with the answer of
the environment, in any order. The loop handles discovery and removal itself, one
request at a time, and takes the next datagram when it is idle; every other request
gets a thread. Handlers get the arguments of their own datagram.

An exception that leaves a thread or the loop terminates the server
(`World.terminated`), and nothing happens after that.

`step_cases` says once what a step can do to the storage, and `Upload.next_effect` what
a call of an upload handler can do to the index and the counter. The invariants of the
other files are derived from these.
-/

namespace Netstore

/-! ## The state -/

/-- Where a removal stands after its name has left the index. -/
inductive RemovalPc where
  /-- Before `fs::file_size`. -/
  | erased
  /-- Before `free_space` of the size. -/
  | measured (size : UInt64)
  /-- Before `fs::remove`. -/
  | released
  deriving DecidableEq

/-- What the server's loop is doing. -/
inductive Loop where
  | idle
  /-- Before the answer to a discovery is sent. -/
  | discovering (source : SockAddr) (messageSeq : UInt64)
  | removing (filename : Filename) (pc : RemovalPc)
  deriving DecidableEq

/-- A files list handler with its arguments. -/
structure Listing where
  destinationAddress : SockAddr
  messageSeq : UInt64
  pattern : Bytes
  /-- The list is sent. -/
  ended : Bool
  deriving DecidableEq

/-- A running server : what its handlers share, its loop, and its handlers by kind, in the order in
which they were started. -/
structure World where
  server : Server
  loop : Loop
  uploads : List Upload
  downloads : List Download
  listings : List Listing
  /-- An exception has left a thread or the loop. -/
  terminated : Bool

/-- The calls of a removal with their answers. -/
inductive RemovalCall where
  | fileSize (ok : Bool)
  | freeSpace
  | removeFile (ok : Bool)
  deriving DecidableEq

/-- A step of the loop or of a handler. -/
inductive Action where
  /-- The loop receives a datagram. -/
  | receive (d : Datagram)
  /-- The loop's receive throws. -/
  | receiveFails
  /-- The answer to a discovery is sent, or the send throws. -/
  | discover (ok : Bool)
  | remove (c : RemovalCall)
  | upload (i : ℕ) (c : UploadCall)
  | download (i : ℕ) (c : DownloadCall)
  /-- A files list handler runs under the mutex; each send succeeds or throws. -/
  | filesList (i : ℕ) (sends : List Bool)
  deriving DecidableEq

/-- The name of the removal that the loop receives. -/
def Action.removes : Action → Option Filename
  | .receive d =>
    match Netstore.receive d.payload with
    | .ok (some (.remove filename)) => some filename
    | _ => none
  | _ => none

/-- A receive removes the name its DEL request gives. -/
theorem Action.removes_receive {d : Datagram} {f : Filename}
    (h : Netstore.receive d.payload = .ok (some (.remove f))) :
    (Action.receive d).removes = some f := by
  simp only [removes, h]

/-- The removal the loop is in. -/
def Loop.removal : Loop → Option (Filename × RemovalPc)
  | .removing filename pc => some (filename, pc)
  | _ => none

/-- The name that is being removed. -/
def Loop.target (l : Loop) : Option Filename :=
  l.removal.map Prod.fst

namespace World

variable (w : World)

/-- The server before its first request. -/
def initial (s : Server) : World :=
  ⟨s, .idle, [], [], [], false⟩

/-- The server started on an empty folder. -/
def started (maxAvailableSpace : UInt64) : World :=
  initial (Server.generateFilesInStorage maxAvailableSpace .empty [])

/-- The loop after a call that throws. -/
def throw (c : CallSite) : World :=
  if c.caught then { w with loop := .idle } else { w with terminated := true }

/-- The loop starts the handling of a request. -/
def start (source : SockAddr) : Request → World
  | .discover seq => { w with loop := .discovering source seq }
  | .filesList seq pattern =>
    { w with listings := w.listings ++ [⟨source, seq, pattern, false⟩] }
  | .file seq filename =>
    if w.server.isInStorage filename then
      { w with downloads := w.downloads ++ [⟨source, seq, filename, .announcing⟩] }
    else w
  | .remove filename =>
    { w with
      server := (w.server.removeFileFromStorage filename).2
      loop := if (w.server.removeFileFromStorage filename).1 > 0 then .removing filename .erased
        else .idle }
  | .upload seq filename fileSize =>
    { w with uploads := w.uploads ++ [⟨source, seq, filename, fileSize, .start⟩] }

/-- One call of the removal the loop is in. -/
def removeNext (filename : Filename) (pc : RemovalPc) : RemovalCall → Option World
  | .fileSize ok =>
    match pc with
    | .erased =>
      if ok then (w.server.folder.content filename).map fun bs =>
        { w with loop := .removing filename (.measured (UInt64.ofNat bs.length)) }
      else some (w.throw .removeFileSize)
    | _ => none
  | .freeSpace =>
    match pc with
    | .measured size =>
      some { w with server := w.server.freeSpace size, loop := .removing filename .released }
    | _ => none
  | .removeFile ok =>
    match pc with
    | .released =>
      if ok then (w.server.folder.remove filename).map fun folder =>
        { w with server := { w.server with folder := folder }, loop := .idle }
      else some (w.throw .removeRemove)
    | _ => none

/-- One step of the server. -/
def step (w : World) (a : Action) : Option World :=
  if w.terminated then none else
  match a with
  | .receive d =>
    if w.loop = .idle then
      match Netstore.receive d.payload with
      | .error _ => some (w.throw .messageValidation)
      | .ok none => some w
      | .ok (some r) => some (w.start d.source r)
    else none
  | .receiveFails => if w.loop = .idle then some (w.throw .recvfrom) else none
  | .discover ok =>
    match w.loop with
    | .discovering _ _ =>
      some (if ok then { w with loop := .idle } else w.throw .discoverSend)
    | _ => none
  | .remove c =>
    match w.loop with
    | .removing filename pc => w.removeNext filename pc c
    | _ => none
  | .upload i c =>
    w.uploads[i]?.bind fun u => (u.next w.server c).map fun (s, pc) =>
      { w with
        server := s
        uploads := w.uploads.set i { u with pc := pc }
        terminated := match pc with | .uncaught _ => true | _ => false }
  | .download i c =>
    w.downloads[i]?.bind fun u => (u.next w.server c).map fun pc =>
      { w with
        downloads := w.downloads.set i { u with pc := pc }
        terminated := match pc with | .uncaught _ => true | _ => false }
  | .filesList i sends =>
    w.listings[i]?.bind fun l =>
      if l.ended then none
      else if sends.all id || CallSite.filesListSend.caught then
        some { w with listings := w.listings.set i { l with ended := true } }
      else some { w with terminated := true }

/-- The name whose path a file call of the step is given, and whether the call
succeeds. -/
def fileCall (w : World) : Action → Option (Filename × Bool)
  | .upload i (.openFile ok) | .upload i (.fileExists ok) | .upload i (.removeFile ok) =>
    w.uploads[i]?.map fun u => (u.filename, ok)
  | .download i (.openFile ok) => w.downloads[i]?.map fun u => (u.filename, ok)
  | .remove (.fileSize ok) | .remove (.removeFile ok) => w.loop.target.map fun f => (f, ok)
  | _ => none

/-- The state after a list of steps. -/
abbrev run : World → List Action → Option World :=
  Transition.run step

end World

/-! ## Phases of an upload -/

namespace UploadPc

/-- The handler has reserved space and has not given it back; the space of a kept file
is the file's. -/
def holds : UploadPc → Bool
  | start | refusing | announceReleased | forgetting | refused | failed | kept _ => false
  | _ => true

/-- The handler has added its name to the index, and has neither taken it out again
nor ended. -/
def owns : UploadPc → Bool
  | start | reserved | nameTaken | refusing | refused | failed | kept _ => false
  | _ => true

/-- What a handler that has ended with its file kept has received. -/
def keptBytes : UploadPc → Option Bytes
  | kept bs => some bs
  | _ => none

/-- The handler has ended. -/
def ended : UploadPc → Bool
  | refused | failed | kept _ => true
  | _ => false

/-- What a handler has of the storage : space, a name, or a kept file. -/
def share (pc : UploadPc) : Bool × Bool × Option Bytes :=
  (pc.holds, pc.owns, pc.keptBytes)

end UploadPc

namespace Upload

/-- What one call of an upload handler does to the counter and the index, and to its
share of them. -/
inductive Effect (s : Server) (u : Upload) (s' : Server) (pc : UploadPc) : Prop
  | quiet (used : s'.usedSpace = s.usedSpace) (files : s'.filesInStorage = s.filesInStorage)
    (share : pc.share = u.pc.share)
  | reserve (fits : s.usedSpace.toNat + u.fileSize.toNat ≤ s.maxAvailableSpace.toNat)
    (before : u.pc = .start) (after : pc = .reserved)
    (eq : s' = { s with usedSpace := s.usedSpace + u.fileSize })
  | release (before : u.pc.holds) (after : pc.share = (false, u.pc.owns, none))
    (eq : s' = s.freeSpace u.fileSize)
  | insert (fresh : u.filename ∉ s.filesInStorage) (before : u.pc = .reserved)
    (after : pc = .accepted)
    (eq : s' = { s with filesInStorage := s.filesInStorage.insert u.filename })
  | erase (before : u.pc = .announceReleased ∨ u.pc = .forgetting) (after : pc = .failed)
    (eq : s' = { s with filesInStorage := s.filesInStorage.erase u.filename })
  | keep (bs : Bytes) (used : s'.usedSpace = s.usedSpace)
    (files : s'.filesInStorage = s.filesInStorage) (before : u.pc.share = (true, true, none))
    (after : pc = .kept bs)

variable {s s' : Server} {u : Upload} {c : UploadCall} {pc : UploadPc}

/-- The limit on the space stays as the server was started with it. -/
theorem maxAvailableSpace_next (h : u.next s c = some (s', pc)) :
    s'.maxAvailableSpace = s.maxAvailableSpace := by
  cases next_cases h <;> rfl

/-- A step from the place `p` that leaves the counter and the index. -/
theorem Effect.stay {p : UploadPc} (hpc : u.pc = p) (used : s'.usedSpace = s.usedSpace)
    (files : s'.filesInStorage = s.filesInStorage) (share : pc.share = p.share) :
    Effect s u s' pc :=
  .quiet used files (hpc ▸ share)

theorem Effect.transferred {failed : Bool} {st : Stream} {toUpload : UInt64} {received : Bytes}
    (hpc : u.pc = .closing failed st toUpload received) (used : s'.usedSpace = s.usedSpace)
    (files : s'.filesInStorage = s.filesInStorage) :
    Effect s u s' (afterTransfer failed toUpload received) := by
  unfold afterTransfer
  split_ifs
  · exact .stay hpc used files rfl
  · exact .keep received used files (by rw [hpc]; rfl) rfl

/-- Every call of an upload handler has one of the effects. -/
theorem next_effect (h : u.next s c = some (s', pc)) : Effect s u s' pc := by
  cases next_cases h with
  | reserve before name fits => exact .reserve fits before rfl rfl
  | add before fresh => exact .insert fresh before rfl rfl
  | freeTaken before | freeAnnounce before | free before =>
    exact .release (by rw [before]; rfl) (by rw [before]; rfl) rfl
  | forget before => exact .erase before rfl rfl
  | close before | closeFail before => exact .transferred before rfl rfl
  | reject before | taken before | announce before | announceFail before | refuse before
  | ready before | notReady before | accept before | create before | openFail before
  | piece before | endOfStream before | readFail before | flush before | spoil before
  | found before | absent before | existsThrows before | remove before | removeThrows before =>
    exact .stay before rfl rfl rfl

/-- What one call of an upload handler does to the index and to the ownership of its name. -/
inductive IndexEffect (s : Server) (u : Upload) (s' : Server) (pc : UploadPc) : Prop
  | stay (files : s'.filesInStorage = s.filesInStorage) (owns : pc.owns = u.pc.owns)
  | insert (fresh : u.filename ∉ s.filesInStorage) (before : u.pc = .reserved)
    (after : pc = .accepted)
    (eq : s' = { s with filesInStorage := s.filesInStorage.insert u.filename })
  | erase (before : u.pc = .announceReleased ∨ u.pc = .forgetting) (owned : u.pc.owns)
    (after : pc = .failed)
    (eq : s' = { s with filesInStorage := s.filesInStorage.erase u.filename })
  | keep (bs : Bytes) (files : s'.filesInStorage = s.filesInStorage) (owned : u.pc.owns)
    (after : pc = .kept bs)

/-- Each call of an upload has one of the effects on the index. -/
theorem next_indexEffect (h : u.next s c = some (s', pc)) : IndexEffect s u s' pc := by
  cases next_effect h with
  | quiet used files share =>
    simp only [UploadPc.share, Prod.mk.injEq] at share
    exact .stay files share.2.1
  | reserve fits before after eq => exact .stay (by rw [eq]) (by rw [before, after]; rfl)
  | release before after eq =>
    simp only [UploadPc.share, Prod.mk.injEq] at after
    exact .stay (by rw [eq]; rfl) after.2.1
  | insert fresh before after eq => exact .insert fresh before after eq
  | erase before after eq =>
    exact .erase before (by rcases before with before | before <;> rw [before] <;> rfl) after eq
  | keep bs used files before after =>
    simp only [UploadPc.share, Prod.mk.injEq] at before
    exact .keep bs files before.2.1 after

/-- A name that comes into the index is that of an upload that is accepted. -/
theorem mem_filesInStorage_of_next {f : Filename} (h : u.next s c = some (s', pc))
    (hf : f ∈ s'.filesInStorage) : f ∈ s.filesInStorage ∨
      f = u.filename ∧ f ∉ s.filesInStorage ∧ u.pc = .reserved ∧ pc = .accepted := by
  cases next_indexEffect h with
  | stay files | keep bs files => exact Or.inl (files ▸ hf)
  | insert fresh before after eq =>
    subst eq
    rcases SortedSet.mem_insert.mp hf with rfl | hf
    · exact Or.inr ⟨rfl, fresh, before, after⟩
    · exact Or.inl hf
  | erase before owned after eq =>
    subst eq
    exact Or.inl (SortedSet.mem_erase.mp hf).2

/-- Space is reserved for an acceptable name only. -/
theorem acceptableName_of_next (h : u.next s c = some (s', pc)) (hpc : pc = .reserved) :
    acceptableName u.filename := by
  cases next_cases h with
  | reserve before name => exact name
  | close | closeFail => unfold afterTransfer at hpc; split_ifs at hpc
  | _ => cases hpc

/-- Only one call is made from `reserved`. -/
theorem addFileToStorage_of_reserved (h : u.next s c = some (s', pc)) (before : u.pc = .reserved) :
    c = .addFileToStorage := by
  cases next_cases h <;> simp_all

/-- Space is given back by an upload that holds it. -/
theorem holds_of_freeSpace (h : u.next s .freeSpace = some (s', pc)) : u.pc.holds := by
  cases next_cases h with
  | freeTaken before | freeAnnounce before | free before => rw [before]; rfl

end Upload

/-! ## What a step can do -/

namespace World

/-- What a step can do to the storage, the uploads and the removal of the loop. -/
inductive StepCase (w : World) : Action → World → Prop
  | upload {i c u s pc} (thread : w.uploads[i]? = some u) (next : u.next w.server c = some (s, pc))
      (terminated : Bool) :
      StepCase w (.upload i c)
        { w with server := s, uploads := w.uploads.set i { u with pc := pc }, terminated }
  | spawn {d seq filename fileSize} (idle : w.loop = .idle)
      (request : Netstore.receive d.payload = .ok (some (.upload seq filename fileSize))) :
      StepCase w (.receive d)
        { w with uploads := w.uploads ++ [⟨d.source, seq, filename, fileSize, .start⟩] }
  | erase {d filename} (idle : w.loop = .idle)
      (request : Netstore.receive d.payload = .ok (some (.remove filename))) :
      StepCase w (.receive d) (w.start d.source (.remove filename))
  | removal {c filename pc w'} (loop : w.loop = .removing filename pc)
      (next : w.removeNext filename pc c = some w') : StepCase w (.remove c) w'
  | other {a w'} (call : ∀ i c, a ≠ .upload i c) (server : w'.server = w.server)
      (uploads : w'.uploads = w.uploads) (removal : w'.loop.removal = w.loop.removal) :
      StepCase w a w'

/-- A terminated server takes no step. -/
theorem live_of_step {w w' : World} {a : Action} (h : w.step a = some w') :
    w.terminated = false := by
  unfold step at h
  rw [ite_eq_iff] at h
  obtain ⟨hlive, -⟩ := h.resolve_left (by simp)
  simpa using hlive

/-- Each step is one of the cases that `StepCase` lists. -/
theorem step_cases {w w' : World} {a : Action} (h : w.step a = some w') : StepCase w a w' := by
  unfold step at h
  rw [ite_eq_iff] at h
  obtain ⟨-, h⟩ := h.resolve_left (by simp)
  cases a with
  | receive d =>
    dsimp only at h
    split_ifs at h with hidle
    split at h
    · cases h
      exact .other nofun rfl rfl (by rw [hidle]; rfl)
    · cases h
      exact .other nofun rfl rfl rfl
    · rename_i r hr
      cases h
      cases r with
      | discover seq => exact .other nofun rfl rfl (by rw [hidle]; rfl)
      | filesList seq pattern => exact .other nofun rfl rfl rfl
      | file seq filename =>
        unfold start
        dsimp only
        split_ifs <;> exact .other nofun rfl rfl rfl
      | remove filename => exact .erase hidle hr
      | upload seq filename fileSize => exact .spawn hidle hr
  | receiveFails =>
    dsimp only at h
    split_ifs at h with hidle
    cases h
    exact .other nofun rfl rfl (by rw [hidle]; rfl)
  | discover ok =>
    dsimp only at h
    split at h
    · rename_i hloop
      cases h
      split_ifs <;> exact .other nofun rfl rfl (by rw [hloop]; rfl)
    · cases h
  | remove c =>
    dsimp only at h
    split at h
    · exact .removal (by assumption) h
    · cases h
  | upload i c =>
    obtain ⟨u, hu, h⟩ := Option.bind_eq_some_iff.mp h
    obtain ⟨⟨s, pc⟩, hn, h⟩ := Option.map_eq_some_iff.mp h
    cases h
    exact .upload hu hn _
  | download i c =>
    obtain ⟨u, hu, h⟩ := Option.bind_eq_some_iff.mp h
    obtain ⟨pc, hn, h⟩ := Option.map_eq_some_iff.mp h
    cases h
    exact .other nofun rfl rfl rfl
  | filesList i sends =>
    obtain ⟨l, hl, h⟩ := Option.bind_eq_some_iff.mp h
    split_ifs at h <;> cases h <;> exact .other nofun rfl rfl rfl

/-- What a call of a removal can do. -/
inductive RemovalCase (w : World) (f : Filename) (pc : RemovalPc) : RemovalCall → World → Prop
  | measure {bs} (before : pc = .erased) (content : w.server.folder.content f = some bs) :
      RemovalCase w f pc (.fileSize true)
        { w with loop := .removing f (.measured (UInt64.ofNat bs.length)) }
  | release {size} (before : pc = .measured size) :
      RemovalCase w f pc .freeSpace
        { w with server := w.server.freeSpace size, loop := .removing f .released }
  | remove {folder} (before : pc = .released) (remove : w.server.folder.remove f = some folder) :
      RemovalCase w f pc (.removeFile true)
        { w with server := { w.server with folder := folder }, loop := .idle }
  | fail {c} (call : c = .fileSize false ∨ c = .removeFile false) :
      RemovalCase w f pc c { w with loop := .idle }

/-- Each call of a removal is one of the cases that `RemovalCase` lists. -/
theorem removeNext_cases {w w' : World} {f : Filename} {pc : RemovalPc} {c : RemovalCall}
    (h : w.removeNext f pc c = some w') : RemovalCase w f pc c w' := by
  cases c with
  | fileSize ok =>
    simp only [removeNext] at h
    split at h
    · split_ifs at h with hok
      · obtain ⟨bs, hbs, rfl⟩ := Option.map_eq_some_iff.mp h
        exact hok ▸ .measure rfl hbs
      · obtain rfl : ok = false := by simpa using hok
        cases h
        exact .fail (Or.inl rfl)
    · cases h
  | freeSpace =>
    simp only [removeNext] at h
    split at h <;> cases h
    exact .release rfl
  | removeFile ok =>
    simp only [removeNext] at h
    split at h
    · split_ifs at h with hok
      · obtain ⟨folder, hr, rfl⟩ := Option.map_eq_some_iff.mp h
        exact hok ▸ .remove rfl hr
      · obtain rfl : ok = false := by simpa using hok
        cases h
        exact .fail (Or.inr rfl)
    · cases h

/-- A removal leaves the uploads as they are. -/
theorem uploads_removeNext {w w' : World} {f : Filename} {pc : RemovalPc} {c : RemovalCall}
    (h : w.removeNext f pc c = some w') : w'.uploads = w.uploads := by
  cases removeNext_cases h <;> rfl

/-- A removal of a name that is not in the index does nothing. -/
theorem start_remove_of_not_mem {w : World} {f : Filename} (source : SockAddr)
    (hidle : w.loop = .idle) (hf : f ∉ w.server.filesInStorage) :
    w.start source (.remove f) = w := by
  have hset : w.server.filesInStorage.erase f = w.server.filesInStorage := by
    ext g
    rw [SortedSet.mem_erase]
    exact ⟨And.right, fun hg => ⟨fun he => hf (he ▸ hg), hg⟩⟩
  simp only [start, Server.removeFileFromStorage, hf, if_false, lt_irrefl, hset]
  rw [← hidle]

/-- A removal erases a name that is in the index. -/
theorem start_remove_of_mem {w : World} {f : Filename} (source : SockAddr)
    (hf : f ∈ w.server.filesInStorage) :
    w.start source (.remove f) = { w with
      server := { w.server with filesInStorage := w.server.filesInStorage.erase f }
      loop := .removing f .erased } := by
  simp [start, Server.removeFileFromStorage, hf]

/-- The loop starts what a request asks for. -/
theorem step_receive {w w' : World} {d : Datagram} {r : Request}
    (hr : Netstore.receive d.payload = .ok (some r)) (h : w.step (.receive d) = some w') :
    w.loop = .idle ∧ w' = w.start d.source r := by
  unfold step at h
  rw [ite_eq_iff] at h
  obtain ⟨-, h⟩ := h.resolve_left (by simp)
  simp only [hr] at h
  split_ifs at h with hidle
  exact ⟨hidle, (Option.some.inj h).symm⟩

/-- A step that is no call of an upload may start one. -/
theorem uploads_step {w w' : World} {a : Action} (h : w.step a = some w')
    (ha : ∀ i c, a ≠ .upload i c) :
    w'.uploads = w.uploads ∨ ∃ u : Upload, u.pc = .start ∧ w'.uploads = w.uploads ++ [u] := by
  cases step_cases h with
  | upload => exact (ha _ _ rfl).elim
  | spawn => exact Or.inr ⟨_, rfl, rfl⟩
  | erase => exact Or.inl rfl
  | removal loop next => exact Or.inl (uploads_removeNext next)
  | other call server uploads removal => exact Or.inl uploads

/-- An upload of the state after a step has made the step, or was there as it is, or is
new. -/
inductive ThreadCase (w : World) (a : Action) (i : ℕ) (u' : Upload) : Prop
  | called {c u s pc} (action : a = .upload i c) (before : w.uploads[i]? = some u)
      (next : u.next w.server c = some (s, pc)) (after : u' = { u with pc := pc })
  | same (before : w.uploads[i]? = some u')
  | new (before : w.uploads[i]? = none) (start : u'.pc = .start)

/-- Each upload after a step has one of the three origins that `ThreadCase` lists. -/
theorem thread_cases {w w' : World} {a : Action} (h : w.step a = some w') {i : ℕ} {u' : Upload}
    (hu : w'.uploads[i]? = some u') : ThreadCase w a i u' := by
  have hother : w'.uploads = w.uploads → ThreadCase w a i u' := fun he =>
    .same (he ▸ hu)
  cases step_cases h with
  | upload thread next terminated =>
    rcases (getElem?_set_eq_some thread).mp hu with ⟨rfl, rfl⟩ | ⟨_, hu⟩
    · exact .called rfl thread next rfl
    · exact .same hu
  | spawn idle request =>
    rcases getElem?_concat_eq_some.mp hu with hu | ⟨rfl, rfl⟩
    · exact .same hu
    · exact .new (List.getElem?_eq_none le_rfl) rfl
  | erase idle request => exact hother rfl
  | removal loop next => exact hother (uploads_removeNext next)
  | other call server uploads removal => exact hother uploads

/-- An upload is still there after a step, as it was or moved by the step. -/
theorem thread_step {w w' : World} {a : Action} (h : w.step a = some w') {i : ℕ} {u : Upload}
    (hu : w.uploads[i]? = some u) : ∃ u', w'.uploads[i]? = some u' ∧ (u' = u ∨
      ∃ c s pc, a = .upload i c ∧ u.next w.server c = some (s, pc) ∧ u' = { u with pc := pc }) := by
  have hother : w'.uploads = w.uploads → ∃ u', w'.uploads[i]? = some u' ∧ (u' = u ∨
      ∃ c s pc, a = .upload i c ∧ u.next w.server c = some (s, pc) ∧ u' = { u with pc := pc }) :=
    fun he => ⟨u, he ▸ hu, Or.inl rfl⟩
  cases step_cases h with
  | @upload j c v s pc thread next terminated =>
    by_cases hij : i = j
    · subst hij
      obtain rfl : u = v := Option.some.inj (hu.symm.trans thread)
      exact ⟨_, (getElem?_set_eq_some thread).mpr (Or.inl ⟨rfl, rfl⟩), Or.inr ⟨c, s, pc, rfl, next, rfl⟩⟩
    · exact ⟨u, (getElem?_set_eq_some thread).mpr (Or.inr ⟨hij, hu⟩), Or.inl rfl⟩
  | spawn idle request => exact ⟨u, getElem?_concat_eq_some.mpr (Or.inl hu), Or.inl rfl⟩
  | erase idle request => exact hother rfl
  | removal loop next => exact hother (uploads_removeNext next)
  | other call server uploads removal => exact hother uploads

/-- What a step can do to the downloads and the files lists. -/
inductive ServeCase (w : World) : Action → World → Prop
  | download {i c u pc w'} (thread : w.downloads[i]? = some u) (next : u.next w.server c = some pc)
      (downloads : w'.downloads = w.downloads.set i { u with pc := pc })
      (listings : w'.listings = w.listings) : ServeCase w (.download i c) w'
  | file {d seq filename w'} (stored : filename ∈ w.server.filesInStorage)
      (request : Netstore.receive d.payload = .ok (some (.file seq filename)))
      (downloads : w'.downloads = w.downloads ++ [⟨d.source, seq, filename, .announcing⟩])
      (listings : w'.listings = w.listings) : ServeCase w (.receive d) w'
  | filesList {d seq pattern w'}
      (request : Netstore.receive d.payload = .ok (some (.filesList seq pattern)))
      (downloads : w'.downloads = w.downloads)
      (listings : w'.listings = w.listings ++ [⟨d.source, seq, pattern, false⟩]) :
      ServeCase w (.receive d) w'
  | listed {i sends l w'} (thread : w.listings[i]? = some l) (downloads : w'.downloads = w.downloads)
      (listings : w'.listings = w.listings.set i { l with ended := true }) :
      ServeCase w (.filesList i sends) w'
  | other {a w'} (downloads : w'.downloads = w.downloads) (listings : w'.listings = w.listings) :
      ServeCase w a w'

theorem serveCase_throw (w : World) (c : CallSite) (a : Action) : ServeCase w a (w.throw c) := by
  unfold throw
  split_ifs <;> exact .other rfl rfl

/-- Each step does to the downloads and the files lists what `ServeCase` says. -/
theorem serve_cases {w w' : World} {a : Action} (h : w.step a = some w') : ServeCase w a w' := by
  unfold step at h
  rw [ite_eq_iff] at h
  obtain ⟨-, h⟩ := h.resolve_left (by simp)
  cases a with
  | receive d =>
    dsimp only at h
    split_ifs at h
    split at h <;> cases h
    · exact serveCase_throw w _ _
    · exact .other rfl rfl
    · rename_i r hr
      cases r with
      | discover seq => exact .other rfl rfl
      | filesList seq pattern => exact .filesList hr rfl rfl
      | file seq filename =>
        by_cases hf : filename ∈ w.server.filesInStorage
        · have hstart : w.start d.source (.file seq filename) = { w with
              downloads := w.downloads ++ [⟨d.source, seq, filename, .announcing⟩] } := by
            simp [start, Server.isInStorage, hf]
          exact .file hf hr (by rw [hstart]) (by rw [hstart])
        · have hstart : w.start d.source (.file seq filename) = w := by
            simp [start, Server.isInStorage, hf]
          exact .other (by rw [hstart]) (by rw [hstart])
      | remove filename => exact .other rfl rfl
      | upload seq filename fileSize => exact .other rfl rfl
  | receiveFails =>
    dsimp only at h
    split_ifs at h
    cases h
    exact serveCase_throw w _ _
  | discover ok =>
    dsimp only at h
    split at h <;> cases h
    split_ifs
    · exact .other rfl rfl
    · exact serveCase_throw w _ _
  | remove c =>
    dsimp only at h
    split at h
    · cases removeNext_cases h <;> exact .other rfl rfl
    · cases h
  | upload i c =>
    obtain ⟨u, hu, h⟩ := Option.bind_eq_some_iff.mp h
    obtain ⟨⟨s, pc⟩, hn, h⟩ := Option.map_eq_some_iff.mp h
    cases h
    exact .other rfl rfl
  | download i c =>
    obtain ⟨u, hu, h⟩ := Option.bind_eq_some_iff.mp h
    obtain ⟨pc, hn, h⟩ := Option.map_eq_some_iff.mp h
    cases h
    exact .download hu hn rfl rfl
  | filesList i sends =>
    obtain ⟨l, hl, h⟩ := Option.bind_eq_some_iff.mp h
    split_ifs at h <;> cases h
    · exact .listed hl rfl rfl
    · exact .other rfl rfl

/-- A download of the state after a step was there, or is of a name in the index. -/
theorem mem_downloads_step {w w' : World} {a : Action} {v : Download} (h : w.step a = some w')
    (hv : v ∈ w'.downloads) : (∃ u ∈ w.downloads, u.filename = v.filename) ∨
      v.filename ∈ w.server.filesInStorage := by
  have hsame : w'.downloads = w.downloads → ∃ u ∈ w.downloads, u.filename = v.filename :=
    fun he => ⟨v, he ▸ hv, rfl⟩
  cases serve_cases h with
  | download thread next downloads listings =>
    rw [downloads] at hv
    rcases mem_set_of_getElem? thread hv with rfl | ⟨j, -, hj⟩
    · exact Or.inl ⟨_, List.mem_of_getElem? thread, rfl⟩
    · exact Or.inl ⟨v, List.mem_of_getElem? hj, rfl⟩
  | file stored request downloads listings =>
    rw [downloads] at hv
    rcases List.mem_append.mp hv with hv | hv
    · exact Or.inl ⟨v, hv, rfl⟩
    · rw [List.mem_singleton.mp hv]
      exact Or.inr stored
  | filesList request downloads listings => exact Or.inl (hsame downloads)
  | listed thread downloads listings => exact Or.inl (hsame downloads)
  | other downloads listings => exact Or.inl (hsame downloads)

/-- A download is still there after a step, as it was or moved by the step. -/
theorem download_step {w w' : World} {a : Action} (h : w.step a = some w') {i : ℕ} {u : Download}
    (hu : w.downloads[i]? = some u) : ∃ u', w'.downloads[i]? = some u' ∧ (u' = u ∨
      ∃ c pc, a = .download i c ∧ u.next w.server c = some pc ∧ u' = { u with pc := pc }) := by
  have hother : w'.downloads = w.downloads → ∃ u', w'.downloads[i]? = some u' ∧ (u' = u ∨
      ∃ c pc, a = .download i c ∧ u.next w.server c = some pc ∧ u' = { u with pc := pc }) :=
    fun he => ⟨u, he ▸ hu, Or.inl rfl⟩
  cases serve_cases h with
  | @download j c v pc _ thread next downloads listings =>
    rw [downloads]
    by_cases hij : i = j
    · subst hij
      obtain rfl : u = v := Option.some.inj (hu.symm.trans thread)
      exact ⟨_, (getElem?_set_eq_some thread).mpr (Or.inl ⟨rfl, rfl⟩), Or.inr ⟨c, pc, rfl, next, rfl⟩⟩
    · exact ⟨u, (getElem?_set_eq_some thread).mpr (Or.inr ⟨hij, hu⟩), Or.inl rfl⟩
  | file stored request downloads listings =>
    exact ⟨u, downloads ▸ getElem?_concat_eq_some.mpr (Or.inl hu), Or.inl rfl⟩
  | filesList request downloads listings => exact hother downloads
  | listed thread downloads listings => exact hother downloads
  | other downloads listings => exact hother downloads

/-- A files list handler of the state after a step was there, or is new. -/
theorem mem_listings_step {w w' : World} {a : Action} (h : w.step a = some w') {l' : Listing}
    (hl : l' ∈ w'.listings) : (∃ l ∈ w.listings, l' = { l with ended := l'.ended }) ∨
      ∃ d, a = .receive d ∧ l'.destinationAddress = d.source ∧
        Netstore.receive d.payload = .ok (some (.filesList l'.messageSeq l'.pattern)) := by
  have hsame : w'.listings = w.listings → ∃ l ∈ w.listings, l' = { l with ended := l'.ended } :=
    fun he => ⟨l', he ▸ hl, rfl⟩
  cases serve_cases h with
  | download thread next downloads listings => exact Or.inl (hsame listings)
  | file stored request downloads listings => exact Or.inl (hsame listings)
  | filesList request downloads listings =>
    rw [listings] at hl
    rcases List.mem_append.mp hl with hl | hl
    · exact Or.inl ⟨l', hl, rfl⟩
    · obtain rfl := List.mem_singleton.mp hl
      exact Or.inr ⟨_, rfl, rfl, request⟩
  | listed thread downloads listings =>
    rw [listings] at hl
    rcases mem_set_of_getElem? thread hl with rfl | ⟨j, -, hj⟩
    · exact Or.inl ⟨_, List.mem_of_getElem? thread, rfl⟩
    · exact Or.inl ⟨l', List.mem_of_getElem? hj, rfl⟩
  | other downloads listings => exact Or.inl (hsame listings)

/-! ## The counter -/

/-- What the step adds to the counter or subtracts from it stays in its 64 bits. -/
def NoWrap (w : World) : Action → Prop
  | .upload i c =>
    match c, w.uploads[i]? with
    | .checkAndReserveSpace, some u =>
      (w.server.checkAndReserveSpace u.fileSize).1 →
        w.server.usedSpace.toNat + u.fileSize.toNat < 2 ^ 64
    | .freeSpace, some u => u.fileSize.toNat ≤ w.server.usedSpace.toNat
    | _, _ => True
  | .remove c =>
    match c, w.loop with
    | .freeSpace, .removing _ (.measured size) => size.toNat ≤ w.server.usedSpace.toNat
    | _, _ => True
  | _ => True

/-- The counter does not wrap if it covers each upload that holds space and the size
that a removal has measured. -/
theorem noWrap_of_le {w w' : World} {a : Action}
    (hup : ∀ {i : ℕ} {u : Upload}, w.uploads[i]? = some u → u.pc.holds →
      u.fileSize.toNat ≤ w.server.usedSpace.toNat)
    (hrem : ∀ {f size}, w.loop = .removing f (.measured size) →
      size.toNat ≤ w.server.usedSpace.toNat)
    (hs : w.step a = some w') : NoWrap w a := by
  cases a with
  | upload i c =>
    cases step_cases hs with
    | @upload _ _ u s pc thread next terminated =>
      cases c with
      | checkAndReserveSpace =>
        simp only [NoWrap, thread]
        intro hr
        have := (w.server.checkAndReserveSpace_iff _).mp hr
        have := w.server.maxAvailableSpace.toNat_lt
        omega
      | freeSpace =>
        simp only [NoWrap, thread]
        exact hup thread (Upload.holds_of_freeSpace next)
      | _ => simp [NoWrap]
    | other call => exact (call i c rfl).elim
  | remove c =>
    simp only [NoWrap]
    split
    · rename_i hl
      exact hrem hl
    · trivial
  | _ => trivial

/-! ## Uploads of a name -/

/-- The `i`-th upload is of the name `f` and stands where `p` holds. -/
def Has (w : World) (p : UploadPc → Bool) (i : ℕ) (f : Filename) : Prop :=
  ∃ u, w.uploads[i]? = some u ∧ p u.pc ∧ u.filename = f

section Has

variable {w w' : World} {p : UploadPc → Bool} {i j : ℕ} {f : Filename} {u : Upload} {s : Server}
  {pc : UploadPc} {t : Bool}

theorem has_set (hu : w.uploads[i]? = some u) :
    Has { w with server := s, uploads := w.uploads.set i { u with pc := pc }, terminated := t }
        p j f ↔
      (j = i ∧ p pc ∧ u.filename = f) ∨ (j ≠ i ∧ w.Has p j f) := by
  simp only [Has, getElem?_set_eq_some hu]
  constructor
  · rintro ⟨v, ⟨rfl, rfl⟩ | ⟨hj, hv⟩, ha, hf⟩
    · exact Or.inl ⟨rfl, ha, hf⟩
    · exact Or.inr ⟨hj, v, hv, ha, hf⟩
  · rintro (⟨rfl, ha, hf⟩ | ⟨hj, v, hv, ha, hf⟩)
    · exact ⟨_, Or.inl ⟨rfl, rfl⟩, ha, hf⟩
    · exact ⟨v, Or.inr ⟨hj, hv⟩, ha, hf⟩

/-- Whether the upload is of the name and stands where `p` holds can be read off its thread. -/
theorem has_self (hu : w.uploads[i]? = some u) : w.Has p i f ↔ p u.pc ∧ u.filename = f := by
  simp [Has, hu]

/-- A move between two points where `p` agrees changes nothing that `p` says. -/
theorem has_set_of_eq (hu : w.uploads[i]? = some u) (hpc : p pc = p u.pc) :
    Has { w with server := s, uploads := w.uploads.set i { u with pc := pc }, terminated := t }
        p j f ↔ w.Has p j f := by
  rw [has_set hu, hpc]
  by_cases hj : j = i
  · subst hj
    simp [has_self hu]
  · simp [hj]

theorem has_congr (h : w'.uploads = w.uploads) : w'.Has p i f ↔ w.Has p i f := by
  rw [Has, Has, h]

/-- A new upload has nothing. -/
theorem has_append (hu : p u.pc = false) :
    Has { w with uploads := w.uploads ++ [u] } p i f ↔ w.Has p i f := by
  simp only [Has, List.getElem?_append]
  constructor
  · rintro ⟨v, hv, ha, hf⟩
    split_ifs at hv with hi
    · exact ⟨v, hv, ha, hf⟩
    · obtain rfl := List.mem_singleton.mp (List.mem_of_getElem? hv)
      rw [hu] at ha
      exact absurd ha (by decide)
  · rintro ⟨v, hv, ha, hf⟩
    exact ⟨v, by rwa [if_pos (List.getElem?_eq_some_iff.mp hv).1], ha, hf⟩

end Has

end World

end Netstore
