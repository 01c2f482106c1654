import Netstore.ClientUpload
import Netstore.Escape
import Netstore.Refinement

/-!
# A client and a server

One client uploads a file to a server that handles no other upload. The state of both
(`Exchange`) has the answers that the server has sent, any of which the client may
receive or not, and the connection : what the client has written to it, which the kernel
takes whatever the server does, and how much of that the server has read.

`Exchange.InStep` is what the two sides keep while nothing fails at the handler and the
name is not removed : what the handler has received is what it has read of the
connection, and it comes to its cleanup only when the client has failed.
-/

namespace Netstore

open Transition

/-- Neither a call nor the transfer fails. -/
def UploadCall.goesWell (c : UploadCall) : Bool :=
  c.succeeds && .broke ∉ c.outputs

/-- What the server has to say to the client. -/
def Upload.answers (u : Upload) : UploadCall → List Bytes
  | .announce port => (port.bind u.acceptance).toList
  | .refuse true => u.refusal.toList
  | _ => []

/-- The port that the call announces. -/
def UploadCall.announced : UploadCall → Option UInt16
  | announce port => port
  | _ => none

/-- How many bytes the call takes from the connection. -/
def UploadCall.readLength : UploadCall → ℕ
  | read (.piece bs) => bs.length
  | _ => 0

/-- A step that starts no upload and is no call of one. -/
def Action.foreign : Action → Bool
  | .upload _ _ => false
  | .receive d =>
    match Netstore.receive d.payload with
    | .ok (some (.upload _ _ _)) => false
    | _ => true
  | _ => true

/-- A server and a client that uploads a file to it. -/
structure Exchange where
  world : World
  pc : ClientPc
  /-- What the server has sent to the client. -/
  answers : List Bytes
  /-- The port that the server has announced. -/
  port : Option UInt16
  connected : Bool
  /-- What the client has written to the connection. -/
  sent : Bytes
  /-- How much of it the server has read. -/
  taken : ℕ

/-- A step of the client, of its handler or of the rest of the server. -/
inductive ExchangeAction where
  /-- The server's loop receives the request of the client. -/
  | deliver
  /-- A call of the client's handler. -/
  | handler (call : UploadCall)
  /-- Another step of the server. -/
  | server (a : Action)
  | client (call : ClientCall)
  deriving DecidableEq

namespace Exchange

/-- Before the request is delivered. -/
def start (w : World) : Exchange :=
  ⟨w, .asking, [], none, false, [], 0⟩

variable (c : Client) (x : Exchange)

/-- The handler's socket is open, with this port. -/
def listens (port : UInt16) : Bool :=
  x.port = some port && x.world.uploads.any fun u => !u.pc.ended

/-- What the connection can give to a call of the handler. -/
def offers (u : Upload) : UploadCall → Prop
  | .select .ready | .accept true => x.connected
  | .read (.piece bs) => bs <+: x.sent.drop x.taken
  | .read .endOfStream =>
    match u.pc with
    | .receiving _ _ toUpload _ => toUpload = 0 ∨ x.pc.closed ∧ x.sent.length ≤ x.taken
    | _ => True
  | _ => True

instance (u : Upload) (call : UploadCall) : Decidable (x.offers u call) := by
  unfold offers
  split
  all_goals try infer_instance
  split <;> infer_instance

/-- What the environment allows of a call of the client. -/
def allows : ClientCall → Bool
  | .answer payload => payload ∈ x.answers
  | .connect true =>
    match x.pc with
    | .connecting port => x.listens port
    | _ => false
  | _ => true

/-- The two sides meet in the request, the announcement and the connection. -/
def step (c : Client) (x : Exchange) : ExchangeAction → Option Exchange
  | .deliver =>
    if x.world.uploads.isEmpty then
      (addRequest c.messageSeq c.filename c.fileSize).bind fun payload =>
        (x.world.step (.receive ⟨c.source, payload⟩)).map fun w => { x with world := w }
    else none
  | .handler call =>
    x.world.uploads[0]?.bind fun u =>
      if x.offers u call then
        (x.world.step (.upload 0 call)).map fun w =>
          { x with
            world := w
            answers := x.answers ++ u.answers call
            port := call.announced.or x.port
            taken := x.taken + call.readLength }
      else none
  | .server a =>
    if a.foreign then (x.world.step a).map fun w => { x with world := w } else none
  | .client call =>
    if x.allows call then
      (c.next x.pc call).map fun pc =>
        { x with
          pc
          connected := call.connects x.connected
          sent := x.sent ++ x.pc.written call }
    else none

/-- The server keeps the file of the client. -/
def Keeps : Prop :=
  c.filename ∈ x.world.server.filesInStorage ∧
    x.world.server.folder.content c.filename = some c.content

/-- The name is not removed. -/
def NotRemoved (_ : Exchange) : ExchangeAction → Prop
  | .server a => World.beginsRemoval c.filename a = false
  | _ => True

/-- Nothing fails at the handler. -/
def GoesWell (_ : Exchange) : ExchangeAction → Prop
  | .handler call => call.goesWell
  | _ => True

instance (a : ExchangeAction) : Decidable (x.NotRemoved c a) := by
  unfold NotRemoved
  split <;> infer_instance

instance (a : ExchangeAction) : Decidable (x.GoesWell a) := by
  unfold GoesWell
  split <;> infer_instance

end Exchange

/-! ## The handler of an upload that goes well -/

theorem UploadCall.writesOk_of_goesWell {call : UploadCall} (h : call.goesWell) :
    call.writesOk := by
  cases call <;> first | rfl | simpa [goesWell, succeeds, outputs, writesOk] using h

theorem UploadCall.not_cleanupThrows_of_goesWell {call : UploadCall} (h : call.goesWell) :
    call.cleanupThrows = false := by
  cases call <;> first | rfl | simpa [goesWell, succeeds, outputs, cleanupThrows] using h

/-- The only upload of a name that is not being removed keeps its name in the index, and
keeps a name that is not there without a file. -/
theorem Upload.next_alone {s s' : Server} {u : Upload} {call : UploadCall} {pc : UploadPc}
    (hn : u.next s call = some (s', pc)) (hu : u.OnDisk s.folder none)
    (howns : u.pc.owns → u.filename ∈ s.filesInStorage)
    (habsent : u.filename ∉ s.filesInStorage → s.folder.inode u.filename = none)
    (hok : call.writesOk) :
    OnDisk s'.folder none { u with pc := pc } ∧ (pc.owns → u.filename ∈ s'.filesInStorage) ∧
      (u.filename ∉ s'.filesInStorage → s'.folder.inode u.filename = none) := by
  obtain ⟨hdisk, hframe⟩ := onDisk_next hn hu (fun hf => Or.inl (habsent hf)) hok fun _ => nofun
  refine ⟨hdisk, ?_⟩
  cases next_indexEffect hn with
  | stay files owns =>
    refine ⟨fun ho => files ▸ howns (owns ▸ ho), fun hf => ?_⟩
    rw [files] at hf
    rw [hframe.resolve_right fun h => hf (howns h.1)]
    exact habsent hf
  | insert fresh before after eq =>
    have hmem : u.filename ∈ s'.filesInStorage := by simp [eq]
    exact ⟨fun _ => hmem, fun hf => (hf hmem).elim⟩
  | erase before owned after eq =>
    refine ⟨fun ho => by simp [after, UploadPc.owns] at ho, fun _ => ?_⟩
    rw [eq]
    rcases before with before | before <;> simp only [OnDisk, before] at hu
    · exact hu.resolve_right nofun
    · exact hu
  | keep bs files owned after =>
    have hmem : u.filename ∈ s'.filesInStorage := files ▸ howns owned
    exact ⟨fun _ => hmem, fun hf => (hf hmem).elim⟩

/-! ## The two sides in step -/

/-- The handler of the client's request. -/
def Client.handler (c : Client) (pc : UploadPc) : Upload :=
  ⟨c.source, c.messageSeq, c.filename, c.fileSize, pc⟩

theorem Client.next_of_closed {c : Client} {pc : ClientPc} (h : pc.closed) (call : ClientCall) :
    c.next pc call = none := by
  cases pc <;> cases call <;> simp_all [Client.next, ClientPc.closed]

namespace Exchange

variable {c : Client} {x x' : Exchange} {pc : UploadPc}

/-- What the handler has taken of the connection, where it stands, if nothing has failed
at the server. It comes to its cleanup only when the client has failed. -/
def Took (x : Exchange) (u : Upload) : Prop :=
  match u.pc with
  | .start | .reserved | .nameTaken | .refusing | .refused | .accepted =>
    x.port = none ∧ x.connected = false ∧ x.taken = 0
  | .waiting => x.taken = 0
  | .connecting => x.connected ∧ x.taken = 0
  | .opening failed => failed = false ∧ x.connected ∧ x.taken = 0
  | .receiving failed _ _ received =>
    failed = false ∧ received = x.sent.take x.taken ∧ x.taken ≤ x.sent.length
  | .closing failed _ toUpload received =>
    failed = false ∧ received = x.sent.take x.taken ∧ x.taken ≤ x.sent.length ∧
      (toUpload = 0 ∨ x.pc.closed ∧ x.sent.length ≤ x.taken)
  | .kept received =>
    received = x.sent.take x.taken ∧ x.taken ≤ x.sent.length ∧
      received.length = u.fileSize.toNat
  | .checking | .removing | .releasing | .forgetting | .failed => x.pc = .failed true
  | _ => False

/-- Every call of the handler keeps this, if it goes well. -/
theorem Took.next {u : Upload} {s s' : Server} {call : UploadCall} {target : Option Filename}
    (h : x.Took u) (hsize : u.fileSize = c.fileSize) (hw : c.Wrote x.pc x.connected x.sent)
    (hn : u.next s call = some (s', pc)) (hc : call.goesWell) (hoff : x.offers u call)
    (hu : u.OnDisk s.folder target) (w : World) (answers : List Bytes) :
    Took { x with
      world := w, answers := answers, port := call.announced.or x.port
      taken := x.taken + call.readLength } { u with pc := pc } := by
  unfold Took at h
  cases Upload.next_cases hn with
  | reserve before | reject before | add before | taken before | freeTaken before | refuse before
  | free before | flush before | found before | absent before | remove before =>
    rw [before] at h
    exact h
  | freeAnnounce before => rw [before] at h; exact h.elim
  | forget before =>
    rcases before with before | before <;> rw [before] at h
    · exact h.elim
    · exact h
  | announce before port => rw [before] at h; exact h.2.2
  | ready before => rw [before] at h; exact ⟨hoff, h⟩
  | @notReady r before result =>
    cases r
    · exact (result rfl).elim
    · cases hc
    · cases hc
  | accept before ok =>
    obtain rfl : ok = true := by cases ok <;> first | rfl | cases hc
    rw [before] at h
    exact ⟨rfl, h⟩
  | create before opened =>
    rw [before] at h
    obtain ⟨rfl, -, htaken⟩ := h
    exact ⟨rfl, by simp [htaken, UploadCall.readLength], by simp [htaken, UploadCall.readLength]⟩
  | @piece failed st toUpload received bs before pos le =>
    rw [before] at h
    obtain ⟨rfl, rfl, hle⟩ := h
    exact ⟨rfl, (Bytes.take_add_of_prefix hoff).symm, Bytes.add_length_le_of_prefix hoff hle⟩
  | endOfStream before =>
    rw [before] at h
    simp only [offers, before] at hoff
    exact ⟨h.1, h.2.1, h.2.2, hoff⟩
  | @close failed st toUpload received before =>
    rw [before] at h
    obtain ⟨rfl, rfl, hle, hend⟩ := h
    have hleft : toUpload.toNat + (x.sent.take x.taken).length = u.fileSize.toNat := by
      simp only [Upload.OnDisk, before] at hu
      exact hu.left
    simp only [Upload.afterTransfer, Bool.false_eq_true, false_or]
    split_ifs with hshort
    · -- the connection was closed early, so the client has not reported a success
      obtain ⟨hclosed, hall⟩ := hend.resolve_left hshort
      cases hpc : x.pc with
      | succeeded closed =>
        rw [hpc] at hw
        rw [List.take_of_length_le hall, hw.2, hsize, c.toNat_fileSize] at hleft
        exact absurd (UInt64.toNat_inj.mp (by rw [UInt64.toNat_zero]; omega)) hshort
      | failed closed =>
        rw [hpc] at hclosed
        exact congrArg ClientPc.failed hclosed
      | _ => rw [hpc] at hclosed; cases hclosed
    · obtain rfl : toUpload = 0 := by simpa using hshort
      exact ⟨rfl, hle, by rw [← hleft, UInt64.toNat_zero, Nat.zero_add]⟩
  | announceFail | openFail | readFail | spoil | closeFail | existsThrows | removeThrows => cases hc

/-- So does what the client writes. -/
theorem Took.client {u : Upload} {cpc : ClientPc} {connected : Bool} {bs : Bytes} (h : x.Took u)
    (hopen : x.pc.closed = false) (hconn : x.connected → connected)
    (hport : x.port = none → connected = x.connected) :
    Took { x with pc := cpc, connected, sent := x.sent ++ bs } u := by
  unfold Took at h ⊢
  cases hpc : u.pc with
  | start | reserved | nameTaken | refusing | refused | accepted =>
    rw [hpc] at h
    exact ⟨h.1, (hport h.1).trans h.2.1, h.2.2⟩
  | waiting => rw [hpc] at h; exact h
  | connecting => rw [hpc] at h; exact ⟨hconn h.1, h.2⟩
  | opening failed => rw [hpc] at h; exact ⟨h.1, hconn h.2.1, h.2.2⟩
  | receiving failed st toUpload received =>
    rw [hpc] at h
    obtain ⟨hf, hrec, hle⟩ := h
    exact ⟨hf, by rw [hrec, List.take_append_of_le_length hle], hle.trans (by simp)⟩
  | closing failed st toUpload received =>
    rw [hpc] at h
    obtain ⟨hf, hrec, hle, hend⟩ := h
    exact ⟨hf, by rw [hrec, List.take_append_of_le_length hle], hle.trans (by simp),
      Or.inl (hend.resolve_right fun hc => by simp [hopen] at hc)⟩
  | kept received =>
    rw [hpc] at h
    obtain ⟨hrec, hle, hlen⟩ := h
    exact ⟨by rw [hrec, List.take_append_of_le_length hle], hle.trans (by simp), hlen⟩
  | checking | removing | releasing | forgetting | failed =>
    rw [hpc] at h
    rw [show x.pc = .failed true from h] at hopen
    cases hopen
  | _ => rw [hpc] at h; exact h.elim

/-- What there is of the upload when its handler stands at `pc`. -/
structure Handles (c : Client) (x : Exchange) (pc : UploadPc) : Prop where
  took : x.Took (c.handler pc)
  onDisk : (c.handler pc).OnDisk x.world.server.folder none
  indexed : pc.owns → c.filename ∈ x.world.server.filesInStorage
  kept : ∀ {received}, pc = .kept received → c.filename ∈ x.world.server.filesInStorage ∧
    x.world.server.folder.content c.filename = some received

/-- The two sides as they are kept by runs in which nothing fails at the handler and the
name is not removed. -/
structure InStep (c : Client) (x : Exchange) : Prop where
  live : x.world.terminated = false
  target : x.world.loop.target ≠ some c.filename
  wrote : c.Wrote x.pc x.connected x.sent
  absent : c.filename ∉ x.world.server.filesInStorage →
    x.world.server.folder.inode c.filename = none
  handling : x.world.uploads = [] ∧ x.port = none ∧ x.connected = false ∧ x.taken = 0 ∨
    ∃ pc, x.world.uploads = [c.handler pc] ∧ x.Handles c pc

theorem InStep.deliver (h : InStep c x) (hs : x.step c .deliver = some x') : InStep c x' := by
  simp only [step] at hs
  split_ifs at hs with hempty
  have hup : x.world.uploads = [] := by simpa using hempty
  obtain ⟨hport, hconn, htaken⟩ : x.port = none ∧ x.connected = false ∧ x.taken = 0 := by
    rcases h.handling with ⟨-, h⟩ | ⟨pc, he, -⟩
    · exact h
    · simp [hup] at he
  obtain ⟨payload, hp, hs⟩ := Option.bind_eq_some_iff.mp hs
  obtain ⟨w, hw, rfl⟩ := Option.map_eq_some_iff.mp hs
  have hlen : c.filename.length ≤ maxComplexDataSize := c.filename_length_le.trans (by decide)
  obtain ⟨payload', hp', hr⟩ := receive_addRequest c.messageSeq c.fileSize c.zero_not_mem hlen
  obtain rfl : payload' = payload := Option.some.inj (hp'.symm.trans hp)
  obtain ⟨hidle, rfl⟩ := World.step_receive hr hw
  refine ⟨h.live, h.target, h.wrote, h.absent, Or.inr ⟨.start, ?_, ?_⟩⟩
  · simp [World.start, hup, Client.handler]
  · refine ⟨⟨hport, hconn, htaken⟩, trivial, fun ho => ?_, fun hpc => ?_⟩
    · cases ho
    · cases hpc

theorem InStep.handler {call : UploadCall} (h : InStep c x) (hc : call.goesWell)
    (hs : x.step c (.handler call) = some x') : InStep c x' := by
  simp only [step] at hs
  obtain ⟨u, hu, hs⟩ := Option.bind_eq_some_iff.mp hs
  split_ifs at hs with hoff
  obtain ⟨w, hw, rfl⟩ := Option.map_eq_some_iff.mp hs
  obtain ⟨pc, hup, hh⟩ := h.handling.resolve_left fun h => by simp [h.1] at hu
  obtain rfl : c.handler pc = u := by simpa [hup] using hu
  have hlive : w.terminated = false := by
    have := World.terminated_step hw
    rw [World.cleanupThrows, UploadCall.not_cleanupThrows_of_goesWell hc] at this
    simpa using this
  have hok := UploadCall.writesOk_of_goesWell hc
  cases World.step_cases hw with
  | @upload _ _ v s pc' thread next terminated =>
    obtain rfl : c.handler pc = v := by simpa [hup] using thread
    obtain ⟨hdisk, howns, habsent⟩ := Upload.next_alone next hh.onDisk hh.indexed h.absent hok
    refine ⟨hlive, h.target, h.wrote, habsent, Or.inr ⟨pc', by simp [hup, Client.handler], ?_⟩⟩
    refine ⟨hh.took.next rfl h.wrote next hc hoff hh.onDisk _ _, hdisk, howns, ?_⟩
    rintro received rfl
    obtain ⟨⟨ok, st, rfl, hclosing⟩, hserver⟩ := Upload.closing_of_kept next
    refine ⟨?_, (Upload.content_of_kept next hh.onDisk hok).1⟩
    have hmem : c.filename ∈ x.world.server.filesInStorage :=
      hh.indexed (by rw [show pc = _ from hclosing]; rfl)
    exact congrArg Server.filesInStorage hserver ▸ hmem
  | other call' => exact (call' 0 call rfl).elim

/-- A step that is none of an upload leaves what a name has, unless it removes it. -/
theorem foreign_step {w w' : World} {a : Action} {f : Filename} (ha : a.foreign)
    (hrem : World.beginsRemoval f a = false) (ht : w.loop.target ≠ some f)
    (hs : w.step a = some w') :
    w'.uploads = w.uploads ∧ w'.loop.target ≠ some f ∧
      (f ∈ w'.server.filesInStorage ↔ f ∈ w.server.filesInStorage) ∧
      (w'.server.folder = w.server.folder ∨
        ∃ g, f ≠ g ∧ w.server.folder.ChangesOnly w'.server.folder g) := by
  cases World.step_cases hs with
  | upload thread next terminated => cases ha
  | spawn idle request => simp [Action.foreign, request] at ha
  | @erase d g idle request =>
    have hne : f ≠ g := by
      rintro rfl
      simp [World.beginsRemoval, Action.removes_receive request] at hrem
    refine ⟨rfl, ?_, by simp [World.start, Server.removeFileFromStorage, hne], Or.inl rfl⟩
    simp only [World.start]
    split_ifs
    · simpa [World.target_removing] using hne.symm
    · simp [World.target_idle]
  | @removal call g pc w' loop next =>
    have hne : f ≠ g := fun he => ht (by rw [loop, he]; rfl)
    cases World.removeNext_cases next with
    | measure before content =>
      exact ⟨rfl, by simpa [World.target_removing] using hne.symm, Iff.rfl, Or.inl rfl⟩
    | release before =>
      exact ⟨rfl, by simpa [World.target_removing] using hne.symm, Iff.rfl, Or.inl rfl⟩
    | remove before remove =>
      exact ⟨rfl, by simp [World.target_idle], Iff.rfl,
        Or.inr ⟨g, hne, Folder.changesOnly_remove remove⟩⟩
    | fail call => exact ⟨rfl, by simp [World.target_idle], Iff.rfl, Or.inl rfl⟩
  | other call server uploads removal =>
    exact ⟨uploads, by rwa [Loop.target, removal], by rw [server], Or.inl (by rw [server])⟩

theorem InStep.server {a : Action} (h : InStep c x)
    (hrem : World.beginsRemoval c.filename a = false)
    (hs : x.step c (.server a) = some x') : InStep c x' := by
  simp only [step] at hs
  split_ifs at hs with ha
  obtain ⟨w, hw, rfl⟩ := Option.map_eq_some_iff.mp hs
  obtain ⟨hup, htarget, hmem, hframe⟩ := foreign_step ha hrem h.target hw
  have hlive : w.terminated = false := by
    have hthrow : World.cleanupThrows a = false := by cases a <;> first | rfl | cases ha
    have := World.terminated_step hw
    rw [hthrow] at this
    simpa using this
  have hinode : w.server.folder.inode c.filename = x.world.server.folder.inode c.filename := by
    rcases hframe with he | ⟨g, hne, hc⟩
    · rw [he]
    · exact hc.inode hne
  have hcontent :
      w.server.folder.content c.filename = x.world.server.folder.content c.filename := by
    rcases hframe with he | ⟨g, hne, hc⟩
    · rw [he]
    · exact hc.content hne
  refine ⟨hlive, htarget, h.wrote, fun hf => ?_, ?_⟩
  · rw [hinode]
    exact h.absent fun hf' => hf (hmem.mpr hf')
  · rcases h.handling with ⟨he, h⟩ | ⟨pc, he, hh⟩
    · exact Or.inl ⟨hup.trans he, h⟩
    · refine Or.inr ⟨pc, hup.trans he, hh.took, ?_, fun ho => hmem.mpr (hh.indexed ho), ?_⟩
      · rcases hframe with he | ⟨g, hne, hc⟩
        · exact he ▸ hh.onDisk
        · exact hh.onDisk.of_changesOnly hc hne
      · intro received hpc
        exact ⟨hmem.mpr (hh.kept hpc).1, hcontent.trans (hh.kept hpc).2⟩

/-- A client connects when it is not connected, and only to a port that is announced. -/
theorem connects_of_step {call : ClientCall} (hw : c.Wrote x.pc x.connected x.sent)
    (hallow : x.allows call) (hn : (c.next x.pc call).isSome) :
    (x.connected → call.connects x.connected) ∧
      (x.port = none → call.connects x.connected = x.connected) := by
  cases call with
  | connect ok =>
    simp only [Client.next] at hn
    split at hn
    case h_1 hpc =>
      have hconn : x.connected = false := by
        rw [hpc] at hw
        exact hw.1
      cases ok with
      | false => simp [hconn, ClientCall.connects]
      | true =>
        simp only [allows, hpc, listens, Bool.and_eq_true, decide_eq_true_eq] at hallow
        simp [hconn, hallow.1]
    case h_2 => cases hn
  | _ => exact ⟨id, fun _ => rfl⟩

theorem InStep.client {call : ClientCall} (h : InStep c x)
    (hs : x.step c (.client call) = some x') : InStep c x' := by
  simp only [step] at hs
  split_ifs at hs with hallow
  obtain ⟨cpc, hn, rfl⟩ := Option.map_eq_some_iff.mp hs
  have hopen : x.pc.closed = false := by
    by_contra hclosed
    rw [Client.next_of_closed (by simpa using hclosed)] at hn
    cases hn
  obtain ⟨hkeep, hport⟩ := connects_of_step h.wrote hallow (by simp [hn])
  refine ⟨h.live, h.target, h.wrote.next hn, h.absent, ?_⟩
  rcases h.handling with ⟨he, hp, hconn, htaken⟩ | ⟨pc, he, hh⟩
  · exact Or.inl ⟨he, hp, (hport hp).trans hconn, htaken⟩
  · exact Or.inr ⟨pc, he, hh.took.client hopen hkeep hport, hh.onDisk, hh.indexed, hh.kept⟩

/-- Every step keeps the two sides in step. -/
theorem InStep.step {a : ExchangeAction} (h : InStep c x) (hg : x.GoesWell a)
    (hrem : x.NotRemoved c a) (hs : x.step c a = some x') : InStep c x' := by
  cases a with
  | deliver => exact h.deliver hs
  | handler call => exact h.handler hg hs
  | server a => exact h.server hrem hs
  | client call => exact h.client hs

theorem inStep_start {max : UInt64} {folder : Folder Filename} {listing : List Filename}
    (hl : World.Lists listing folder) :
    InStep c (start (World.initial (Server.generateFilesInStorage max folder listing))) where
  live := rfl
  target := nofun
  wrote := ⟨rfl, rfl⟩
  absent hf := ((World.undisturbed_initial hl).absent hf).resolve_right nofun
  handling := Or.inl ⟨rfl, rfl, rfl, rfl⟩

end Exchange

end Netstore
