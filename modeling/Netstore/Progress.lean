import Netstore.Disk
import Netstore.Format
import Netstore.UploadLoops

/-!
# An upload that nothing hinders

`UploadLoops` follows the two sides of an upload from the connection on, when nothing else
happens. Here they are followed from the request on, and the server goes on with its other work : it
answers, lets others download, and removes other names. An upload whose name is new and acceptable
and whose file fits, and of which no call fails, makes a bounded number of calls. Until the client
has reported it and closed, and the server has kept the file, there is a call that one of the two
sides can make (`completed_of_smooth`). So neither side waits for ever for the other.
-/

namespace Netstore

open Transition

/-! ## The calls -/

/-- The call does not fail, and the client does not give up. -/
def ClientCall.goesWell : ClientCall → Bool
  | answer _ => true
  | connect ok => ok
  | call => call.inLoop

/-- A call of one of the two sides, or the delivery of the request. -/
def ExchangeAction.own : ExchangeAction → Bool
  | .server _ => false
  | a => !a.isFlush

/-- The calls that are left of a client with a file of `n` bytes. -/
def ClientPc.way (n : ℕ) : ClientPc → ℕ
  | asking => blockSteps n 0 + 4
  | connecting _ => blockSteps n 0 + 3
  | pc => pc.left n

/-- The calls that are left of a handler of a file of `n` bytes. -/
def UploadPc.way (n taken : ℕ) : UploadPc → ℕ
  | start => n + 8
  | reserved => n + 7
  | accepted => n + 6
  | pc => pc.left n taken

/-- The client has no connection yet, and goes to the port that is announced. -/
def ClientPc.Greets (port : Option UInt16) : ClientPc → Prop
  | asking => True
  | connecting p => port = some p
  | _ => False

namespace Exchange

variable (c : Client) (x : Exchange)

/-- No call fails, and what else the server does is orderly and leaves the name. -/
def Smooth : ExchangeAction → Prop
  | .deliver => True
  | .handler call => call.goesWell
  | .client call => call.goesWell
  | .server a => World.Orderly x.world a ∧ World.beginsRemoval c.filename a = false

instance (a : ExchangeAction) : Decidable (x.Smooth c a) :=
  match a with
  | .deliver => instDecidableTrue
  | .handler call => instDecidableEqBool call.goesWell true
  | .client call => instDecidableEqBool call.goesWell true
  | .server a => inferInstanceAs
      (Decidable (World.Orderly x.world a ∧ World.beginsRemoval c.filename a = false))

/-- What a handler that has not announced its port will find. -/
def Admits : UploadPc → Prop
  | .start => c.filename ∉ x.world.server.filesInStorage ∧
      x.world.server.usedSpace.toNat + c.content.length ≤ x.world.server.maxAvailableSpace.toNat
  | .reserved => c.filename ∉ x.world.server.filesInStorage
  | .accepted => True
  | _ => False

/-- The client has reported a success and closed, and the handler has kept the file. -/
def Completed : Prop :=
  x.pc = .succeeded true ∧ ∃ received, x.world.uploads = [c.handler (.kept received)]

/-- The calls that are left of the two sides. -/
def way : ℕ :=
  x.pc.way c.content.length +
    x.world.uploads.head?.elim (c.content.length + 9) fun u => u.pc.way c.content.length x.taken

/-- The two sides of an upload that goes well, wherever they stand. -/
structure Going : Prop where
  inStep : InStep c x
  covered : x.world.Covered
  openable : x.world.server.folder.openable c.filename
  /-- The server has sent acceptances with the port of the handler. -/
  answers : ∀ payload ∈ x.answers, ∃ port, x.port = some port ∧
    receiveUploadFileResponse c.messageSeq c.filename payload = some (port, true)
  client : x.pc.Greets x.port ∨ c.Sends x.sent x.pc
  handler : x.world.uploads = [] ∧ x.Admits c .start ∨
    (∃ pc, x.world.uploads = [c.handler pc] ∧ x.Admits c pc) ∨
    x.answers ≠ [] ∧ ∃ pc, x.world.uploads = [c.handler pc] ∧
      x.Receives c x.world.server.folder pc ∧ (pc = .waiting ∨ x.connected)

variable {c x} {x' : Exchange} {folder : Folder Filename} {pc : UploadPc}

/-! ## Where the two sides stand -/

theorem Receives.way_eq (h : x.Receives c folder pc) (n taken : ℕ) :
    pc.way n taken = pc.left n taken := by
  cases pc with
  | start | reserved | accepted => exact h.elim
  | _ => rfl

theorem way_of_sends {sent : Bytes} {cpc : ClientPc} (h : c.Sends sent cpc) (n : ℕ) :
    cpc.way n = cpc.left n := by
  cases cpc with
  | asking | connecting port => exact h.elim
  | _ => rfl

/-- A client that has the connection sends its file. -/
theorem Going.sends (h : x.Going c) (hconn : x.connected) : c.Sends x.sent x.pc := by
  refine h.client.resolve_left fun hgreets => ?_
  have hwrote := h.inStep.wrote
  cases hpc : x.pc with
  | asking | connecting port =>
    rw [hpc] at hwrote
    rw [hwrote.1] at hconn
    cases hconn
  | _ =>
    rw [hpc] at hgreets
    exact hgreets

theorem Going.greets (h : x.Going c) (hconn : x.connected = false) : x.pc.Greets x.port := by
  refine h.client.resolve_right fun hsends => ?_
  have hwrote := h.inStep.wrote
  cases hpc : x.pc with
  | opening | reading | writing | succeeded =>
    rw [hpc] at hwrote
    rw [hwrote.1] at hconn
    cases hconn
  | _ =>
    rw [hpc] at hsends
    exact hsends

/-- With the connection the two sides are as `UploadLoops` has them. -/
theorem Going.uploading (h : x.Going c) (hconn : x.connected)
    (hup : x.world.uploads = [c.handler pc]) (hreceives : x.Receives c x.world.server.folder pc) :
    x.Uploading c :=
  ⟨h.inStep.live, hconn, h.sends hconn, pc, by rw [hup]; rfl, hreceives⟩

/-- What changes under another name leaves what the handler has. -/
theorem Receives.of_frame {folder' : Folder Filename} (h : x.Receives c folder pc)
    (hframe : folder' = folder ∨ ∃ g, c.filename ≠ g ∧ folder.ChangesOnly folder' g)
    (hopen : folder'.openable c.filename) (w : World) :
    Receives c { x with world := w } folder' pc := by
  rcases hframe with rfl | ⟨g, hne, hc⟩
  · exact h
  · cases pc with
    | waiting | connecting => exact ⟨h.1, hopen⟩
    | opening failed => exact ⟨h.1, h.2.1, hopen⟩
    | receiving failed st toUpload received =>
      obtain ⟨hfailed, hreceived, hle, hleft, hholds⟩ := h
      exact ⟨hfailed, hreceived, hle, hleft, hholds.of_changesOnly hc hne⟩
    | closing failed st toUpload received =>
      obtain ⟨hfailed, hzero, hreceived, hholds⟩ := h
      exact ⟨hfailed, hzero, hreceived, hholds.of_changesOnly hc hne⟩
    | kept received => exact ⟨h.1, (hc.content hne).trans h.2⟩
    | _ => exact h

/-! ## What the steps do -/

theorem Going.step_deliver (h : x.Going c) (hs : x.step c .deliver = some x') :
    x'.Going c ∧ x'.way c + 1 ≤ x.way c := by
  have hin := h.inStep.deliver hs
  have hopen := openable_step h.openable hs
  simp only [step] at hs
  split_ifs at hs with hempty
  have hup : x.world.uploads = [] := by simpa using hempty
  have hadmits : x.Admits c .start := by
    rcases h.handler with ⟨-, hadmits⟩ | ⟨pc, he, -⟩ | ⟨-, pc, he, -⟩
    · exact hadmits
    all_goals simp [hup] at he
  obtain ⟨payload, hp, hs⟩ := Option.bind_eq_some_iff.mp hs
  obtain ⟨w, hw, rfl⟩ := Option.map_eq_some_iff.mp hs
  have hlen : c.filename.length ≤ maxComplexDataSize := c.filename_length_le.trans (by decide)
  obtain ⟨payload', hp', hr⟩ := receive_addRequest c.messageSeq c.fileSize c.zero_not_mem hlen
  obtain rfl : payload' = payload := Option.some.inj (hp'.symm.trans hp)
  have horderly : World.Orderly x.world (.receive ⟨c.source, payload'⟩) :=
    ⟨⟨trivial, trivial⟩, fun f _ ho => by
      obtain ⟨u, hu, -⟩ := ho
      simp [hup] at hu⟩
  have hcovered := h.covered.step horderly hw
  obtain ⟨-, rfl⟩ := World.step_receive hr hw
  have hup' : (x.world.start c.source (.upload c.messageSeq c.filename c.fileSize)).uploads =
      [c.handler .start] := by simp [World.start, hup, Client.handler]
  refine ⟨⟨hin, hcovered, hopen, h.answers, h.client, Or.inr (Or.inl ⟨.start, hup', hadmits⟩)⟩, ?_⟩
  rw [way, way, hup, hup']
  exact le_rfl

/-- The calls of the handler up to its announcement go through. -/
theorem admits_next {s' : Server} {upc pc : UploadPc} {call : UploadCall} (h : x.Admits c upc)
    (hname : acceptableName c.filename) (hc : call.goesWell)
    (hn : (c.handler upc).next x.world.server call = some (s', pc)) (taken taken' : ℕ) :
    ((∀ y : Exchange, y.world.server = s' → y.Admits c pc) ∧ call.announced = none ∧
        (c.handler upc).answers call = [] ∨
      upc = .accepted ∧ pc = .waiting ∧ ∃ port, call = .announce (some port)) ∧
      pc.way c.content.length taken' + (ExchangeAction.own (.handler call)).toNat ≤
        upc.way c.content.length taken := by
  cases Upload.next_cases hn with
  | reserve before name fits =>
    obtain rfl : upc = .start := before
    exact ⟨Or.inl ⟨fun y hy => by simpa [Admits, hy] using h.1, rfl, rfl⟩, le_rfl⟩
  | reject before unfit =>
    obtain rfl : upc = .start := before
    refine (unfit ⟨hname, ?_⟩).elim
    rw [Server.checkAndReserveSpace_iff, show (c.handler .start).fileSize = c.fileSize from rfl,
      c.toNat_fileSize]
    exact h.2
  | add before fresh =>
    obtain rfl : upc = .reserved := before
    exact ⟨Or.inl ⟨fun _ _ => trivial, rfl, rfl⟩, le_rfl⟩
  | taken before mem =>
    obtain rfl : upc = .reserved := before
    exact (h mem).elim
  | announce before p =>
    obtain rfl : upc = .accepted := before
    refine ⟨Or.inr ⟨rfl, rfl, p, rfl⟩, ?_⟩
    simp only [UploadPc.way, UploadPc.left, ExchangeAction.own, ExchangeAction.isFlush,
      Bool.not_false, Bool.toNat_true]
    omega
  | announceFail => cases hc
  | freeTaken before | freeAnnounce before | free before | refuse before | ready before
  | notReady before | accept before | create before | openFail before | piece before
  | endOfStream before | readFail before | flush before | spoil before | close before
  | closeFail before | found before | absent before | existsThrows before | remove before
  | removeThrows before =>
    rw [show upc = _ from before] at h
    exact h.elim
  | forget before =>
    rcases before with before | before <;> rw [show upc = _ from before] at h <;> exact h.elim

/-- The answer that the server sends with its port is an acceptance to the client. -/
theorem exists_acceptance (c : Client) (pc : UploadPc) (port : UInt16) :
    ∃ payload, (c.handler pc).acceptance port = some payload ∧
      receiveUploadFileResponse c.messageSeq c.filename payload = some (port, true) := by
  refine ⟨_, addAcceptance_eq _, ?_⟩
  rw [receiveUploadFileResponse_addAcceptance,
    show (c.handler pc).messageSeq = c.messageSeq from rfl,
    if_pos rfl, UInt16.toUInt16_toUInt64]

/-- A call that goes well after the announcement is one of the transfer. -/
theorem Receives.inLoops {s' : Server} {upc pc : UploadPc} {call : UploadCall}
    (h : x.Receives c folder upc) (hc : call.goesWell)
    (hn : (c.handler upc).next x.world.server call = some (s', pc)) :
    ExchangeAction.inLoops (.handler call) := by
  cases Upload.next_cases hn with
  | ready | endOfStream | piece => rfl
  | notReady before result =>
    rename_i r
    cases r with
    | ready => exact (result rfl).elim
    | timeout | failure => cases hc
  | accept before ok =>
    cases ok with
    | true => rfl
    | false => cases hc
  | create | flush | close => rfl
  | announceFail | openFail | readFail | spoil | closeFail | existsThrows | removeThrows => cases hc
  | reserve before | reject before | add before | taken before | freeTaken before
  | freeAnnounce before | free before | announce before | refuse before | found before
  | absent before | remove before =>
    rw [show upc = _ from before] at h
    exact h.elim
  | forget before =>
    rcases before with before | before <;> rw [show upc = _ from before] at h <;> exact h.elim

/-- A handler that goes on after its announcement has a connection. -/
theorem Receives.connected {s' : Server} {upc pc : UploadPc} {call : UploadCall}
    (h : x.Receives c folder upc) (hconn : upc = .waiting ∨ x.connected) (hc : call.goesWell)
    (hoff : x.offers (c.handler upc) call)
    (hn : (c.handler upc).next x.world.server call = some (s', pc)) : x.connected := by
  rcases hconn with rfl | hconn
  · have hloop := h.inLoops hc hn
    cases call with
    | select r =>
      obtain rfl : r = .ready := by simpa [ExchangeAction.inLoops] using hloop
      exact hoff
    | _ => cases hn
  · exact hconn

theorem quiet_of_inLoops {call : UploadCall} (h : ExchangeAction.inLoops (.handler call))
    (u : Upload) : call.announced = none ∧ u.answers call = [] := by
  cases call with
  | announce port => cases h
  | refuse ok => cases h
  | _ => exact ⟨rfl, rfl⟩

theorem orderly_handler {call : UploadCall} (h : InStep c x) (hc : call.goesWell)
    (hup : x.world.uploads = [c.handler pc]) : World.Orderly x.world (.upload 0 call) := by
  refine ⟨World.filesOk_of_succeeds ?_, fun _ u hu => ?_⟩
  · simp only [UploadCall.goesWell, Bool.and_eq_true] at hc
    exact hc.1
  · obtain rfl : c.handler pc = u := by simpa [hup] using hu
    exact h.target

theorem Going.step_handler {call : UploadCall} (h : x.Going c) (hname : acceptableName c.filename)
    (hc : call.goesWell) (hs : x.step c (.handler call) = some x') :
    x'.Going c ∧ x'.way c + (ExchangeAction.own (.handler call)).toNat ≤ x.way c := by
  have hin := h.inStep.handler hc hs
  have hopen := openable_step h.openable hs
  simp only [step] at hs
  obtain ⟨u, hu, hs⟩ := Option.bind_eq_some_iff.mp hs
  split_ifs at hs with hoff
  obtain ⟨w, hw, rfl⟩ := Option.map_eq_some_iff.mp hs
  obtain ⟨upc, hup, hh⟩ := h.inStep.handling.resolve_left fun he => by simp [he.1] at hu
  obtain rfl : c.handler upc = u := by simpa [hup] using hu
  have hcovered := h.covered.step (orderly_handler h.inStep hc hup) hw
  obtain ⟨pc, hn, hset, -⟩ := World.of_step_upload h.inStep.live hu hw
  have hup' : w.uploads = [c.handler pc] := by
    rcases hin.handling with ⟨he, -⟩ | ⟨pc', he, -⟩
    · rw [show w.uploads = [] from he] at hset
      cases hset
    · rw [show w.uploads = [c.handler pc'] from he] at hset ⊢
      exact congrArg (fun u => [u]) (Option.some.inj hset)
  have hway {taken} (hle : pc.way c.content.length taken +
      (ExchangeAction.own (.handler call)).toNat ≤ upc.way c.content.length x.taken)
      (answers port) : way c { x with world := w, answers, port, taken } +
        (ExchangeAction.own (.handler call)).toNat ≤ x.way c := by
    simp only [way, hup, hup', List.head?_cons, Option.elim_some, Client.handler]
    omega
  -- a call that sends nothing
  have hquiet (hannounced : call.announced = none) (hanswers : (c.handler upc).answers call = []) :
      x.answers ++ (c.handler upc).answers call = x.answers ∧
        call.announced.or x.port = x.port := by
    simp [hannounced, hanswers]
  rcases h.handler with ⟨he, -⟩ | ⟨upc', he, hadmits⟩ | ⟨hanswers, upc', he, hreceives, hconn⟩
  · simp [hup] at he
  · obtain rfl : upc = upc' := by simpa [hup, Client.handler] using he
    obtain ⟨⟨hadmits', hannounced, hanswers⟩ | ⟨rfl, rfl, port, rfl⟩, hle⟩ :=
      admits_next hadmits hname hc hn x.taken (x.taken + call.readLength)
    · obtain ⟨hsame, hport⟩ := hquiet hannounced hanswers
      refine ⟨⟨hin, hcovered, hopen, ?_, ?_, Or.inr (Or.inl ⟨pc, hup', hadmits' _ rfl⟩)⟩,
        hway hle _ _⟩
      · rw [hsame, hport]
        exact h.answers
      · rw [hport]
        exact h.client
    · -- the handler announces its port
      obtain ⟨hport, hconn, htaken⟩ : x.port = none ∧ x.connected = false ∧ x.taken = 0 := hh.took
      obtain ⟨payload, hp, hresponse⟩ := exists_acceptance c .accepted port
      have hasking : x.pc.Greets (some port) ∨ c.Sends x.sent x.pc := by
        have hgreets := h.greets hconn
        rw [hport] at hgreets
        cases hpc : x.pc with
        | asking => exact Or.inl trivial
        | _ => rw [hpc] at hgreets; cases hgreets
      have hnew : x.answers ++ (c.handler .accepted).answers (.announce (some port)) =
          x.answers ++ [payload] :=
        congrArg (fun o : Option Bytes => x.answers ++ o.toList) hp
      refine ⟨⟨hin, hcovered, hopen, ?_, hasking,
          Or.inr (Or.inr ⟨?_, .waiting, hup', ?_, Or.inl rfl⟩)⟩,
        hway hle _ _⟩
      · rw [hnew]
        intro payload' hmem
        rcases List.mem_append.mp hmem with hmem | hmem
        · obtain ⟨p, hp', -⟩ := h.answers payload' hmem
          rw [hport] at hp'
          cases hp'
        · rw [List.mem_singleton.mp hmem]
          exact ⟨port, rfl, hresponse⟩
      · rw [hnew]
        simp
      · exact ⟨htaken, hopen⟩
  · obtain rfl : upc = upc' := by simpa [hup, Client.handler] using he
    have hloop := hreceives.inLoops hc hn
    have hconn' := hreceives.connected hconn hc hoff hn
    obtain ⟨hannounced, hnone⟩ := quiet_of_inLoops hloop (c.handler upc)
    obtain ⟨hsame, hport⟩ := hquiet hannounced hnone
    obtain ⟨hreceives', hle⟩ := receives_next hreceives (h.sends hconn') hloop hoff hn w
      (x.answers ++ (c.handler upc).answers call)
    refine ⟨⟨hin, hcovered, hopen, ?_, ?_,
        Or.inr (Or.inr ⟨?_, pc, hup', hreceives', Or.inr hconn'⟩)⟩,
      hway ?_ _ _⟩
    · rw [hsame, hport]
      exact h.answers
    · rw [hport]
      exact h.client
    · rwa [hsame]
    · rw [hreceives'.way_eq, hreceives.way_eq]
      exact hle

/-- A client that has no connection yet makes one, from an answer of the server. -/
theorem Going.greets_next {call : ClientCall} {cpc : ClientPc} (h : x.Going c)
    (hgreets : x.pc.Greets x.port) (hc : call.goesWell) (hallow : x.allows call)
    (hn : c.next x.pc call = some cpc) :
    (cpc.Greets x.port ∨ c.Sends (x.sent ++ x.pc.written call) cpc) ∧
      cpc.way c.content.length + 1 ≤ x.pc.way c.content.length := by
  have hwrote := h.inStep.wrote
  cases hpc : x.pc with
  | asking =>
    rw [hpc] at hn
    cases call with
    | answer payload =>
      obtain ⟨port, hport, hresponse⟩ := h.answers payload (by simpa [allows] using hallow)
      simp only [Client.next, hresponse] at hn
      cases hn
      exact ⟨Or.inl hport, le_rfl⟩
    | noAnswer => cases hc
    | _ => cases hn
  | connecting port =>
    rw [hpc] at hn hwrote
    cases call with
    | connect ok =>
      obtain rfl : ok = true := hc
      cases hn
      exact ⟨Or.inr ((List.append_nil _).trans hwrote.2), le_rfl⟩
    | _ => cases hn
  | _ =>
    rw [hpc] at hgreets
    exact hgreets.elim

theorem inLoop_of_sends {sent : Bytes} {call : ClientCall} {cpc cpc' : ClientPc}
    (h : c.Sends sent cpc) (hc : call.goesWell) (hn : c.next cpc call = some cpc') :
    call.inLoop := by
  cases call with
  | answer payload | connect ok =>
    cases cpc with
    | asking | connecting port => exact h.elim
    | _ => cases hn
  | _ => exact hc

theorem Going.step_client {call : ClientCall} (h : x.Going c) (hc : call.goesWell)
    (hs : x.step c (.client call) = some x') : x'.Going c ∧ x'.way c + 1 ≤ x.way c := by
  have hin := h.inStep.client hs
  simp only [step] at hs
  split_ifs at hs with hallow
  obtain ⟨cpc, hn, rfl⟩ := Option.map_eq_some_iff.mp hs
  have hkeep := (connects_of_step h.inStep.wrote hallow (by simp [hn])).1
  have hnext : (cpc.Greets x.port ∨ c.Sends (x.sent ++ x.pc.written call) cpc) ∧
      cpc.way c.content.length + 1 ≤ x.pc.way c.content.length := by
    rcases h.client with hgreets | hsends
    · exact h.greets_next hgreets hc hallow hn
    · obtain ⟨hsends', hle⟩ := Client.sends_next hsends (inLoop_of_sends hsends hc hn) hn
      rw [way_of_sends hsends', way_of_sends hsends]
      exact ⟨Or.inr hsends', hle⟩
  refine ⟨⟨hin, h.covered, h.openable, h.answers, hnext.1, ?_⟩, ?_⟩
  · rcases h.handler with hnew | hadmits | ⟨hanswers, pc, hup, hreceives, hconn⟩
    · exact Or.inl hnew
    · exact Or.inr (Or.inl hadmits)
    · exact Or.inr (Or.inr ⟨hanswers, pc, hup, hreceives.append _ _ _, hconn.imp_right hkeep⟩)
  · simp only [way]
    omega

/-- What else the server does takes no space. -/
theorem usedSpace_foreign_le {w w' : World} {a : Action} (h : w.Exact) (ha : a.foreign)
    (hs : w.step a = some w') : w'.server.usedSpace.toNat ≤ w.server.usedSpace.toNat := by
  cases World.step_cases hs with
  | upload thread next terminated => cases ha
  | spawn idle request => exact le_rfl
  | erase idle request => exact le_rfl
  | removal loop next => exact h.usedSpace_removal_le loop next
  | other call server => rw [server]

theorem Going.step_server {a : Action} (h : x.Going c) (ha : x.Smooth c (.server a))
    (hs : x.step c (.server a) = some x') : x'.Going c ∧ x'.way c ≤ x.way c := by
  have hin := h.inStep.server ha.2 hs
  have hopen := openable_step h.openable hs
  simp only [step] at hs
  split_ifs at hs with hforeign
  obtain ⟨w, hw, rfl⟩ := Option.map_eq_some_iff.mp hs
  obtain ⟨hup, -, hmem, hframe⟩ := foreign_step hforeign ha.2 h.inStep.target hw
  have hle := usedSpace_foreign_le h.covered.exact hforeign hw
  have hadmits {pc} (hadmits : x.Admits c pc) : Admits c { x with world := w } pc := by
    have hmax := World.maxAvailableSpace_step hw
    cases pc with
    | start =>
      exact ⟨fun hf => hadmits.1 (hmem.mp hf), hmax ▸ (Nat.add_le_add_right hle _).trans hadmits.2⟩
    | reserved => exact fun hf => hadmits (hmem.mp hf)
    | _ => exact hadmits
  refine ⟨⟨hin, h.covered.step ha.1 hw, hopen, h.answers, h.client, ?_⟩, ?_⟩
  · rcases h.handler with ⟨he, hnew⟩ | ⟨pc, he, had⟩ | ⟨hanswers, pc, he, hreceives, hconn⟩
    · exact Or.inl ⟨hup.trans he, hadmits hnew⟩
    · exact Or.inr (Or.inl ⟨pc, hup.trans he, hadmits had⟩)
    · exact Or.inr (Or.inr ⟨hanswers, pc, hup.trans he, hreceives.of_frame hframe hopen w, hconn⟩)
  · simp only [way, hup]
    exact le_rfl

/-- Every step of a smooth run keeps the two sides going, and each call of theirs leaves less. -/
theorem Going.step {a : ExchangeAction} (h : x.Going c) (hname : acceptableName c.filename)
    (ha : x.Smooth c a) (hs : x.step c a = some x') :
    x'.Going c ∧ x'.way c + a.own.toNat ≤ x.way c := by
  cases a with
  | deliver => exact h.step_deliver hs
  | handler call => exact h.step_handler hname ha hs
  | client call => exact h.step_client ha hs
  | server a => exact h.step_server ha hs

/-! ## The end -/

/-- The server receives the request of the client, if its loop waits for a datagram. -/
theorem Going.exists_deliver (h : x.Going c) (hidle : x.world.loop = .idle)
    (hup : x.world.uploads = []) : ∃ x', x.step c .deliver = some x' := by
  have hlen : c.filename.length ≤ maxComplexDataSize := c.filename_length_le.trans (by decide)
  obtain ⟨payload, hp, hr⟩ := receive_addRequest c.messageSeq c.fileSize c.zero_not_mem hlen
  simp [Exchange.step, hup, hp, World.step, h.inStep.live, hidle, hr]

/-- A handler that has not announced its port goes on. -/
theorem Going.exists_announcement (h : x.Going c) (hname : acceptableName c.filename)
    (hup : x.world.uploads = [c.handler pc]) (hadmits : x.Admits c pc) :
    ∃ call x', call.goesWell ∧ ExchangeAction.own (.handler call) ∧
      x.step c (.handler call) = some x' := by
  have hstep {call : UploadCall} {s : Server} {pc' : UploadPc} (hoff : x.offers (c.handler pc) call)
      (hn : (c.handler pc).next x.world.server call = some (s, pc')) :
      ∃ x', x.step c (.handler call) = some x' := by
    obtain ⟨x', hs, -⟩ := Exchange.step_handler (c := c) h.inStep.live hup hoff hn
    exact ⟨x', hs⟩
  cases pc with
  | start =>
    obtain ⟨x', hs⟩ := @hstep .checkAndReserveSpace _ _ trivial (if_pos hname)
    exact ⟨_, x', rfl, rfl, hs⟩
  | reserved =>
    obtain ⟨x', hs⟩ := @hstep .addFileToStorage _ _ trivial rfl
    exact ⟨_, x', rfl, rfl, hs⟩
  | accepted =>
    obtain ⟨x', hs⟩ := @hstep (.announce (some 1)) _ _ trivial rfl
    exact ⟨_, x', rfl, rfl, hs⟩
  | _ => exact hadmits.elim

theorem exists_step_client {call : ClientCall} {cpc : ClientPc} (hallow : x.allows call)
    (hn : c.next x.pc call = some cpc) : ∃ x', x.step c (.client call) = some x' :=
  ⟨_, by rw [Exchange.step, if_pos hallow, hn]; rfl⟩

/-- A client that has no connection goes on when the handler waits for it. -/
theorem Going.exists_greeting (h : x.Going c) (hanswers : x.answers ≠ [])
    (hup : x.world.uploads = [c.handler .waiting]) (hconn : x.connected = false) :
    ∃ call x', call.goesWell ∧ x.step c (.client call) = some x' := by
  have hgreets := h.greets hconn
  cases hpc : x.pc with
  | asking =>
    obtain ⟨payload, hmem⟩ := List.exists_mem_of_ne_nil _ hanswers
    obtain ⟨port, -, hresponse⟩ := h.answers payload hmem
    have hn : c.next x.pc (.answer payload) = some (.connecting port) := by
      rw [hpc]
      simp only [Client.next, hresponse]
    exact ⟨_, (exists_step_client (by simpa [allows] using hmem) hn).imp fun _ hs => ⟨rfl, hs⟩⟩
  | connecting port =>
    rw [hpc] at hgreets
    have hlistens : x.listens port := by
      simp [listens, hup, show x.port = some port from hgreets, Client.handler, UploadPc.ended]
    have hn : c.next x.pc (.connect true) = some .opening := by rw [hpc]; rfl
    exact ⟨_, (exists_step_client (by simpa [allows, hpc]) hn).imp fun _ hs => ⟨rfl, hs⟩⟩
  | _ =>
    rw [hpc] at hgreets
    exact hgreets.elim

theorem goesWell_of_inLoops {call : UploadCall} (h : ExchangeAction.inLoops (.handler call)) :
    call.goesWell := by
  cases call with
  | select r | read r => cases r <;> first | rfl | cases h
  | accept ok | openFile ok | flush n ok | closeFile ok =>
    cases ok with
    | true => rfl
    | false => cases h
  | _ => cases h

/-- With the connection one of the two sides goes on. -/
theorem Uploading.exists_call (h : x.Uploading c) (hup : x.world.uploads = [c.handler pc])
    (hend : ¬x.Completed c) : ∃ a x', a.own ∧ x.Smooth c a ∧ x.step c a = some x' := by
  by_cases hpc : x.pc = .succeeded true
  · obtain ⟨call, x', hloop, hflush, hs⟩ := h.progress_handler hpc fun bs hkept =>
      hend ⟨hpc, bs, by rw [hup] at hkept ⊢; exact congrArg (fun u => [u]) (Option.some.inj hkept)⟩
    exact ⟨.handler call, x', by simp [ExchangeAction.own, hflush], goesWell_of_inLoops hloop,
      hs⟩
  · obtain ⟨call, x', hloop, hs⟩ := h.progress_client hpc
    refine ⟨.client call, x', rfl, ?_, hs⟩
    cases call with
    | answer payload | connect ok => cases hloop
    | _ => exact hloop

/-- An upload that is not completed goes on when the server's loop waits for a datagram. -/
theorem Going.exists_call (h : x.Going c) (hname : acceptableName c.filename)
    (hidle : x.world.loop = .idle) (hend : ¬x.Completed c) :
    ∃ a x', a.own ∧ x.Smooth c a ∧ x.step c a = some x' := by
  rcases h.handler with ⟨hup, -⟩ | ⟨pc, hup, hadmits⟩ | ⟨hanswers, pc, hup, hreceives, hwaits⟩
  · obtain ⟨x', hs⟩ := h.exists_deliver hidle hup
    exact ⟨.deliver, x', rfl, trivial, hs⟩
  · obtain ⟨call, x', hc, hown, hs⟩ := h.exists_announcement hname hup hadmits
    exact ⟨.handler call, x', hown, hc, hs⟩
  · by_cases hconn : x.connected
    · exact (h.uploading hconn hup hreceives).exists_call hup hend
    · obtain rfl : pc = .waiting := hwaits.resolve_right hconn
      obtain ⟨call, x', hc, hs⟩ := h.exists_greeting hanswers hup (by simpa using hconn)
      exact ⟨.client call, x', rfl, hc, hs⟩

theorem Going.keeps (h : x.Going c) (hend : x.Completed c) : x.Keeps c := by
  obtain ⟨-, received, hup⟩ := hend
  rcases h.handler with ⟨he, -⟩ | ⟨pc, he, hadmits⟩ | ⟨-, pc, he, hreceives, -⟩
  · simp [he] at hup
  · obtain rfl : pc = .kept received := by simpa [hup, Client.handler, eq_comm] using he
    exact hadmits.elim
  · obtain rfl : pc = .kept received := by simpa [hup, Client.handler, eq_comm] using he
    obtain ⟨pc, hup', hh⟩ := h.inStep.handling.resolve_left fun h => by simp [h.1] at hup
    obtain rfl : pc = .kept received := by simpa [hup, Client.handler, eq_comm] using hup'
    exact ⟨(hh.kept rfl).1, hreceives.2⟩

end Exchange

end Netstore
