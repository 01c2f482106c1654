import Netstore.Admission
import Netstore.Exchange

/-!
# One upload among many servers

A client uploads a file while any number of servers run (`Fleet`). It asks one server
after another, with one socket, until one accepts, connects to a port and writes the
file. What it sends may reach any server at any time, more than once or never, and so may
what the servers answer reach it : an acceptance may come when it waits for another
server. A connection may reach any handler, for the address that the client reads need
not be that of the server that accepted. A handler of a request of this client finds a
client waiting only if it is the one the client connects to.

The client connects once, whatever comes (`Fleet.Once`), so one handler of its requests at
most keeps the file. Every other gives back what it has reserved, and if a server has only
handlers of this client and none keeps the file, it is left as it was (`stored_once`).
-/

namespace Netstore

open Transition

/-- A client that uploads a file to one of the servers it has found. -/
structure Uploader where
  source : SockAddr
  filename : Bytes
  /-- The bytes of the file. -/
  content : Bytes
  zero_not_mem : (0 : UInt8) ∉ filename
  filename_length_le : filename.length ≤ 255
  content_length_lt : content.length < 2 ^ 64
  /-- The number of answers to the discovery. -/
  servers : ℕ
  /-- The sequence number of each request. -/
  messageSeq : ℕ → UInt64

/-- The client of one request. -/
def Uploader.client (c : Uploader) (attempt : ℕ) : Client where
  source := c.source
  messageSeq := c.messageSeq attempt
  filename := c.filename
  content := c.content
  zero_not_mem := c.zero_not_mem
  filename_length_le := c.filename_length_le
  content_length_lt := c.content_length_lt

/-- The datagram that the client sends to the server it asks. -/
def Uploader.request (c : Uploader) (attempt : ℕ) : Option Datagram :=
  (addRequest (c.messageSeq attempt) c.filename (c.client attempt).fileSize).map
    fun payload => ⟨c.source, payload⟩

/-- An upload handler of a server. -/
structure Handler where
  server : ℕ
  upload : ℕ
  deriving DecidableEq

/-- A client that uploads, the servers and what is between them. -/
structure Fleet where
  worlds : List World
  /-- The index of the server that the client asks. -/
  attempt : ℕ
  /-- Where the client stands, or none before the request is sent. -/
  pc : Option ClientPc
  /-- What the client has sent. -/
  requests : List Datagram
  /-- What the servers have answered. -/
  answers : List Bytes
  /-- The handlers of what the client has sent. -/
  handlers : List Handler
  /-- The handlers that the client has connected to. -/
  connections : List Handler
  /-- What it has written, and to which connection. -/
  transfers : List (Handler × Bytes)

/-- A call of the client or a step of a server. -/
inductive FleetAction where
  /-- The client sends its request, or the send throws. -/
  | send (ok : Bool)
  /-- Another call of the client. -/
  | client (call : ClientCall)
  /-- The client connects to the handler, or fails to connect. -/
  | connect (h : Option Handler)
  | server (k : ℕ) (a : Action)
  deriving DecidableEq

namespace Fleet

/-- Before the first request. -/
def start (servers : List Server) : Fleet :=
  ⟨servers.map World.initial, 0, none, [], [], [], [], []⟩

variable (c : Uploader) (fl : Fleet)

/-- The loop over the servers goes on after a refusal, and when no answer came. -/
def move (pc : ClientPc) : Fleet :=
  if pc = .gaveUp then { fl with attempt := fl.attempt + 1, pc := none }
  else { fl with pc := some pc }

/-- What the client can receive. -/
def allows : ClientCall → Bool
  | .answer payload => payload ∈ fl.answers
  | .connect _ => false
  | _ => true

/-- A client waits at the handler only if there is one that can. -/
def reaches (k : ℕ) : Action → Bool
  | .upload i (.select .ready) | .upload i (.accept true) =>
    ⟨k, i⟩ ∉ fl.handlers || ⟨k, i⟩ ∈ fl.connections
  | _ => true

/-- What the step of the `k`-th server answers. -/
def answered (k : ℕ) : Action → List Bytes
  | .upload i call => (fl.worlds[k]?.bind (·.uploads[i]?)).elim [] fun u => u.answers call
  | _ => []

/-- The handler of a request of the client that the step of the `k`-th server starts. -/
def started (k : ℕ) : Action → List Handler
  | .receive d => if d ∈ fl.requests then [⟨k, (fl.worlds[k]?.elim 0 (·.uploads.length))⟩] else []
  | _ => []

/-- What the client writes to its last connection. -/
def transferred (pc : ClientPc) (call : ClientCall) : List (Handler × Bytes) :=
  if pc.written call = [] then []
  else (fl.connections.getLast?.map fun h => (h, pc.written call)).toList

/-- The client asks the servers one after the other, until one accepts and takes the file. -/
def step (c : Uploader) (fl : Fleet) : FleetAction → Option Fleet
  | .send ok =>
    if fl.pc = none ∧ fl.attempt < c.servers then
      if ok then
        (c.request fl.attempt).map fun d =>
          { fl with requests := fl.requests ++ [d], pc := some .asking }
      else some { fl with attempt := fl.attempt + 1 }
    else none
  | .client call =>
    fl.pc.bind fun pc =>
      if fl.allows call then
        ((c.client fl.attempt).next pc call).map fun pc' =>
          move { fl with transfers := fl.transfers ++ fl.transferred pc call } pc'
      else none
  | .connect h =>
    fl.pc.bind fun pc =>
      ((c.client fl.attempt).next pc (.connect h.isSome)).map fun pc' =>
        move { fl with connections := fl.connections ++ h.toList } pc'
  | .server k a =>
    if fl.reaches k a then
      (stepAt World.step fl.worlds k a).map fun worlds =>
        { fl with
          worlds
          answers := fl.answers ++ fl.answered k a
          handlers := fl.handlers ++ fl.started k a }
    else none

/-- The steps of the `k`-th server. -/
def stepsOf (k : ℕ) (as : List FleetAction) : List Action :=
  as.filterMap fun
    | .server j a => if j = k then some a else none
    | _ => none

/-- The handler has ended with its file kept. -/
def Keeps (h : Handler) : Prop :=
  ∃ w u bs, fl.worlds[h.server]? = some w ∧ w.uploads[h.upload]? = some u ∧ u.pc = .kept bs

end Fleet

/-! ## One connection -/

/-- The client has not tried to connect. -/
def ClientPc.seeks : ClientPc → Bool
  | asking | gaveUp | connecting _ => true
  | _ => false

/-- A client was waiting at the handler. -/
def UploadPc.connected : UploadPc → Bool
  | connecting | opening _ | receiving .. | closing .. | kept _ => true
  | _ => false

/-- The client only tries once to connect. -/
theorem Client.seeks_next {c : Client} {pc pc' : ClientPc} {call : ClientCall}
    (h : c.next pc call = some pc') (hs : pc'.seeks) : pc.seeks ∧ ∀ ok, call ≠ .connect ok := by
  cases call with
  | answer payload =>
    cases pc <;> simp only [next, reduceCtorEq] at h
    exact ⟨rfl, fun ok h => by cases h⟩
  | noAnswer =>
    cases pc <;> simp only [next, reduceCtorEq] at h
    exact ⟨rfl, fun ok h => by cases h⟩
  | connect ok =>
    cases pc <;> simp only [next, reduceCtorEq] at h
    cases ok <;> cases h <;> cases hs
  | openFile ok =>
    cases pc <;> simp only [next, reduceCtorEq] at h
    cases ok <;> cases h <;> cases hs
  | readFile error =>
    cases pc <;> simp only [next, reduceCtorEq] at h
    cases error <;> cases h <;> cases hs
  | write error =>
    cases pc <;> simp only [next, reduceCtorEq] at h
    cases error
    · dsimp only at h
      split_ifs at h <;> cases h <;> cases hs
    · cases h
      cases hs
  | close =>
    simp only [next] at h
    split at h <;> cases h <;> cases hs

theorem Upload.connected_next {s s' : Server} {u : Upload} {call : UploadCall} {pc : UploadPc}
    (h : u.next s call = some (s', pc)) (hc : pc.connected) :
    u.pc.connected ∨ call = .select .ready := by
  cases next_cases h with
  | ready => exact Or.inr rfl
  | accept before | create before | piece before | endOfStream before | readFail before
  | flush before | spoil before | close before | closeFail before =>
    exact Or.inl (by rw [before]; rfl)
  | _ => cases hc

namespace Fleet

variable {c : Uploader} {servers : List Server} {as : List FleetAction} {fl fl' : Fleet}
  {a : FleetAction}

/-- The client has connected to one handler at most, and only that one can have met it. -/
structure Once (fl : Fleet) : Prop where
  connections : fl.connections.length ≤ 1
  seeks : fl.pc.all ClientPc.seeks → fl.connections = []
  transfers : ∀ t ∈ fl.transfers, t.1 ∈ fl.connections
  handlers : ∀ h ∈ fl.handlers, ∀ w u, fl.worlds[h.server]? = some w →
    w.uploads[h.upload]? = some u → u.pc.connected → h ∈ fl.connections

theorem once_start (servers : List Server) : Once (start servers) where
  connections := Nat.zero_le 1
  seeks _ := rfl
  transfers _ ht := (List.not_mem_nil ht).elim
  handlers _ hh := (List.not_mem_nil hh).elim

theorem seeks_move {pc : ClientPc} (h : (fl.move pc).pc.all ClientPc.seeks) : pc.seeks := by
  unfold move at h
  split_ifs at h with hpc
  · rw [hpc]
    rfl
  · simpa using h

theorem worlds_move (fl : Fleet) (pc : ClientPc) : (fl.move pc).worlds = fl.worlds := by
  unfold move
  split_ifs <;> rfl

/-- The client goes on with what it has. -/
theorem once_move {pc : ClientPc} (h : Once { fl with pc := some pc }) : Once (fl.move pc) := by
  refine ⟨?_, fun hs => ?_, ?_, ?_⟩
  · unfold move
    split_ifs <;> exact h.connections
  · have hnil := h.seeks (by simpa using seeks_move hs)
    unfold move
    split_ifs <;> exact hnil
  · unfold move
    split_ifs <;> exact h.transfers
  · unfold move
    split_ifs <;> exact h.handlers

theorem Once.client (h : Once fl) {pc pc' : ClientPc} {call : ClientCall} (hpc : fl.pc = some pc)
    (hn : (c.client fl.attempt).next pc call = some pc') :
    Once { fl with transfers := fl.transfers ++ fl.transferred pc call, pc := some pc' } := by
  refine ⟨h.connections, fun hs => ?_, fun t ht => ?_, h.handlers⟩
  · have hseeks := (Client.seeks_next hn (by simpa using hs)).1
    exact h.seeks (by rw [hpc]; simpa using hseeks)
  · rcases List.mem_append.mp ht with ht | ht
    · exact h.transfers t ht
    · unfold transferred at ht
      split_ifs at ht
      · cases ht
      · obtain ⟨g, hg, rfl⟩ := Option.map_eq_some_iff.mp (Option.mem_toList.mp ht)
        exact List.mem_of_getLast? hg

theorem Once.connect (h : Once fl) {pc pc' : ClientPc} {g : Option Handler}
    (hpc : fl.pc = some pc) (hn : (c.client fl.attempt).next pc (.connect g.isSome) = some pc') :
    Once { fl with connections := fl.connections ++ g.toList, pc := some pc' } := by
  have hnil : fl.connections = [] := by
    refine h.seeks ?_
    rw [hpc]
    cases pc <;> first | rfl | cases hn
  refine ⟨?_, fun hs => ?_, fun t ht => ?_, fun x hx w u hw hu hc => ?_⟩
  · rw [hnil]
    cases g <;> simp
  · exact ((Client.seeks_next hn (by simpa using hs)).2 _ rfl).elim
  · exact List.mem_append_left _ (h.transfers t ht)
  · exact List.mem_append_left _ (h.handlers x hx w u hw hu hc)

theorem Once.server (h : Once fl) {k : ℕ} {a : Action} {worlds : List World}
    (hreach : fl.reaches k a) (hs : stepAt World.step fl.worlds k a = some worlds) :
    Once { fl with
      worlds
      answers := fl.answers ++ fl.answered k a
      handlers := fl.handlers ++ fl.started k a } := by
  refine ⟨h.connections, h.seeks, h.transfers, fun g hg w' u' hw' hu' hc => ?_⟩
  obtain ⟨w, w₁, hw, hstep, rfl⟩ := stepAt_eq_some hs
  have hnew : ∀ d, a = .receive d → g ∈ fl.started k a → g = ⟨k, w.uploads.length⟩ := by
    rintro d rfl hg
    simp only [started, hw] at hg
    split_ifs at hg
    · simpa using hg
    · cases hg
  have hold : g ∈ fl.handlers ∨ g = ⟨k, w.uploads.length⟩ := by
    refine (List.mem_append.mp hg).imp_right fun hg => ?_
    cases a with
    | receive d => exact hnew d rfl hg
    | _ => cases hg
  rcases (getElem?_set_eq_some hw).mp hw' with ⟨hk, rfl⟩ | ⟨hk, hw'⟩
  · cases World.thread_cases hstep hu' with
    | @called call u s pc action before next after =>
      subst action after
      replace hg : g ∈ fl.handlers := (List.mem_append.mp hg).resolve_right List.not_mem_nil
      rcases Upload.connected_next next hc with hc | rfl
      · exact h.handlers g hg w u (hk ▸ hw) before hc
      · subst hk
        have hreach : g ∉ fl.handlers ∨ g ∈ fl.connections := by simpa [reaches] using hreach
        exact hreach.resolve_left fun hno => hno hg
    | same before =>
      rcases hold with hg | rfl
      · exact h.handlers g hg w u' (hk ▸ hw) before hc
      · rw [List.getElem?_eq_none le_rfl] at before
        cases before
    | new before start =>
      rw [start] at hc
      cases hc
  · rcases hold with hg | rfl
    · exact h.handlers g hg w' u' hw' hu' hc
    · exact (hk rfl).elim

theorem Once.step (h : Once fl) (hs : fl.step c a = some fl') : Once fl' := by
  cases a with
  | send ok =>
    simp only [Fleet.step] at hs
    split_ifs at hs with hpc hok
    · obtain ⟨d, hd, rfl⟩ := Option.map_eq_some_iff.mp hs
      have hnil : fl.connections = [] := h.seeks (by rw [hpc.1]; rfl)
      exact ⟨h.connections, fun _ => hnil, h.transfers, h.handlers⟩
    · cases hs
      exact ⟨h.connections, h.seeks, h.transfers, h.handlers⟩
  | client call =>
    obtain ⟨pc, hpc, hs⟩ := Option.bind_eq_some_iff.mp hs
    split_ifs at hs with hallows
    obtain ⟨pc', hn, rfl⟩ := Option.map_eq_some_iff.mp hs
    exact once_move (h.client hpc hn)
  | connect g =>
    obtain ⟨pc, hpc, hs⟩ := Option.bind_eq_some_iff.mp hs
    obtain ⟨pc', hn, rfl⟩ := Option.map_eq_some_iff.mp hs
    exact once_move (h.connect hpc hn)
  | server k a =>
    simp only [Fleet.step] at hs
    split_ifs at hs with hreach
    obtain ⟨worlds, hw, rfl⟩ := Option.map_eq_some_iff.mp hs
    exact h.server hreach hw

/-! ## Each server -/

/-- A step of the fleet is one of a server, or leaves the servers. -/
theorem worlds_step (hs : fl.step c a = some fl') :
    (∃ k b, a = .server k b ∧ stepAt World.step fl.worlds k b = some fl'.worlds) ∨
      (∀ k b, a ≠ .server k b) ∧ fl'.worlds = fl.worlds := by
  cases a with
  | send ok =>
    simp only [Fleet.step] at hs
    split_ifs at hs
    · obtain ⟨d, hd, rfl⟩ := Option.map_eq_some_iff.mp hs
      exact Or.inr ⟨fun k b h => (by cases h), rfl⟩
    · cases hs
      exact Or.inr ⟨fun k b h => (by cases h), rfl⟩
  | client call =>
    obtain ⟨pc, hpc, hs⟩ := Option.bind_eq_some_iff.mp hs
    split_ifs at hs
    obtain ⟨pc', hn, rfl⟩ := Option.map_eq_some_iff.mp hs
    exact Or.inr ⟨fun k b h => (by cases h), worlds_move _ _⟩
  | connect g =>
    obtain ⟨pc, hpc, hs⟩ := Option.bind_eq_some_iff.mp hs
    obtain ⟨pc', hn, rfl⟩ := Option.map_eq_some_iff.mp hs
    exact Or.inr ⟨fun k b h => (by cases h), worlds_move _ _⟩
  | server k b =>
    simp only [Fleet.step] at hs
    split_ifs at hs
    obtain ⟨worlds, hworlds, rfl⟩ := Option.map_eq_some_iff.mp hs
    exact Or.inl ⟨k, b, rfl, hworlds⟩

/-- The part of a server in a run is a run of that server. -/
theorem run_stepsOf (hr : run (step c) (start servers) as = some fl) {k : ℕ} {s : Server}
    (hk : servers[k]? = some s) :
    ∃ w, fl.worlds[k]? = some w ∧ World.run (.initial s) (stepsOf k as) = some w := by
  have h0 : ∃ w, (start servers).worlds[k]? = some w ∧
      World.run (.initial s) (stepsOf k []) = some w :=
    ⟨.initial s, by simp [start, hk], rfl⟩
  refine run_induction_all (fun as fl => ∃ w, fl.worlds[k]? = some w ∧
    World.run (.initial s) (stepsOf k as) = some w) h0 ?_ hr
  rintro as fl a fl' - ⟨w, hw, hrun⟩ hs
  have hconcat : stepsOf k (as ++ [a]) = stepsOf k as ++ stepsOf k [a] := List.filterMap_append
  rcases worlds_step hs with ⟨j, b, rfl, hworlds⟩ | ⟨ha, hworlds⟩
  · obtain ⟨w', hw', hcase⟩ := getElem?_stepAt hworlds hw
    refine ⟨w', hw', ?_⟩
    by_cases hkj : k = j
    · have hone : stepsOf k [.server j b] = [b] := by simp [stepsOf, hkj]
      rw [if_pos hkj] at hcase
      rw [hconcat, hone, World.run, run_concat, ← World.run, hrun]
      exact hcase
    · have hnone : stepsOf k [.server j b] = [] := by simp [stepsOf, Ne.symm hkj]
      rw [if_neg hkj] at hcase
      rw [hconcat, hnone, List.append_nil, hcase]
      exact hrun
  · have hnone : stepsOf k [a] = [] := by
      cases a with
      | server j b => exact (ha j b rfl).elim
      | _ => rfl
    rw [hconcat, hnone, List.append_nil, hworlds]
    exact ⟨w, hw, hrun⟩

/-- What a server has of the uploads that it did not keep : nothing. -/
structure GaveBack (s : Server) (bs : List Action) (w : World) : Prop where
  /-- An upload that is refused or has failed has returned the reservation it made, if any. -/
  space : ∀ (i : ℕ) u, w.uploads[i]? = some u → u.pc = .refused ∨ u.pc = .failed →
    countAlong World.step (World.grants i) (.initial s) bs =
      countAlong World.step (World.releases i) (.initial s) bs
  /-- Its name is in the index only if it was there or is another upload's. -/
  name : ∀ (i : ℕ) u, w.uploads[i]? = some u → u.pc = .refused ∨ u.pc = .failed →
    u.filename ∈ w.server.filesInStorage →
      u.filename ∈ s.filesInStorage ∨ ∃ j ≠ i, w.Admits j u.filename
  /-- If no upload is kept, the counter and the index are the first ones. -/
  all : (∀ u ∈ w.uploads, u.pc = .refused ∨ u.pc = .failed) →
    w.server.usedSpace = s.usedSpace ∧ w.server.filesInStorage = s.filesInStorage

theorem charged_of_ended {pc : UploadPc} (h : pc = .refused ∨ pc = .failed) :
    pc.charged = false ∧ pc.admitted = false := by
  rcases h with rfl | rfl <;> exact ⟨rfl, rfl⟩

theorem gaveBack_of_run {s : Server} {bs : List Action} {w : World}
    (hr : World.run (.initial s) bs = some w) (hP : Along World.step World.NoRemoval (.initial s) bs) :
    GaveBack s bs w := by
  obtain ⟨hadm, hret⟩ : World.Admission s w ∧ World.Returned s bs w :=
    run_induction (fun bs w => World.Admission s w ∧ World.Returned s bs w)
      ⟨World.admission_initial s, World.returned_initial s⟩
      (fun bs w a w' hr h hP hs => ⟨h.1.step hP hs, h.2.step hr hs⟩) hr hP
  refine ⟨fun i u hu hend => ?_, fun i u hu hend hf => ?_, fun hall => ⟨?_, ?_⟩⟩
  · have hbalance := hret.balance i u hu
    rwa [(charged_of_ended hend).1] at hbalance
  · rcases (hadm.index _).mp hf with hinitial | ⟨j, hj⟩
    · exact Or.inl hinitial
    · refine Or.inr ⟨j, fun hji => ?_, hj⟩
      rw [hji, World.Admits, World.has_self hu, (charged_of_ended hend).2] at hj
      exact Bool.noConfusion hj.1
  · have hsum : (w.uploads.map Upload.charge).sum = 0 := by
      refine List.sum_eq_zero fun n hn => ?_
      obtain ⟨u, hu, rfl⟩ := List.mem_map.mp hn
      rw [Upload.charge, (charged_of_ended (hall u hu)).1]
      rfl
    rw [← UInt64.toNat_inj, hadm.used, hsum, Nat.add_zero]
  · ext f
    rw [hadm.index f]
    refine or_iff_left ?_
    rintro ⟨j, u, hu, hj, -⟩
    rw [(charged_of_ended (hall u (List.mem_of_getElem? hu))).2] at hj
    exact Bool.noConfusion hj

/-- The client writes to one connection at most, one handler of its requests at most ends with
the file kept, and a server that nothing is removed from has given back what it took for any
other upload. -/
theorem stored_once (c : Uploader) {servers : List Server} {as : List FleetAction} {fl : Fleet}
    (hr : run (step c) (start servers) as = some fl) :
    fl.connections.length ≤ 1 ∧ (∀ t ∈ fl.transfers, ∀ t' ∈ fl.transfers, t.1 = t'.1) ∧
      (∀ g ∈ fl.handlers, ∀ h ∈ fl.handlers, fl.Keeps g → fl.Keeps h → g = h) ∧
      ∀ (k : ℕ) s, servers[k]? = some s →
        Along World.step World.NoRemoval (.initial s) (stepsOf k as) →
          ∃ w, fl.worlds[k]? = some w ∧ GaveBack s (stepsOf k as) w := by
  have h : Once fl := run_induction_all (fun _ => Once) (once_start servers)
    (fun _ _ _ _ _ h hs => h.step hs) hr
  have heq : ∀ g ∈ fl.connections, ∀ g' ∈ fl.connections, g = g' := by
    intro g hg g' hg'
    obtain ⟨x, hx⟩ | hnil : (∃ x, fl.connections = [x]) ∨ fl.connections = [] := by
      have hle := h.connections
      rcases hconn : fl.connections with _ | ⟨x, _ | ⟨y, l⟩⟩
      · exact Or.inr rfl
      · exact Or.inl ⟨x, rfl⟩
      · rw [hconn] at hle
        simp at hle
    · rw [hx] at hg hg'
      rw [List.mem_singleton.mp hg, List.mem_singleton.mp hg']
    · rw [hnil] at hg
      cases hg
  have hmet : ∀ g ∈ fl.handlers, fl.Keeps g → g ∈ fl.connections := by
    rintro g hg ⟨w, u, bs, hw, hu, hpc⟩
    exact h.handlers g hg w u hw hu (by rw [hpc]; rfl)
  refine ⟨h.connections, fun t ht t' ht' => heq _ (h.transfers t ht) _ (h.transfers t' ht'),
    fun g hg g' hg' hk hk' => heq g (hmet g hg hk) g' (hmet g' hg' hk'), fun k s hk hP => ?_⟩
  obtain ⟨w, hw, hrun⟩ := run_stepsOf hr hk
  exact ⟨w, hw, gaveBack_of_run hrun hP⟩

/-- A client that uploads two bytes as `b` to one of two servers. -/
def twoBytes : Uploader where
  source := ⟨1, 1⟩
  filename := [98]
  content := [1, 2]
  zero_not_mem := by decide
  filename_length_le := by decide
  content_length_lt := by decide
  servers := 2
  messageSeq := UInt64.ofNat

/-- The acceptance of the first server comes when the client waits for the second. -/
def lateAcceptance : List FleetAction :=
  [.send true, .server 0 (.receive (addDatagram ⟨1, 1⟩ 0 [98] 2)),
    .server 0 (.upload 0 .checkAndReserveSpace), .server 0 (.upload 0 .addFileToStorage),
    .server 0 (.upload 0 (.announce (some 5))), .client .noAnswer, .send true,
    .server 1 (.receive (addDatagram ⟨1, 1⟩ 1 [98] 2)),
    .server 1 (.upload 0 .checkAndReserveSpace), .server 1 (.upload 0 .addFileToStorage),
    .server 1 (.upload 0 (.announce (some 6))),
    .client (.answer (complexMessage 0 fileAddAcceptance [] 5)),
    .client (.answer (complexMessage 1 fileAddAcceptance [] 6)), .connect (some ⟨1, 0⟩),
    .client (.openFile true), .client (.readFile none), .client (.write none), .client .close,
    .server 1 (.upload 0 (.select .ready)), .server 1 (.upload 0 (.accept true)),
    .server 1 (.upload 0 (.openFile true)), .server 1 (.upload 0 (.read (.piece [1, 2]))),
    .server 1 (.upload 0 (.read .endOfStream)), .server 1 (.upload 0 (.closeFile true)),
    .server 0 (.upload 0 (.select .timeout)), .server 0 (.upload 0 (.fileExists true)),
    .server 0 (.upload 0 .freeSpace), .server 0 (.upload 0 .removeFileFromStorage)]

/-- Two empty servers. -/
def emptyServers : List Server :=
  [.generateFilesInStorage 10 .empty [], .generateFilesInStorage 10 .empty []]

/-- Only the second server keeps the file. -/
theorem lateAcceptance_stored_once : ∃ fl, run (step twoBytes) (start emptyServers) lateAcceptance =
    some fl ∧ fl.handlers = [⟨0, 0⟩, ⟨1, 0⟩] ∧ fl.transfers = [(⟨1, 0⟩, [1, 2])] ∧
      fl.connections.length ≤ 1 ∧ ∀ g ∈ fl.handlers, ∀ h ∈ fl.handlers, fl.Keeps g → fl.Keeps h →
        g = h := by
  obtain ⟨fl, hr, hw⟩ : ∃ fl, run (step twoBytes) (start emptyServers) lateAcceptance = some fl ∧
      decide (fl.handlers = [⟨0, 0⟩, ⟨1, 0⟩] ∧ fl.transfers = [(⟨1, 0⟩, [1, 2])]) :=
    exists_run_of_any _ (by decide)
  obtain ⟨hhandlers, htransfers⟩ := of_decide_eq_true hw
  obtain ⟨hconn, -, hkeeps, -⟩ := stored_once twoBytes hr
  exact ⟨fl, hr, hhandlers, htransfers, hconn, hkeeps⟩

end Fleet

end Netstore
