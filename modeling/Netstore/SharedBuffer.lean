import Netstore.Escape
import Netstore.Readers
import Netstore.ThreadStart

/-!
# The server with one message buffer

In `World` every handler has the arguments of its own datagram. The loop hands over less : a pointer
into its message object, and for an upload a reference to its source address, which a thread reads
when it starts to run (`ThreadStart`). Here the two are put together : a handler that the loop has
started waits until it has read its arguments, and reads what is in the loop's variables then.

If no datagram changes what a thread has yet to read, the server with one buffer is the server of
`World` : each of its runs is one of `World`, and `World` has no other (`run_iff_settled`). So it
answers each request at most once (`answered_of_settled`), and its readers leave no trace
(`writers_of_settled`).
-/

namespace Netstore

open Transition

/-! ## The server and its loop's variables -/

/-- A handler by its place in the lists of `World`. -/
inductive Worker where
  | upload (i : ℕ)
  | download (i : ℕ)
  | filesList (i : ℕ)
  deriving DecidableEq

/-- The handler that makes the call. -/
def Action.worker : Action → Option Worker
  | .upload i _ => some (.upload i)
  | .download i _ => some (.download i)
  | .filesList i _ => some (.filesList i)
  | _ => none

namespace World

variable (w : World)

/-- The arguments of a handler. -/
def call : Worker → Option ThreadStart.Call
  | .upload i => w.uploads[i]?.map fun u =>
    (u.destinationAddress, .upload u.messageSeq u.filename u.fileSize)
  | .download i =>
    w.downloads[i]?.map fun u => (u.destinationAddress, .file u.messageSeq u.filename)
  | .filesList i => w.listings[i]?.map fun l =>
    (l.destinationAddress, .filesList l.messageSeq l.pattern)

/-- A handler takes its arguments. -/
def handOver : Worker → ThreadStart.Call → World
  | .upload i, (source, .upload seq filename fileSize) =>
    { w with uploads := w.uploads.modify i fun u => ⟨source, seq, filename, fileSize, u.pc⟩ }
  | .download i, (source, .file seq filename) =>
    { w with downloads := w.downloads.modify i fun u => ⟨source, seq, filename, u.pc⟩ }
  | .filesList i, (source, .filesList seq pattern) =>
    { w with listings := w.listings.modify i fun l => ⟨source, seq, pattern, l.ended⟩ }
  | _, _ => w

end World

/-- The handler that is started. -/
def ThreadStart.Launch.worker (w : World) : ThreadStart.Launch → Worker
  | .upload _ _ => .upload w.uploads.length
  | .filesList _ _ => .filesList w.listings.length
  | .file _ _ => .download w.downloads.length

namespace SharedBuffer

/-- A handler that has not read its arguments. -/
structure Unread where
  worker : Worker
  launch : ThreadStart.Launch

/-- The loop's variables, the server, and the threads that have been started and not yet run. -/
structure State where
  message : Message
  sourceAddress : SockAddr
  /-- What it has for the arguments of an unread handler is not used. -/
  world : World
  unread : List Unread

/-- A step of the server, or the start of a thread. -/
inductive Step where
  | server (a : Action)
  /-- A thread starts to run. -/
  | read (k : ℕ)

/-- What the step is for the server. -/
def Step.toServer : Step → Option Action
  | server a => some a
  | read _ => none

/-- The threads that the iteration of a datagram starts. -/
def started (w : World) (d : Datagram) : List Unread :=
  match messageValidation (recvfrom d.payload).1 (recvfrom d.payload).2 with
  | .error _ => []
  | .ok _ =>
    (ThreadStart.launch (recvfrom d.payload).1 d.source w.server.filesInStorage).toList.map
      fun l => ⟨l.worker w, l⟩

/-- The thread that makes the call has yet to read its arguments. -/
def State.waits (s : State) (a : Action) : Bool :=
  s.unread.any fun t => a.worker = some t.worker

/-- A datagram overwrites the buffer and the source address, and a thread reads what is there when
it starts to run. It makes no call before. -/
def step (s : State) : Step → Option State
  | .server (.receive d) =>
    (s.world.step (.receive d)).map fun world =>
      ⟨(recvfrom d.payload).1, d.source, world, s.unread ++ started s.world d⟩
  | .server a =>
    if s.waits a then none else (s.world.step a).map fun world => { s with world }
  | .read k =>
    if s.world.terminated then none
    else s.unread[k]?.map fun t => { s with
      world := s.world.handOver t.worker (t.launch.read s.message s.sourceAddress)
      unread := s.unread.eraseIdx k }

/-- The loop in front of the server. -/
def start (w : World) : State :=
  ⟨[], ⟨0, 0⟩, w, []⟩

/-- A datagram does not change what the threads that have yet to run will read. -/
def Settled (s : State) : Step → Prop
  | .server (.receive d) => ∀ t ∈ s.unread,
    t.launch.read (recvfrom d.payload).1 d.source = t.launch.read s.message s.sourceAddress
  | _ => True

instance (s : State) (a : Step) : Decidable (Settled s a) := by
  unfold Settled
  split <;> infer_instance

/-- What a step sends. A thread that starts to run sends nothing. -/
def State.replies (s : State) (multicastAddress : Bytes) (a : Step) : List Reply :=
  a.toServer.elim [] (s.world.replies multicastAddress)

/-! ## Arguments -/

end SharedBuffer

namespace World

variable {w w' : World} {a : Action} {t : Worker} {c : ThreadStart.Call}

/-- A handler that takes the arguments that it has changes nothing. -/
theorem handOver_of_call (h : w.call t = some c) : w.handOver t c = w := by
  cases t with
  | upload i =>
    obtain ⟨u, hu, rfl⟩ := Option.map_eq_some_iff.mp h
    rw [handOver, modify_of_eq hu rfl]
  | download i =>
    obtain ⟨u, hu, rfl⟩ := Option.map_eq_some_iff.mp h
    rw [handOver, modify_of_eq hu rfl]
  | filesList i =>
    obtain ⟨l, hl, rfl⟩ := Option.map_eq_some_iff.mp h
    rw [handOver, modify_of_eq hl rfl]

/-- A handler that the loop starts does not change the arguments of the others. -/
theorem call_start (source : SockAddr) (r : Request) (h : w.call t = some c) :
    (w.start source r).call t = some c := by
  have hgrow {α : Type} {l : List α} {i : ℕ} {b : α} {f : α → ThreadStart.Call}
      (hl : l[i]?.map f = some c) : (l ++ [b])[i]?.map f = some c := by
    obtain ⟨b, hb, rfl⟩ := Option.map_eq_some_iff.mp hl
    rw [getElem?_concat_eq_some.mpr (Or.inl hb), Option.map_some]
  cases r with
  | file seq filename =>
    unfold start
    dsimp only
    split_ifs
    · cases t with
      | download i => exact hgrow h
      | _ => exact h
    · exact h
  | filesList seq pattern =>
    cases t with
    | filesList i => exact hgrow h
    | _ => exact h
  | upload seq filename fileSize =>
    cases t with
    | upload i => exact hgrow h
    | _ => exact h
  | discover | remove => cases t <;> exact h

/-- A step does not change the arguments of a handler. -/
theorem call_step (hs : w.step a = some w') (h : w.call t = some c) : w'.call t = some c := by
  have hset {α : Type} {l : List α} {i j : ℕ} {b b' : α} {f : α → ThreadStart.Call}
      (hi : l[i]? = some b) (hb : f b' = f b) (hl : l[j]?.map f = some c) :
      (l.set i b')[j]?.map f = some c := by
    rw [← List.getElem?_map, map_set_of_eq f hi hb, List.getElem?_map]
    exact hl
  cases move_of_step hs with
  | stay => exact h
  | start => exact call_start _ _ h
  | discovered => cases t <;> exact h
  | removal loop next => cases removeNext_cases next <;> cases t <;> exact h
  | upload thread next =>
    cases t with
    | upload j => exact hset thread rfl h
    | _ => exact h
  | download thread next =>
    cases t with
    | download j => exact hset thread rfl h
    | _ => exact h
  | list thread running =>
    cases t with
    | filesList j => exact hset thread rfl h
    | _ => exact h

end World

namespace SharedBuffer

variable {s s' : State} {w w' : World}

/-- A thread that has just been started would read the arguments of its own handler. -/
theorem call_started {d : Datagram} {t : Unread} (hs : w.step (.receive d) = some w')
    (ht : t ∈ started w d) :
    w'.call t.worker = some (t.launch.read (recvfrom d.payload).1 d.source) := by
  unfold started at ht
  split at ht
  · cases ht
  · rename_i hval
    obtain ⟨l, hl, rfl⟩ := List.mem_map.mp ht
    rw [Option.mem_toList] at hl
    obtain ⟨r, hd, hread, hfile⟩ := ThreadStart.dispatch_of_launch hl
    have hr : Netstore.receive d.payload = .ok (some r) := by
      simp only [Netstore.receive, hval, hd]
      rfl
    obtain ⟨-, rfl⟩ := World.step_receive hr hs
    rw [hread]
    cases l with
    | upload seq fileSize =>
      obtain ⟨-, rfl⟩ := Prod.mk.inj hread
      simp [World.start, World.call, ThreadStart.Launch.worker]
    | filesList source seq =>
      obtain ⟨-, rfl⟩ := Prod.mk.inj hread
      simp [World.start, World.call, ThreadStart.Launch.worker]
    | file source seq =>
      obtain ⟨-, rfl⟩ := Prod.mk.inj hread
      have hmem := hfile _ _ rfl
      simp [World.start, World.call, ThreadStart.Launch.worker, Server.isInStorage, hmem]

/-! ## From one server to the other -/

/-- What the threads will read is what their handlers have. -/
def Ready (s : State) : Prop :=
  ∀ t ∈ s.unread, s.world.call t.worker = some (t.launch.read s.message s.sourceAddress)

/-- A step of the server, with what it does to the buffer. -/
theorem world_of_step {a : Action} (h : step s (.server a) = some s') :
    s.world.step a = some s'.world ∧
      ((∃ d, a = .receive d ∧ s'.message = (recvfrom d.payload).1 ∧ s'.sourceAddress = d.source ∧
          s'.unread = s.unread ++ started s.world d) ∨
        s'.message = s.message ∧ s'.sourceAddress = s.sourceAddress ∧ s'.unread = s.unread) := by
  cases a with
  | receive d =>
    obtain ⟨w', hw, rfl⟩ := Option.map_eq_some_iff.mp h
    exact ⟨hw, Or.inl ⟨d, rfl, rfl, rfl, rfl⟩⟩
  | _ =>
    simp only [step] at h
    split_ifs at h
    obtain ⟨w', hw, rfl⟩ := Option.map_eq_some_iff.mp h
    exact ⟨hw, Or.inr ⟨rfl, rfl, rfl⟩⟩

theorem Ready.server {a : Action} (h : Ready s) (ha : Settled s (.server a))
    (hs : step s (.server a) = some s') : Ready s' := by
  obtain ⟨hw, ⟨d, rfl, hm, hsource, hunread⟩ | ⟨hm, hsource, hunread⟩⟩ := world_of_step hs
  · intro t ht
    rw [hm, hsource]
    rw [hunread] at ht
    rcases List.mem_append.mp ht with ht | ht
    · rw [ha t ht]
      exact World.call_step hw (h t ht)
    · exact call_started hw ht
  · intro t ht
    rw [hm, hsource]
    rw [hunread] at ht
    exact World.call_step hw (h t ht)

/-- A thread that reads what its handler has changes nothing. -/
theorem Ready.read {k : ℕ} (h : Ready s) (hs : step s (.read k) = some s') :
    Ready s' ∧ s'.world = s.world := by
  simp only [step] at hs
  split_ifs at hs
  obtain ⟨t, ht, rfl⟩ := Option.map_eq_some_iff.mp hs
  have hworld := World.handOver_of_call (h t (List.mem_of_getElem? ht))
  refine ⟨fun v hv => ?_, hworld⟩
  dsimp only at hv ⊢
  rw [hworld]
  exact h v (List.mem_of_mem_eraseIdx hv)

/-- No thread has been started. -/
theorem ready_start (w : World) : Ready (start w) :=
  fun _ ht => (List.not_mem_nil ht).elim

/-- A settled run is a run of the server. -/
theorem run_of_settled {as : List Step} (hr : run step (start w) as = some s)
    (hP : Along step Settled (start w) as) : w.run (as.filterMap Step.toServer) = some s.world := by
  have hproject : ∃ w', w.run (as.filterMap Step.toServer) = some w' ∧
      (Ready s ∧ w' = s.world) ∧
      Along World.step (fun _ _ => True) w (as.filterMap Step.toServer) := by
    refine run_projects (fun s w => Ready s ∧ w = s.world) Step.toServer
      (fun s a s' w hR ha hs => ?_) ⟨ready_start w, rfl⟩ hr hP
    obtain ⟨hready, rfl⟩ := hR
    cases a with
    | server a =>
      exact ⟨trivial, s'.world, (world_of_step hs).1, hready.server ha hs, rfl⟩
    | read k =>
      obtain ⟨hready', hworld⟩ := hready.read hs
      exact ⟨hready', hworld.symm⟩
  obtain ⟨w', hr', ⟨-, rfl⟩, -⟩ := hproject
  exact hr'

/-- A settled run sends what the run of the server sends. -/
theorem replies_of_settled (multicastAddress : Bytes) {as : List Step}
    (hr : run step (start w) as = some s) (hP : Along step Settled (start w) as) :
    (trace step (fun s => s.replies multicastAddress) (start w) as).flatten =
      (trace World.step (fun w => w.replies multicastAddress) w
        (as.filterMap Step.toServer)).flatten := by
  refine trace_projects (fun s w => Ready s ∧ w = s.world) Step.toServer
    (fun s a s' w hR ha hs => ?_) ⟨ready_start w, rfl⟩ hr hP
  obtain ⟨hready, rfl⟩ := hR
  cases a with
  | server a => exact ⟨rfl, s'.world, (world_of_step hs).1, hready.server ha hs, rfl⟩
  | read k =>
    obtain ⟨hready', hworld⟩ := hready.read hs
    exact ⟨rfl, hready', hworld.symm⟩

/-! ## And back -/

theorem started_cases (w : World) (d : Datagram) : started w d = [] ∨ ∃ t, started w d = [t] := by
  unfold started
  split
  · exact Or.inl rfl
  · cases ThreadStart.launch (recvfrom d.payload).1 d.source w.server.filesInStorage with
    | none => exact Or.inl rfl
    | some l => exact Or.inr ⟨_, rfl⟩

/-- A call that is no receive, of a server in which no thread waits. -/
theorem step_server_of_ne {a : Action} (ha : ∀ d, a ≠ .receive d) (hs : s.unread = [])
    (h : s.world.step a = some w') : step s (.server a) = some { s with world := w' } := by
  cases a with
  | receive d => exact (ha d rfl).elim
  | _ => simp [step, h, State.waits, hs]

/-- A server in which no thread waits makes each step of `World`, and a thread that it starts can
read its arguments at once. -/
theorem exists_settled_step {a : Action} (hs : s.unread = []) (h : s.world.step a = some w') :
    ∃ bs s', run step s bs = some s' ∧ Along step Settled s bs ∧
      bs.filterMap Step.toServer = [a] ∧ s'.unread = [] ∧ s'.world = w' := by
  by_cases ha : ∃ d, a = .receive d
  · obtain ⟨d, rfl⟩ := ha
    have hstep : step s (.server (.receive d)) =
        some ⟨(recvfrom d.payload).1, d.source, w', started s.world d⟩ := by
      simp [step, h, hs]
    have hsettled : Settled s (.server (.receive d)) := fun t ht => by simp [hs] at ht
    rcases started_cases s.world d with hnone | ⟨t, ht⟩
    · exact ⟨[.server (.receive d)], _, by rw [run_singleton, hstep], along_singleton.mpr hsettled,
        rfl, hnone, rfl⟩
    · have hup : w'.terminated = false := by
        simpa [World.cleanupThrows] using World.terminated_step h
      have hcall : w'.call t.worker = some (t.launch.read (recvfrom d.payload).1 d.source) :=
        call_started h (by simp [ht])
      have hread : step ⟨(recvfrom d.payload).1, d.source, w', started s.world d⟩ (.read 0) =
          some ⟨(recvfrom d.payload).1, d.source, w', []⟩ := by
        simp [step, hup, ht, World.handOver_of_call hcall]
      refine ⟨[.server (.receive d), .read 0], ⟨(recvfrom d.payload).1, d.source, w', []⟩, ?_,
        ⟨hsettled, ?_⟩, rfl, rfl, rfl⟩
      · rw [run_cons, hstep, Option.bind_some, run_singleton, hread]
      · rw [hstep]
        exact along_singleton.mpr trivial
  · have hne : ∀ d, a ≠ .receive d := fun d hd => ha ⟨d, hd⟩
    have hsettled : Settled s (.server a) := by
      cases a with
      | receive d => exact (hne d rfl).elim
      | _ => trivial
    refine ⟨[.server a], { s with world := w' }, ?_, along_singleton.mpr hsettled, rfl, hs, rfl⟩
    rw [run_singleton, step_server_of_ne hne hs h]

/-- Each run of `World` is one of a settled run, in which every thread reads its arguments at
once. -/
theorem exists_settled_run {bs : List Action} (hr : w.run bs = some w') :
    ∃ as s, run step (start w) as = some s ∧ Along step Settled (start w) as ∧
      as.filterMap Step.toServer = bs ∧ s.world = w' := by
  have hsimulates : ∃ as s, run step (start w) as = some s ∧ Along step Settled (start w) as ∧
      (trace step (fun _ a => a.toServer.toList) (start w) as).flatten =
        (trace World.step (fun _ a => [a]) w bs).flatten ∧ s.unread = [] ∧ s.world = w' := by
    refine run_simulates (fun (w : World) (s : State) => s.unread = [] ∧ s.world = w)
      (fun w a w' s hR _ hs => ?_) ⟨rfl, rfl⟩ hr (along_true _ _)
    obtain ⟨hunread, rfl⟩ := hR
    obtain ⟨as, s', hrun, hP, hbs, hunread', hworld⟩ := exists_settled_step hunread hs
    refine ⟨as, s', hrun, hP, ?_, hunread', hworld⟩
    rw [trace_eq_map _ hrun, ← hbs, List.filterMap_eq_flatMap_toList]
    rfl
  obtain ⟨as, s, hrun, hP, htrace, -, hworld⟩ := hsimulates
  refine ⟨as, s, hrun, hP, ?_, hworld⟩
  rw [trace_eq_map _ hrun, trace_eq_map _ hr] at htrace
  rw [List.filterMap_eq_flatMap_toList, List.flatMap_def, htrace, ← List.flatMap_def,
    List.flatMap_singleton']

/-- The runs of `World` are the settled runs of the server with one buffer. -/
theorem run_iff_settled {bs : List Action} : w.run bs = some w' ↔
    ∃ as s, run step (start w) as = some s ∧ Along step Settled (start w) as ∧
      as.filterMap Step.toServer = bs ∧ s.world = w' := by
  refine ⟨exists_settled_run, ?_⟩
  rintro ⟨as, s, hrun, hP, rfl, rfl⟩
  exact run_of_settled hrun hP

/-! ## What carries over -/

/-- In a settled run, what the server sends answers requests that it has received, each at most
once. -/
theorem answered_of_settled {server : Server} {as : List Step} (multicastAddress : Bytes)
    (hr : run step (start (World.initial server)) as = some s)
    (hP : Along step Settled (start (World.initial server)) as) :
    ∃ bs : List Question, bs.Subperm ((as.filterMap Step.toServer).flatMap Action.asks) ∧
      List.Forall₂ (Answers multicastAddress) bs (trace step
        (fun s => s.replies multicastAddress) (start (World.initial server)) as).flatten := by
  rw [replies_of_settled multicastAddress hr hP]
  exact World.answered_once (run_of_settled hr hP)

/-- An upload and a download, whose threads read their arguments at once. -/
def sharedFetch : List Step :=
  let receives (as : List Action) : List Step :=
    (as.take 1).map .server ++ .read 0 :: (as.drop 1).map .server
  receives World.keptUpload ++ receives World.servedFetch

theorem sharedFetch_answered : ∃ bs : List Question,
    bs.Subperm ((sharedFetch.filterMap Step.toServer).flatMap Action.asks) ∧
      List.Forall₂ (Answers []) bs (trace step (fun s => s.replies [])
        (start (World.started 10)) sharedFetch).flatten := by
  obtain ⟨s, hr⟩ := Option.isSome_iff_exists.mp
    (by decide : (run step (start (World.started 10)) sharedFetch).isSome)
  exact answered_of_settled [] hr (by decide)

/-- In a settled run the uploads and the removals do what they do in a settled run without the
readers. -/
theorem writers_of_settled {server : Server} {as : List Step}
    (hr : run step (start (World.initial server)) as = some s)
    (hP : Along step Settled (start (World.initial server)) as) :
    ∃ bs s', run step (start (World.initial server)) bs = some s' ∧
      Along step Settled (start (World.initial server)) bs ∧
      bs.filterMap Step.toServer = (as.filterMap Step.toServer).filter Action.writes ∧
      s'.world = s.world.writers :=
  exists_settled_run (World.run_writers (run_of_settled hr hP))

/-- The server after an upload and a fetch is the one after the upload. -/
theorem sharedFetch_writers : ∃ s, run step (start (World.started 10)) sharedFetch = some s ∧
    ∃ bs s', run step (start (World.started 10)) bs = some s' ∧
      Along step Settled (start (World.started 10)) bs ∧
      bs.filterMap Step.toServer = (sharedFetch.filterMap Step.toServer).filter Action.writes ∧
      s'.world = s.world.writers := by
  obtain ⟨s, hr⟩ := Option.isSome_iff_exists.mp
    (by decide : (run step (start (World.started 10)) sharedFetch).isSome)
  exact ⟨s, hr, writers_of_settled hr (by decide)⟩

end SharedBuffer

end Netstore
