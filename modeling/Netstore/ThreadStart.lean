import Netstore.Protocol
import Netstore.SortedSet
import Netstore.Transition

/-!
# How the loop starts a handler

The loop has one message object and one source address, and overwrites both with every
datagram. The arguments of a handler are copied as they are passed : the sequence
number and the size as values, the data array as a pointer into the message object,
and the address of an upload as a reference to the loop's. The thread builds its string,
and its copy of the address, when it starts to run.

So a handler works on its own request if no datagram is received between its start and
its first step that changes what it reads (`own_request_of_settled`), and then
`Netstore.receive` gives its arguments. Otherwise it takes a later datagram's :
`swappedName` fetches a name that was never looked up in the index.
-/

namespace Netstore

namespace ThreadStart

open Transition

/-- The arguments of a handler as `std::thread` copies them. -/
inductive Launch where
  /-- The address is a reference, the filename a pointer into the complex view. -/
  | upload (messageSeq fileSize : UInt64)
  /-- The pattern is a pointer into the simple view. -/
  | filesList (destinationAddress : SockAddr) (messageSeq : UInt64)
  /-- The filename is a pointer into the simple view. -/
  | file (destinationAddress : SockAddr) (messageSeq : UInt64)
  deriving DecidableEq

/-- The arguments a handler runs with : its client and its request. -/
abbrev Call := SockAddr × Request

/-- What a thread reads when it starts to run. -/
def Launch.read (message : Message) (sourceAddress : SockAddr) : Launch → Call
  | upload messageSeq fileSize =>
    (sourceAddress, .upload messageSeq message.complexData fileSize)
  | filesList destinationAddress messageSeq =>
    (destinationAddress, .filesList messageSeq message.simpleData)
  | file destinationAddress messageSeq =>
    (destinationAddress, .file messageSeq message.simpleData)

/-- A started thread. -/
structure Thread where
  /-- The datagram of the iteration that started it. -/
  datagram : Datagram
  /-- The index in that iteration. -/
  filesInStorage : SortedSet Bytes
  launch : Launch
  /-- What it has read, once it has started to run. -/
  call : Option Call

/-- The loop's variables, the index, and the threads it has started. -/
structure State where
  message : Message
  sourceAddress : SockAddr
  filesInStorage : SortedSet Bytes
  threads : List Thread

/-- An iteration of the loop, or what happens besides. -/
inductive Step where
  /-- An iteration of the loop that receives a datagram. -/
  | receive (d : Datagram)
  /-- An iteration in which `recvfrom` throws. -/
  | receiveFails
  /-- A thread starts to run. -/
  | read (i : ℕ)
  /-- Handlers and removals change the index. -/
  | change (filesInStorage : SortedSet Bytes)

/-- The thread that an iteration starts for a valid message, if any. -/
def launch (message : Message) (sourceAddress : SockAddr) (filesInStorage : SortedSet Bytes) :
    Option Launch :=
  if message.commandString = fileAddRequest then
    some (.upload message.messageSeq message.param)
  else if message.commandString = discoverRequest then none
  else if message.commandString = filesListRequest then
    some (.filesList sourceAddress message.messageSeq)
  else if message.commandString = fileGetRequest then
    if message.simpleData ∈ filesInStorage then some (.file sourceAddress message.messageSeq)
    else none
  else none

/-- The threads that the iteration of a datagram starts. -/
def started (d : Datagram) (filesInStorage : SortedSet Bytes) : List Thread :=
  match messageValidation (recvfrom d.payload).1 (recvfrom d.payload).2 with
  | .error _ => []
  | .ok _ =>
    (launch (recvfrom d.payload).1 d.source filesInStorage).toList.map fun l =>
      ⟨d, filesInStorage, l, none⟩

/-- A received datagram overwrites the buffer, and a thread reads what is in it then. -/
def step (s : State) : Step → Option State
  | .receive d =>
    some { s with
      message := (recvfrom d.payload).1
      sourceAddress := d.source
      threads := s.threads ++ started d s.filesInStorage }
  | .receiveFails => some s
  | .read i =>
    match s.threads[i]? with
    | some t =>
      match t.call with
      | none => some { s with
          threads := s.threads.set i
            { t with call := some (t.launch.read s.message s.sourceAddress) } }
      | some _ => none
    | none => none
  | .change filesInStorage => some { s with filesInStorage := filesInStorage }

/-- The loop before its first iteration. -/
def initial (filesInStorage : SortedSet Bytes) : State :=
  ⟨[], ⟨0, 0⟩, filesInStorage, []⟩

/-! ## A handler's own request -/

/-- The call is the request of the datagram, and the name it fetches is in the index. -/
def Own (d : Datagram) (filesInStorage : SortedSet Bytes) (c : Call) : Prop :=
  ∃ r, Netstore.receive d.payload = .ok (some r) ∧ c = (d.source, r) ∧
    ∀ seq f, r = .file seq f → f ∈ filesInStorage

/-- Every thread that runs works on the request of the datagram that started it. -/
def OwnRequests (s : State) : Prop :=
  ∀ t ∈ s.threads, ∀ c, t.call = some c → Own t.datagram t.filesInStorage c

/-- A datagram does not change what the threads that have yet to run will read. -/
def Settled (s : State) : Step → Prop
  | .receive d => ∀ t ∈ s.threads, t.call = none →
      t.launch.read (recvfrom d.payload).1 d.source = t.launch.read s.message s.sourceAddress
  | _ => True

instance (s : State) (a : Step) : Decidable (Settled s a) := by
  unfold Settled
  split <;> infer_instance

variable {s s' : State} {a : Step} {as : List Step}

/-- Read at once, the arguments are the ones of `dispatch`. -/
theorem dispatch_of_launch {m : Message} {source : SockAddr} {files : SortedSet Bytes}
    {l : Launch} (h : launch m source files = some l) :
    ∃ r, dispatch m = some r ∧ l.read m source = (source, r) ∧
      ∀ seq f, r = .file seq f → f ∈ files := by
  unfold launch at h
  unfold dispatch
  split_ifs at h with hadd hhello hlist hget hf <;> cases h
  · exact ⟨_, by rw [if_pos hadd], rfl, nofun⟩
  · exact ⟨_, by rw [if_neg hadd, if_neg hhello, if_pos hlist], rfl, nofun⟩
  · refine ⟨_, by rw [if_neg hadd, if_neg hhello, if_neg hlist, if_pos hget], rfl, ?_⟩
    rintro seq f ⟨⟩
    exact hf

/-- A thread that has just been started would read its own request. -/
theorem own_of_mem_started {d : Datagram} {files : SortedSet Bytes} {t : Thread}
    (ht : t ∈ started d files) : t.call = none ∧ t.datagram = d ∧ t.filesInStorage = files ∧
      Own d files (t.launch.read (recvfrom d.payload).1 d.source) := by
  unfold started at ht
  split at ht
  · cases ht
  · rename_i hval
    obtain ⟨l, hl, rfl⟩ := List.mem_map.mp ht
    rw [Option.mem_toList] at hl
    obtain ⟨r, hd, hread, hfile⟩ := dispatch_of_launch hl
    refine ⟨rfl, rfl, rfl, r, ?_, hread, hfile⟩
    simp only [Netstore.receive, hval, hd]
    rfl

/-- What the threads have read is their own request, and so is what they will read. -/
def Ready (s : State) : Prop :=
  ∀ t ∈ s.threads,
    Own t.datagram t.filesInStorage (t.call.getD (t.launch.read s.message s.sourceAddress))

theorem Ready.step (h : Ready s) (ha : Settled s a) (hs : step s a = some s') : Ready s' := by
  cases a with
  | receive d =>
    cases hs
    intro t ht
    rcases List.mem_append.mp ht with ht | ht
    · have hown := h t ht
      cases hc : t.call with
      | none => simpa [hc, ha t ht hc] using hown
      | some c => simpa [hc] using hown
    · obtain ⟨hcall, hd, hfiles, hown⟩ := own_of_mem_started ht
      simpa [hcall, hd, hfiles] using hown
  | receiveFails =>
    cases hs
    exact h
  | read i =>
    simp only [ThreadStart.step] at hs
    split at hs
    · rename_i t hi
      split at hs
      · rename_i hcall
        cases hs
        intro v hv
        rcases mem_set_of_getElem? hi hv with rfl | ⟨j, -, hj⟩
        · simpa [hcall] using h t (List.mem_of_getElem? hi)
        · exact h v (List.mem_of_getElem? hj)
      · cases hs
    · cases hs
  | change files =>
    cases hs
    exact h

/-- If no datagram changes what a started thread has yet to read, every handler works on
the request of the datagram that started it, for the client that sent it, and fetches
only what the loop found in the index. -/
theorem own_request_of_settled {files : SortedSet Bytes}
    (hr : run step (initial files) as = some s) (hP : Along step Settled (initial files) as) :
    OwnRequests s := by
  have h : Ready s := run_invariant Ready (fun _ _ _ h ha hs => h.step ha hs)
    (fun t ht => by cases ht) hr hP
  intro t ht c hc
  simpa [hc] using h t ht

/-- A client asks for a file of the index, and another client for `../x`. -/
def ownNames : List Step :=
  [.receive (simpleDatagram ⟨1, 1⟩ 1 fileGetRequest [97]), .read 0,
    .receive (simpleDatagram ⟨2, 2⟩ 2 fileGetRequest [46, 46, 47, 120])]

theorem ownNames_own : ∃ s, run step (initial (SortedSet.ofList [[97]])) ownNames = some s ∧
    OwnRequests s := by
  obtain ⟨s, hr, -⟩ : ∃ s, run step (initial (SortedSet.ofList [[97]])) ownNames = some s ∧
      decide (s.threads.length = 1) := exists_run_of_any _ (by decide)
  exact ⟨s, hr, own_request_of_settled hr (by decide)⟩

/-- The same datagrams, before the handler of the first has started to run. -/
def swappedName : List Step :=
  [.receive (simpleDatagram ⟨1, 1⟩ 1 fileGetRequest [97]),
    .receive (simpleDatagram ⟨2, 2⟩ 2 fileGetRequest [46, 46, 47, 120]), .read 0]

/-- The handler fetches a name that is not in the index. -/
theorem swappedName_not_own :
    ∃ s, run step (initial (SortedSet.ofList [[97]])) swappedName = some s ∧
      s.threads.map Thread.call = [some (⟨1, 1⟩, .file 1 [46, 46, 47, 120])] ∧
      [46, 46, 47, 120] ∉ s.filesInStorage ∧ ¬OwnRequests s := by
  obtain ⟨s, hr, hs⟩ : ∃ s, run step (initial (SortedSet.ofList [[97]])) swappedName = some s ∧
      decide (s.threads.map (fun t => (t.call, t.filesInStorage.toList)) =
          [(some (⟨1, 1⟩, .file 1 [46, 46, 47, 120]), [[97]])] ∧
        [46, 46, 47, 120] ∉ s.filesInStorage) := exists_run_of_any _ (by decide)
  obtain ⟨hthreads, hmem⟩ := of_decide_eq_true hs
  obtain ⟨t, ht, hcall⟩ := List.map_eq_singleton_iff.mp hthreads
  obtain ⟨hcall, hfiles⟩ := Prod.mk.inj hcall
  refine ⟨s, hr, by rw [ht, List.map_singleton, hcall], hmem, fun h => ?_⟩
  obtain ⟨r, -, hc, hfile⟩ := h t (by simp [ht]) _ hcall
  have hin := hfile 1 [46, 46, 47, 120] (Prod.mk.inj hc).2.symm
  rw [← SortedSet.mem_toList, hfiles] at hin
  simp at hin

end ThreadStart

end Netstore
