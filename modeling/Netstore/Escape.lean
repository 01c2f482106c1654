import Netstore.World

/-!
# Exceptions that leave a thread

An exception that leaves a handler's thread or the loop terminates the server. Every
call that can throw is inside a `try` that catches what it throws, but for two
(`CallSite.caught_iff`) : `fs::exists` and `fs::remove` in the cleanup of a failed
upload. The removal of a file catches what the same calls throw.

So the server is terminated exactly by the runs in which one of these throws
(`terminated_iff`). A name longer than the file system allows is enough
(`longName_terminates`) : nothing is created under it, and looking for it throws.
-/

namespace Netstore

/-- The calls whose exception is not caught. -/
theorem CallSite.caught_iff (c : CallSite) :
    c.caught = false ↔ c = .uploadExists ∨ c = .uploadRemove := by
  cases c <;> decide

/-- A file system call of the cleanup throws. -/
def UploadCall.cleanupThrows : UploadCall → Bool
  | fileExists ok | removeFile ok => !ok
  | _ => false

/-- An upload handler is left by an exception when a call of its cleanup throws. -/
theorem Upload.uncaught_iff {s s' : Server} {u : Upload} {c : UploadCall} {pc : UploadPc}
    (h : u.next s c = some (s', pc)) : (∃ e, pc = .uncaught e) ↔ c.cleanupThrows := by
  cases next_cases h with
  | existsThrows | removeThrows => exact ⟨fun _ => rfl, fun _ => ⟨_, rfl⟩⟩
  | close | closeFail =>
    unfold afterTransfer
    split_ifs <;> simp [UploadCall.cleanupThrows]
  | _ => simp [UploadCall.cleanupThrows]

/-- No exception leaves a download handler. -/
theorem Download.not_uncaught {s : Server} {u : Download} {c : DownloadCall} {pc : DownloadPc}
    (h : u.next s c = some pc) (e : Exn) : pc ≠ .uncaught e := by
  cases next_cases h <;> simp

namespace World

open Transition

/-- The step is a call of a cleanup that throws. -/
def cleanupThrows : Action → Bool
  | .upload _ c => c.cleanupThrows
  | _ => false

variable {w w' : World} {a : Action} {as : List Action}

theorem terminated_removeNext {f : Filename} {pc : RemovalPc} {c : RemovalCall}
    (h : w.removeNext f pc c = some w') : w'.terminated = w.terminated := by
  cases removeNext_cases h <;> rfl

theorem terminated_start (source : SockAddr) (r : Request) :
    (w.start source r).terminated = w.terminated := by
  cases r <;> simp only [start]
  split_ifs <;> rfl

/-- A step terminates the server when it is a call of a cleanup that throws. -/
theorem terminated_step (hs : w.step a = some w') : w'.terminated ↔ cleanupThrows a := by
  unfold step at hs
  rw [ite_eq_iff] at hs
  obtain ⟨ht, hs⟩ := hs.resolve_left (by simp)
  cases a with
  | upload i c =>
    obtain ⟨u, hu, hs⟩ := Option.bind_eq_some_iff.mp hs
    obtain ⟨⟨s, pc⟩, hn, hs⟩ := Option.map_eq_some_iff.mp hs
    cases hs
    rw [cleanupThrows, ← Upload.uncaught_iff hn]
    cases pc <;> simp
  | download i c =>
    obtain ⟨u, hu, hs⟩ := Option.bind_eq_some_iff.mp hs
    obtain ⟨pc, hn, hs⟩ := Option.map_eq_some_iff.mp hs
    cases hs
    have := Download.not_uncaught hn
    cases pc <;> simp_all [cleanupThrows]
  | receive d =>
    dsimp only at hs
    split_ifs at hs
    split at hs <;> cases hs
    · simpa [throw, CallSite.caught, CallSite.catches, CallSite.raises, cleanupThrows] using ht
    · simpa [cleanupThrows] using ht
    · rw [terminated_start]
      simpa [cleanupThrows] using ht
  | remove c =>
    dsimp only at hs
    split at hs
    · rw [terminated_removeNext hs]
      simpa [cleanupThrows] using ht
    · cases hs
  | receiveFails =>
    dsimp only at hs
    split_ifs at hs
    cases hs
    simpa [throw, CallSite.caught, CallSite.catches, CallSite.raises, cleanupThrows] using ht
  | discover ok =>
    dsimp only at hs
    split at hs
    · cases hs
      split_ifs <;>
        simpa [throw, CallSite.caught, CallSite.catches, CallSite.raises, cleanupThrows] using ht
    · cases hs
  | filesList i sends =>
    obtain ⟨l, hl, hs⟩ := Option.bind_eq_some_iff.mp hs
    split_ifs at hs with he hc <;> cases hs
    · simpa [cleanupThrows] using ht
    · exact absurd (show CallSite.caught .filesListSend from rfl) (by simp_all)

/-- A run terminates the server exactly when one of its steps is a call of a cleanup
that throws. -/
theorem terminated_iff (s₀ : Server) (hr : run (initial s₀) as = some w) :
    w.terminated = false ↔ ∀ a ∈ as, cleanupThrows a = false := by
  induction as using List.reverseRecOn generalizing w with
  | nil =>
    obtain rfl : initial s₀ = w := by simpa using hr
    simp [initial]
  | append_singleton as a ih =>
    rw [World.run, run_concat] at hr
    obtain ⟨w₁, h₁, hs⟩ := Option.bind_eq_some_iff.mp hr
    have hlive : w₁.terminated = false := by
      cases ht : w₁.terminated with
      | false => rfl
      | true => simp [World.step, ht] at hs
    have hbefore := (ih h₁).mp hlive
    have hstep := terminated_step hs
    constructor
    · intro ht b hb
      rcases List.mem_append.mp hb with hb | hb
      · exact hbefore b hb
      · rw [List.mem_singleton.mp hb]
        simpa [ht] using hstep
    · intro h
      simpa [h a (by simp)] using hstep

/-- A client announces a file and does not connect, and the file cannot be looked for. -/
def unfindable (f : Filename) : List Action :=
  [.receive (addDatagram ⟨1, 1⟩ 1 f 1), .upload 0 .checkAndReserveSpace,
    .upload 0 .addFileToStorage, .upload 0 (.announce (some 5)), .upload 0 (.select .timeout),
    .upload 0 (.fileExists false)]

/-- Any name that is accepted and cannot be looked for terminates the server. -/
theorem run_unfindable {f : Filename} (h0 : (0 : UInt8) ∉ f)
    (hf : f.length ≤ maxComplexDataSize) (hname : acceptableName f) :
    ∃ w, run (started 10) (unfindable f) = some w ∧ w.terminated := by
  have hr := receive_addDatagram ⟨1, 1⟩ 1 1 h0 hf
  simp [unfindable, run, run_cons, step, hr, started, initial, Server.generateFilesInStorage, start,
    Upload.next, hname, Server.checkAndReserveSpace, Server.addFileToStorage]
  rfl

/-- A name that is longer than the file system allows. -/
def tooLong : Filename :=
  List.replicate 300 97

theorem tooLong_accepted :
    (0 : UInt8) ∉ tooLong ∧ tooLong.length ≤ maxComplexDataSize ∧ acceptableName tooLong := by
  have hlen : tooLong.length = 300 := List.length_replicate
  have hmem {b : UInt8} (hb : b ≠ 97) : b ∉ tooLong := fun h => hb (List.eq_of_mem_replicate h)
  have hmax : maxComplexDataSize = 65481 := rfl
  refine ⟨hmem (by decide), by omega, acceptableName_iff.mpr ⟨?_, hmem (by decide)⟩⟩
  exact List.ne_nil_of_length_pos (by omega)

/-- A client announces a file whose name is longer than the file system allows, and does
not connect. -/
def longName : List Action :=
  unfindable tooLong

theorem longName_before : ∃ w, run (started 10) (longName.take 5) = some w ∧
    w.terminated = false := by
  obtain ⟨h0, hlen, hname⟩ := tooLong_accepted
  obtain ⟨w', hr', -⟩ := run_unfindable h0 hlen hname
  rw [← List.take_append_drop 5 (unfindable tooLong), run, run_append] at hr'
  obtain ⟨w, hr, -⟩ := Option.bind_eq_some_iff.mp hr'
  refine ⟨w, hr, (terminated_iff _ hr).mpr fun a ha => ?_⟩
  simp only [unfindable, List.take_succ_cons, List.take_zero, List.mem_cons, List.not_mem_nil,
    or_false] at ha
  rcases ha with rfl | rfl | rfl | rfl | rfl <;> rfl

theorem longName_terminates : ∃ w, run (started 10) longName = some w ∧ w.terminated :=
  let ⟨h0, hlen, hname⟩ := tooLong_accepted
  run_unfindable h0 hlen hname

end World

end Netstore
