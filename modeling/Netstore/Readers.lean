import Netstore.Replies
import Netstore.Retrieval

/-!
# What is read leaves no trace

A discovery, a files list and a download read the index, the counter and the folder. They change
none of them, and no call of theirs terminates the server. So uploads and removals do in every run
what they do in the same run without the readers, however the steps are mixed and whichever calls
of the readers fail (`run_writers`).
-/

namespace Netstore

open Transition

/-- The step is of an upload or a removal, or receives the request for one. -/
def Action.writes : Action → Bool
  | .receive d =>
    match Netstore.receive d.payload with
    | .ok (some (.remove _)) | .ok (some (.upload ..)) => true
    | _ => false
  | .remove _ | .upload .. => true
  | _ => false

/-- The loop, if it is in a removal. -/
def Loop.writers : Loop → Loop
  | .removing filename pc => .removing filename pc
  | _ => .idle

namespace World

/-- The server without its readers. -/
def writers (w : World) : World :=
  { w with loop := w.loop.writers, downloads := [], listings := [] }

variable {w w' : World} {a : Action}

/-- A removal does not depend on the readers. -/
theorem removeNext_writers {f : Filename} {pc : RemovalPc} {c : RemovalCall}
    (h : w.removeNext f pc c = some w') : w.writers.removeNext f pc c = some w'.writers := by
  cases removeNext_cases h with
  | measure before content => simp [removeNext, writers, before, content, Loop.writers]
  | release before => simp [removeNext, writers, before, Loop.writers]
  | remove before remove => simp [removeNext, writers, before, remove, Loop.writers]
  | fail call =>
    rcases call with rfl | rfl
    · cases pc with
      | erased =>
        simp only [removeNext, Bool.false_eq_true, if_false] at h ⊢
        rw [throw, if_pos (by decide)]
        rfl
      | _ => simp [removeNext] at h
    · cases pc with
      | released =>
        simp only [removeNext, Bool.false_eq_true, if_false] at h ⊢
        rw [throw, if_pos (by decide)]
        rfl
      | _ => simp [removeNext] at h

/-- What a writer does is the same without the readers. -/
theorem step_writers (ha : a.writes) (h : w.step a = some w') :
    w.writers.step a = some w'.writers := by
  have hlive := live_of_step h
  unfold step at h ⊢
  rw [if_neg (by simp [hlive])] at h
  rw [if_neg (by simp [writers, hlive])]
  cases a with
  | receive d =>
    dsimp only at h ⊢
    rw [Action.writes] at ha
    split_ifs at h with hidle
    have hidle' : w.writers.loop = .idle := by rw [writers, hidle]; rfl
    rw [if_pos hidle']
    split at ha
    · rename_i f hd
      simp only [hd] at h ⊢
      cases h
      simp only [start, writers, hidle]
      split_ifs <;> rfl
    · rename_i seq f size hd
      simp only [hd] at h ⊢
      cases h
      rfl
    · cases ha
  | remove c =>
    dsimp only at h
    split at h
    · rename_i f pc hloop
      have hloop' : w.writers.loop = .removing f pc := by rw [writers, hloop]; rfl
      simp only [hloop']
      exact removeNext_writers h
    · cases h
  | upload i c =>
    obtain ⟨u, hu, h⟩ := Option.bind_eq_some_iff.mp h
    obtain ⟨⟨s, pc⟩, hn, rfl⟩ := Option.map_eq_some_iff.mp h
    simp [writers, hu, hn]
  | _ => cases ha

/-- What a reader does is not seen without the readers. -/
theorem writers_of_reads (ha : a.writes = false) (h : w.step a = some w') :
    w'.writers = w.writers := by
  have hterminated : w'.terminated = w.terminated := by
    have hthrows : w'.terminated = cleanupThrows a := Bool.eq_iff_iff.mpr (terminated_step h)
    rw [hthrows, live_of_step h]
    cases a <;> first | rfl | cases ha
  cases move_of_step h with
  | stay => rfl
  | @start d r idle request =>
    rw [Action.writes, request] at ha
    cases r with
    | discover seq => simp [start, writers, idle, Loop.writers]
    | filesList seq pattern => rfl
    | file seq filename =>
      unfold start
      dsimp only
      split_ifs <;> rfl
    | remove | upload => cases ha
  | discovered loop => simp [writers, loop, Loop.writers]
  | removal | upload => cases ha
  | download thread next => simpa [writers] using hterminated
  | list => rfl

/-- In every run the uploads and the removals do what they do without the readers. -/
theorem run_writers {s : Server} {as : List Action} (hr : run (initial s) as = some w) :
    run (initial s) (as.filter Action.writes) = some w.writers := by
  have hproject : ∃ w', run (initial s) (as.filterMap (Option.guard Action.writes)) = some w' ∧
      w' = w.writers ∧ Along step (fun _ _ => True) (initial s)
        (as.filterMap (Option.guard Action.writes)) := by
    refine run_projects (fun w t => t = w.writers) (Option.guard Action.writes)
      (fun w a w' t ht _ hs => ?_) rfl hr (along_true _ _)
    subst ht
    cases ha : a.writes with
    | true => simpa [Option.guard, ha] using step_writers ha hs
    | false => simpa [Option.guard, ha] using (writers_of_reads ha hs).symm
  obtain ⟨w', hr', rfl, -⟩ := hproject
  rwa [List.filterMap_eq_filter] at hr'

end World

end Netstore
