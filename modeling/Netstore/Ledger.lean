import Netstore.Accounting
import Netstore.Admission
import Netstore.Replies
import Mathlib.Data.Nat.ModEq

/-!
# The ledger of the space counter

In orderly runs the counter is the bytes of the stored files and the reservations
(`Accounting`). In any run, orderly or not, it is a ledger : it is its first value, and the declared
sizes of the uploads that hold a reservation or have ended with their file kept, less the sizes that
removals have measured (`ledger_of_run`). The counter may wrap, so this holds modulo `2 ^ 64`. What
it is off by is thus the difference between what an upload declared and what the removal of its name
measured, or all of a size whose removal failed or whose file was overwritten.
-/

namespace Netstore

open Transition

/-- What a call of an upload adds to the counter is what it adds to its charge. -/
theorem Upload.usedSpace_next {s s' : Server} {u : Upload} {c : UploadCall} {pc : UploadPc}
    (h : u.next s c = some (s', pc)) :
    s'.usedSpace.toNat + u.charge ≡
      s.usedSpace.toNat + Upload.charge { u with pc := pc } [MOD 2 ^ 64] := by
  cases next_effect h with
  | quiet used files share =>
    rw [used, charge, charge, UploadPc.charged_of_share share]
  | reserve fits before after eq =>
    subst eq
    simp only [charge, before, after, UInt64.toNat_add]
    exact (Nat.mod_modEq _ _).add_right 0
  | release before after eq =>
    subst eq
    have hcharged : u.pc.charged = true := by simp [UploadPc.charged, before]
    have hfreed : pc.charged = false := by
      simp only [UploadPc.share, Prod.mk.injEq] at after
      simp [UploadPc.charged, after.1, after.2.2]
    have hback : s.usedSpace - u.fileSize + u.fileSize = s.usedSpace := by simp
    rw [charge, charge, if_pos hcharged, hfreed, if_neg (by simp), Nat.add_zero, Server.freeSpace]
    dsimp only
    nth_rewrite 2 [← hback]
    rw [UInt64.toNat_add]
    exact (Nat.mod_modEq _ _).symm
  | insert fresh before after eq =>
    subst eq
    simp only [charge, before, after]
    rfl
  | erase before after eq =>
    subst eq
    rcases before with before | before <;> simp only [charge, before, after] <;> rfl
  | keep bs used files before after =>
    simp only [UploadPc.share, Prod.mk.injEq] at before
    simp only [charge, used, after, UploadPc.charged, before.1]
    rfl

namespace World

/-- The size that a step of a removal gives back. -/
def released (w : World) : Action → ℕ
  | .remove .freeSpace =>
    match w.loop with
    | .removing _ (.measured size) => size.toNat
    | _ => 0
  | _ => 0

variable {w w' : World} {a : Action}

theorem sum_charge_start (source : SockAddr) (r : Request) :
    (w.start source r).server.usedSpace = w.server.usedSpace ∧
      ((w.start source r).uploads.map Upload.charge).sum = (w.uploads.map Upload.charge).sum := by
  cases r with
  | upload seq filename fileSize =>
    refine ⟨rfl, ?_⟩
    simp only [start, List.map_append, List.map_singleton, List.sum_append, List.sum_singleton]
    rfl
  | file seq filename =>
    unfold start
    dsimp only
    split_ifs <;> exact ⟨rfl, rfl⟩
  | discover | filesList | remove => exact ⟨rfl, rfl⟩

/-- What a step adds to the counter, and gives back, it adds to the charges. -/
theorem usedSpace_step (h : w.step a = some w') :
    w'.server.usedSpace.toNat + w.released a + (w.uploads.map Upload.charge).sum ≡
      w.server.usedSpace.toNat + (w'.uploads.map Upload.charge).sum [MOD 2 ^ 64] := by
  cases move_of_step h with
  | stay call => rcases call with rfl | ⟨d, rfl, -⟩ <;> rfl
  | @start d r idle request =>
    obtain ⟨hused, hsum⟩ := sum_charge_start (w := w) d.source r
    rw [hused, hsum]
    rfl
  | discovered | download | list => rfl
  | @removal c f pc _ loop next =>
    rw [uploads_removeNext next]
    refine Nat.ModEq.add_right _ ?_
    cases removeNext_cases next with
    | release before =>
      subst before
      rename_i size
      have hback : w.server.usedSpace - size + size = w.server.usedSpace := by simp
      simp only [released, loop, Server.freeSpace]
      nth_rewrite 2 [← hback]
      rw [UInt64.toNat_add]
      exact (Nat.mod_modEq _ _).symm
    | fail call => rcases call with rfl | rfl <;> rfl
    | measure | remove => rfl
  | @upload i c u s pc t thread next =>
    have hnext := Upload.usedSpace_next next
    have hsum := sum_charge_set pc thread
    refine Nat.ModEq.add_right_cancel' u.charge ?_
    calc s.usedSpace.toNat + w.released (.upload i c) + (w.uploads.map Upload.charge).sum + u.charge
        = s.usedSpace.toNat + u.charge + (w.uploads.map Upload.charge).sum := by
          rw [show w.released (.upload i c) = 0 from rfl]
          omega
      _ ≡ w.server.usedSpace.toNat + Upload.charge { u with pc := pc } +
          (w.uploads.map Upload.charge).sum [MOD 2 ^ 64] := hnext.add_right _
      _ = w.server.usedSpace.toNat +
          ((w.uploads.set i { u with pc := pc }).map Upload.charge).sum + u.charge := by omega

/-- In every run the counter, with the sizes that removals have given back, is what it was and
what uploads have taken and not given back. -/
theorem ledger_of_run {s : Server} {as : List Action} (hr : run (initial s) as = some w) :
    w.server.usedSpace.toNat + (trace step released (initial s) as).sum ≡
      s.usedSpace.toNat + (w.uploads.map Upload.charge).sum [MOD 2 ^ 64] := by
  refine run_induction_all (fun as w =>
    w.server.usedSpace.toNat + (trace step released (initial s) as).sum ≡
      s.usedSpace.toNat + (w.uploads.map Upload.charge).sum [MOD 2 ^ 64]) (by rfl)
    (fun as w a w' hr h hs => ?_) hr
  rw [trace_concat released hr, List.sum_append, List.sum_singleton]
  refine Nat.ModEq.add_right_cancel' (w.uploads.map Upload.charge).sum ?_
  have hstep := usedSpace_step hs
  calc w'.server.usedSpace.toNat + ((trace step released (initial s) as).sum + w.released a) +
        (w.uploads.map Upload.charge).sum
      = w'.server.usedSpace.toNat + w.released a + (w.uploads.map Upload.charge).sum +
        (trace step released (initial s) as).sum := by omega
    _ ≡ w.server.usedSpace.toNat + (w'.uploads.map Upload.charge).sum +
        (trace step released (initial s) as).sum [MOD 2 ^ 64] := hstep.add_right _
    _ = w.server.usedSpace.toNat + (trace step released (initial s) as).sum +
        (w'.uploads.map Upload.charge).sum := by omega
    _ ≡ s.usedSpace.toNat + (w.uploads.map Upload.charge).sum +
        (w'.uploads.map Upload.charge).sum [MOD 2 ^ 64] := h.add_right _
    _ = s.usedSpace.toNat + (w'.uploads.map Upload.charge).sum +
        (w.uploads.map Upload.charge).sum := by omega

/-- The cleanup of an upload whose name is removed leaves the counter five below zero. -/
theorem removedUpload_ledger :
    ∃ w, run (started 10) (removedUpload ++ [.upload 0 .freeSpace]) = some w ∧
      w.server.usedSpace = -5 ∧ w.server.usedSpace.toNat +
        (trace step released (started 10) (removedUpload ++ [.upload 0 .freeSpace])).sum ≡
          (started 10).server.usedSpace.toNat + (w.uploads.map Upload.charge).sum [MOD 2 ^ 64] := by
  obtain ⟨w, hr, hw⟩ : ∃ w, run (started 10) (removedUpload ++ [.upload 0 .freeSpace]) = some w ∧
      decide (w.server.usedSpace = -5) := exists_run_of_any _ (by decide)
  exact ⟨w, hr, of_decide_eq_true hw, ledger_of_run hr⟩

end World

end Netstore
