import Netstore.Undisturbed

/-!
# Durability of uploads

An upload that has ended with its file kept should stay in the index and on the disk,
with the bytes it received, until a removal of it begins (`Durable`). In orderly runs
it does (`durable_of_orderly`) : the name is stored from the step that ends the upload
on, and no step changes a stored name.

A removal that overlaps an upload breaks this (`lostUpload_not_durable`). It takes the
name of a waiting upload out of the index, another upload of the name is let in and
ends with its file kept, and the cleanup of the first, which goes by the name, removes
the file of the second.
-/

namespace Netstore

namespace World

open Transition

/-- Along the run from `w₀` every upload that ends with its file kept has received all
its bytes and stays in the index and on the disk, until a removal of its name begins. -/
def Durable (w₀ : World) (as : List Action) : Prop :=
  ∀ pre a post w₁ w₂ w (i : ℕ) (u : Upload) bs, as = pre ++ a :: post → run w₀ pre = some w₁ →
    run w₀ (pre ++ [a]) = some w₂ → run w₀ as = some w →
    w₁.uploads[i]?.map Upload.pc ≠ some (.kept bs) →
    w₂.uploads[i]? = some u → u.pc = .kept bs →
    (∀ b ∈ post, beginsRemoval u.filename b = false) →
      bs.length = u.fileSize.toNat ∧ u.filename ∈ w.server.filesInStorage ∧
        w.server.folder.content u.filename = some bs

variable {w₀ w w' : World} {a : Action} {as : List Action} {i : ℕ} {u : Upload} {bs : Bytes}
  {f : Filename}

/-- The step that ends an upload with its file kept leaves the file complete and
stored. -/
theorem Undisturbed.ends_kept (h : Undisturbed w) (ha : Orderly w a) (hs : w.step a = some w')
    (hbefore : w.uploads[i]?.map Upload.pc ≠ some (.kept bs)) (hu : w'.uploads[i]? = some u)
    (hpc : u.pc = .kept bs) : bs.length = u.fileSize.toNat ∧ w'.Stored u.filename ∧
      w'.server.folder.content u.filename = some bs := by
  have hsame : w'.uploads[i]? = w.uploads[i]? → False := fun he =>
    hbefore (by rw [← he, hu, Option.map_some, hpc])
  by_cases hup : ∃ j c, a = .upload j c
  · obtain ⟨j, c, rfl⟩ := hup
    cases step_cases hs with
    | @upload _ _ v s pc thread next terminated =>
      rcases (getElem?_set_eq_some thread).mp hu with ⟨rfl, rfl⟩ | ⟨hij, hu⟩
      · subst hpc
        obtain ⟨hcont, hlen, -⟩ := Upload.content_of_kept next (h.onDisk thread) ha.1.2
        obtain ⟨⟨ok, st, -, hclosing⟩, hserver⟩ := Upload.closing_of_kept next
        have hown : w.Owns i v.filename :=
          (has_self thread).mpr ⟨by rw [hclosing]; rfl, rfl⟩
        refine ⟨hlen, ⟨?_, ?_⟩, hcont⟩
        · rw [hserver]
          exact h.indexed hown
        · rw [owned_iff]
          rintro ⟨k, hk⟩
          rw [has_set thread] at hk
          rcases hk with ⟨-, hk, -⟩ | ⟨hki, hk⟩
          · cases hk
          · exact hki (h.unique hk hown)
      · exact (hsame (by rw [hu, List.getElem?_set_ne hij.symm, hu])).elim
    | other call => exact (call j c rfl).elim
  · have hup : ∀ j c, a ≠ .upload j c := fun j c he => hup ⟨j, c, he⟩
    rcases uploads_step hs hup with he | ⟨v, hv, he⟩
    · exact (hsame (by rw [he])).elim
    · rw [he, List.getElem?_append] at hu
      split_ifs at hu with hi
      · exact (hsame (by rw [he, List.getElem?_append_left hi])).elim
      · obtain rfl := List.mem_singleton.mp (List.mem_of_getElem? hu)
        rw [hv] at hpc
        cases hpc

/-- Along an orderly run a stored name keeps its bytes until a removal of it begins. -/
theorem Undisturbed.stored_run (h : Undisturbed w₀) (hf : w₀.Stored f)
    (hr : run w₀ as = some w) (hP : Along World.step Orderly w₀ as)
    (hdel : ∀ b ∈ as, beginsRemoval f b = false) :
    w.Stored f ∧ w.server.folder.content f = w₀.server.folder.content f := by
  refine (run_induction (fun as w => Undisturbed w ∧ ((∀ b ∈ as, beginsRemoval f b = false) →
    w.Stored f ∧ w.server.folder.content f = w₀.server.folder.content f))
    ⟨h, fun _ => ⟨hf, rfl⟩⟩ (fun as w a w' _ hI ha hs => ⟨hI.1.step ha hs, fun hdel => ?_⟩)
    hr hP).2 hdel
  obtain ⟨hst, hc⟩ := hI.2 fun b hb => hdel b (List.mem_append_left _ hb)
  exact ⟨hst.step (hdel a (by simp)) hs, (hI.1.content_step ha hs hst).trans hc⟩

/-- In orderly runs completed uploads are durable. -/
theorem durable_of_orderly {max : UInt64} {folder : Folder Filename} {listing : List Filename}
    (hl : Lists listing folder)
    (hP : Along step Orderly (initial (Server.generateFilesInStorage max folder listing)) as) :
    Durable (initial (Server.generateFilesInStorage max folder listing)) as := by
  rintro pre a post w₁ w₂ w i u bs rfl hpre hend hr hbefore hu hpc hdel
  have hs : w₁.step a = some w₂ := step_of_concat hpre hend
  have hsplit : pre ++ a :: post = (pre ++ [a]) ++ post := by simp
  rw [hsplit] at hr hP
  have hpost : run w₂ post = some w := run_of_append hend hr
  have h₁ := undisturbed_of_run (undisturbed_initial hl) hpre hP.append_left.append_left
  have ha := ((along_concat hpre).mp hP.append_left).2
  obtain ⟨hlen, hst, hc⟩ := h₁.ends_kept ha hs hbefore hu hpc
  obtain ⟨hst', hc'⟩ := (h₁.step ha hs).stored_run hst hpost (hP.append_right hend) hdel
  exact ⟨hlen, hst'.1, hc'.trans hc⟩

theorem orderlyRun_durable : (run (started 10) orderlyRun).isSome ∧
    Durable (started 10) orderlyRun :=
  ⟨by decide, durable_of_orderly lists_empty (by decide)⟩

/-- An upload is waiting when its name is removed; a second upload of the name ends with
its file kept; then the first times out. -/
def lostUpload : List Action :=
  [.receive (addDatagram ⟨1, 1⟩ 1 [97] 4), .upload 0 .checkAndReserveSpace,
    .upload 0 .addFileToStorage, .upload 0 (.announce (some 5)),
    .receive (simpleDatagram ⟨2, 2⟩ 2 fileRemoveRequest [97]), .remove (.fileSize false),
    .receive (addDatagram ⟨3, 3⟩ 3 [97] 2), .upload 1 .checkAndReserveSpace,
    .upload 1 .addFileToStorage, .upload 1 (.announce (some 6)), .upload 1 (.select .ready),
    .upload 1 (.accept true), .upload 1 (.openFile true), .upload 1 (.read (.piece [1, 2])),
    .upload 1 (.read .endOfStream), .upload 1 (.closeFile true), .upload 0 (.select .timeout),
    .upload 0 (.fileExists true), .upload 0 (.removeFile true), .upload 0 .freeSpace,
    .upload 0 .removeFileFromStorage]

theorem lostUpload_not_durable : Along step FilesOk (started 10) lostUpload ∧
    ¬Durable (started 10) lostUpload := by
  refine ⟨by decide, fun h => ?_⟩
  obtain ⟨w₁, h₁, hp₁⟩ : ∃ w, run (started 10) (lostUpload.take 15) = some w ∧
      decide (w.uploads[1]?.map Upload.pc ≠ some (.kept [1, 2])) := exists_run_of_any _ (by decide)
  obtain ⟨w₂, h₂, hp₂⟩ : ∃ w, run (started 10) (lostUpload.take 16) = some w ∧
      decide (w.uploads[1]? = some (⟨⟨3, 3⟩, 3, [97], 2, .kept [1, 2]⟩ : Upload)) :=
    exists_run_of_any _ (by decide)
  obtain ⟨w, hr, hw⟩ : ∃ w, run (started 10) lostUpload = some w ∧
      decide ([97] ∉ w.server.filesInStorage) := exists_run_of_any _ (by decide)
  have := h (lostUpload.take 15) _ (lostUpload.drop 16) w₁ w₂ w 1 _ [1, 2] rfl h₁ h₂ hr
    (by simpa using hp₁) (by simpa using hp₂) rfl (by decide)
  exact (of_decide_eq_true hw) this.2.1

end World

end Netstore
