import Netstore.Undisturbed

/-!
# Agreement of the index and the disk

An upload indexes its name first and creates the file later, a removal erases the name
first and looks for the file later. In orderly runs the index is exactly the regular
files of the folder whenever no handler is running, and a removed name is gone
(`agreement_of_orderly`). A removal that comes after an upload is accepted and before
it opens its file finds no file, and the upload then leaves one that is not in the
index (`unindexedFile_disagrees`).
-/

namespace Netstore

namespace World

open Transition

/-- No upload and no removal is running. -/
def Quiet (w : World) : Prop :=
  w.loop.removal = none ∧ ∀ u ∈ w.uploads, u.pc.ended

/-- The index is the regular files of the folder. -/
def Agrees (w : World) : Prop :=
  ∀ f, f ∈ w.server.filesInStorage ↔ w.server.folder.inode f ≠ none

/-- The step accepts an upload of the name. -/
def accepts (f : Filename) (w : World) : Action → Bool
  | .upload i .addFileToStorage =>
    w.uploads[i]?.any fun u => u.filename = f && (w.server.addFileToStorage f).1
  | _ => false

/-- After the run from `w₀`, if no handler is running, the index and the disk agree, and
a name whose removal has begun is in neither unless an upload of it was accepted since. -/
def Agreement (w₀ : World) (as : List Action) : Prop :=
  ∀ w, run w₀ as = some w → w.Quiet → w.Agrees ∧
    ∀ pre a post w₁ f, as = pre ++ a :: post → beginsRemoval f a →
      run w₀ (pre ++ [a]) = some w₁ → Along step (fun w b => ¬accepts f w b) w₁ post →
        f ∉ w.server.filesInStorage ∧ w.server.folder.inode f = none

variable {w₀ w w' : World} {a : Action} {as : List Action} {f : Filename}

theorem Quiet.not_owned (h : w.Quiet) (f : Filename) : ¬w.Owned f := by
  rintro ⟨u, hu, ho, -⟩
  have he := h.2 u hu
  cases hpc : u.pc <;> rw [hpc] at he ho <;> cases he <;> cases ho

theorem Undisturbed.agrees (h : Undisturbed w) (hq : w.Quiet) : Agrees w := by
  intro f
  constructor
  · exact fun hf => (h.stored ⟨hf, hq.not_owned f⟩).1
  · intro hi
    by_contra hf
    exact (h.absent hf).elim hi (by simp [Loop.target, hq.1])

theorem not_mem_of_beginsRemoval (ha : beginsRemoval f a) (hs : w.step a = some w') :
    f ∉ w'.server.filesInStorage := by
  cases a with
  | receive d =>
    have ha : (Action.receive d).removes = some f := of_decide_eq_true ha
    simp only [Action.removes] at ha
    split at ha
    · rename_i hr
      cases ha
      rw [(step_receive hr hs).2]
      simp [start, Server.removeFileFromStorage]
    · cases ha
  | _ => simp [beginsRemoval, Action.removes] at ha

/-- A name comes into the index when an upload of it is accepted. -/
theorem not_mem_step (hf : f ∉ w.server.filesInStorage) (ha : ¬accepts f w a)
    (hs : w.step a = some w') : f ∉ w'.server.filesInStorage := by
  cases step_cases hs with
  | @upload i c u s pc thread next terminated =>
    intro hf'
    obtain ⟨rfl, fresh, before, -⟩ := (Upload.mem_filesInStorage_of_next next hf').resolve_left hf
    obtain rfl := Upload.addFileToStorage_of_reserved next before
    simp [accepts, thread, Server.addFileToStorage, fresh] at ha
  | spawn => exact hf
  | erase => simp [start, Server.removeFileFromStorage, hf]
  | removal loop next => cases removeNext_cases next <;> exact hf
  | other call server uploads removal => exact server ▸ hf

/-- In orderly runs the index and the disk agree whenever no handler is running. -/
theorem agreement_of_orderly {max : UInt64} {folder : Folder Filename} {listing : List Filename}
    (hl : Lists listing folder)
    (hP : Along step Orderly (initial (Server.generateFilesInStorage max folder listing)) as) :
    Agreement (initial (Server.generateFilesInStorage max folder listing)) as := by
  intro w hr hq
  have hw := (undisturbed_of_run (undisturbed_initial hl) hr hP).agrees hq
  refine ⟨hw, ?_⟩
  rintro pre a post w₁ f rfl ha h₁ hpost
  have hsplit : pre ++ a :: post = (pre ++ [a]) ++ post := by simp
  rw [hsplit] at hr
  have hf₁ : f ∉ w₁.server.filesInStorage := by
    rw [World.run, run_concat] at h₁
    obtain ⟨w₂, -, hs⟩ := Option.bind_eq_some_iff.mp h₁
    exact not_mem_of_beginsRemoval ha hs
  have hf : f ∉ w.server.filesInStorage :=
    run_invariant (fun w => f ∉ w.server.filesInStorage) (fun _ _ _ => not_mem_step) hf₁
      (run_of_append h₁ hr) hpost
  exact ⟨hf, by simpa using mt (hw f).mpr hf⟩

theorem orderlyRun_agreement : (run (started 10) orderlyRun).isSome ∧
    Agreement (started 10) orderlyRun :=
  ⟨by decide, agreement_of_orderly lists_empty (by decide)⟩

/-- The name is removed after its upload is accepted and before its file is opened. -/
def unindexedFile : List Action :=
  [.receive (addDatagram ⟨1, 1⟩ 1 [97] 2), .upload 0 .checkAndReserveSpace,
    .upload 0 .addFileToStorage, .upload 0 (.announce (some 5)), .upload 0 (.select .ready),
    .upload 0 (.accept true), .receive (simpleDatagram ⟨2, 2⟩ 2 fileRemoveRequest [97]),
    .remove (.fileSize false), .upload 0 (.openFile true), .upload 0 (.read (.piece [1, 2])),
    .upload 0 (.read .endOfStream), .upload 0 (.closeFile true)]

theorem unindexedFile_disagrees : Along step FilesOk (started 10) unindexedFile ∧
    ¬Agreement (started 10) unindexedFile := by
  refine ⟨by decide, fun h => ?_⟩
  obtain ⟨w, hr, hw⟩ : ∃ w, run (started 10) unindexedFile = some w ∧
      decide (w.loop.removal = none ∧ (∀ u ∈ w.uploads, u.pc.ended) ∧
        [97] ∉ w.server.filesInStorage ∧ w.server.folder.inode [97] = some 0) :=
    exists_run_of_any _ (by decide)
  obtain ⟨hloop, hup, hindex, hdisk⟩ := of_decide_eq_true hw
  exact hindex (((h w hr ⟨hloop, hup⟩).1 [97]).mpr (by simp [hdisk]))

end World

end Netstore
