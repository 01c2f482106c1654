import Netstore.Restart
import Netstore.Work

/-!
# A server that is left alone

When no more requests come, the handlers that are running make a bounded number of calls
(`Work`). As long as one of them has not ended there is a call that it can make, and so a server
that is left alone comes to rest, unless an exception terminates it. In orderly runs the index is
then the files of the folder, and the counter is the sum of their sizes (`rest_of_orderly`).
-/

namespace Netstore

open Transition

/-! ## The next call of a handler -/

namespace Folder

variable {d : Folder Filename} {f : Filename}

theorem inode_of_openTruncate (h : d.openTruncate f = none) : d.inode f = none := by
  unfold openTruncate at h
  unfold inode
  split at h <;> simp_all

theorem inode_of_remove (h : d.remove f = none) : d.inode f = none := by
  unfold remove at h
  unfold inode
  split at h <;> simp_all

end Folder

/-- The call is one that the disk can make : a file operation that fails finds no regular file. -/
def UploadCall.Possible (d : Folder Filename) (f : Filename) : UploadCall → Prop
  | openFile ok | fileExists ok | removeFile ok => (d.inode f).isSome → ok
  | flush _ _ => False
  | closeFile ok => ok
  | _ => True

/-- An upload handler that has not ended has a call to make. -/
theorem Upload.exists_next {s : Server} {u : Upload} (hended : u.pc.ended = false)
    (hcaught : ∀ e, u.pc ≠ .uncaught e) :
    ∃ c, (u.next s c).isSome ∧ c.Possible s.folder u.filename := by
  cases hpc : u.pc with
  | start =>
    refine ⟨.checkAndReserveSpace, ?_, trivial⟩
    simp only [next, hpc]
    split_ifs <;> rfl
  | reserved => exact ⟨.addFileToStorage, by simp [next, hpc], trivial⟩
  | nameTaken | announceFailed | releasing => exact ⟨.freeSpace, by simp [next, hpc], trivial⟩
  | announceReleased | forgetting => exact ⟨.removeFileFromStorage, by simp [next, hpc], trivial⟩
  | accepted => exact ⟨.announce none, by simp [next, hpc], trivial⟩
  | refusing => exact ⟨.refuse true, by simp [next, hpc], trivial⟩
  | waiting => exact ⟨.select .timeout, by simp [next, hpc], trivial⟩
  | connecting => exact ⟨.accept true, by simp [next, hpc], trivial⟩
  | opening failed =>
    cases ho : s.folder.openTruncate u.filename with
    | some p => exact ⟨.openFile true, by simp [next, hpc, ho], fun _ => rfl⟩
    | none =>
      refine ⟨.openFile false, by simp [next, hpc], fun h => ?_⟩
      simp [Folder.inode_of_openTruncate ho] at h
  | receiving failed st toUpload received =>
    exact ⟨.read .endOfStream, by simp [next, hpc], trivial⟩
  | closing failed st toUpload received => exact ⟨.closeFile true, by simp [next, hpc], rfl⟩
  | checking =>
    refine ⟨.fileExists true, ?_, fun _ => rfl⟩
    simp [next, hpc]
  | removing =>
    cases hr : s.folder.remove u.filename with
    | some d => exact ⟨.removeFile true, by simp [next, hpc, hr], fun _ => rfl⟩
    | none =>
      refine ⟨.removeFile false, by simp [next, hpc], fun h => ?_⟩
      simp [Folder.inode_of_remove hr] at h
  | refused | failed | kept received => simp [hpc, UploadPc.ended] at hended
  | uncaught e => exact (hcaught e hpc).elim

/-- So has a download handler. -/
theorem Download.exists_next {s : Server} {u : Download} (hended : ∀ sent, u.pc ≠ .ended sent)
    (hcaught : ∀ e, u.pc ≠ .uncaught e) : ∃ c, (u.next s c).isSome ∧
      ∀ ok, c = .openFile ok → (s.folder.inode u.filename).isSome → ok := by
  cases hpc : u.pc with
  | announcing => exact ⟨.announce none, by simp [next, hpc], fun _ h => by cases h⟩
  | waiting => exact ⟨.select .timeout, by simp [next, hpc], fun _ h => by cases h⟩
  | connecting => exact ⟨.accept true, by simp [next, hpc], fun _ h => by cases h⟩
  | opening =>
    cases hi : s.folder.inode u.filename with
    | some ino => exact ⟨.openFile true, by simp [next, hpc, hi], fun ok h _ => by cases h; rfl⟩
    | none => exact ⟨.openFile false, by simp [next, hpc], fun ok _ h => by simp at h⟩
  | reading ino offset sent => exact ⟨.readFile none, by simp [next, hpc], fun _ h => by cases h⟩
  | writing ino offset block more sent =>
    exact ⟨.write none, by simp [next, hpc], fun _ h => by cases h⟩
  | ended sent => exact (hended sent hpc).elim
  | uncaught e => exact (hcaught e hpc).elim

namespace World

variable {w w' : World} {a : Action} {n : ℕ}

/-! ## The next call of the server -/

/-- Every handler has ended, and the loop waits for a request. -/
structure AtRest (w : World) : Prop where
  loop : w.loop = .idle
  uploads : ∀ u ∈ w.uploads, u.pc.ended
  downloads : ∀ u ∈ w.downloads, ∃ sent, u.pc = .ended sent
  listings : ∀ l ∈ w.listings, l.ended

theorem AtRest.quiet (h : w.AtRest) : w.Quiet :=
  ⟨by rw [h.loop]; rfl, h.uploads⟩

/-- No exception has left a handler of a server that is not terminated. -/
def Caught (w : World) : Prop :=
  w.terminated = false → (∀ u ∈ w.uploads, ∀ e, u.pc ≠ .uncaught e) ∧
    ∀ u ∈ w.downloads, ∀ e, u.pc ≠ .uncaught e

theorem caught_initial (s : Server) : (initial s).Caught := fun _ =>
  ⟨fun _ hu => (List.not_mem_nil hu).elim, fun _ hu => (List.not_mem_nil hu).elim⟩

theorem Caught.step (h : w.Caught) (hs : w.step a = some w') : w'.Caught := by
  intro hlive
  have hthrows := terminated_step hs
  obtain ⟨huploads, hdownloads⟩ := h (live_of_step hs)
  cases move_of_step hs with
  | stay call => exact ⟨huploads, hdownloads⟩
  | @start d r idle request =>
    cases r with
    | file seq filename =>
      unfold start
      dsimp only
      split_ifs
      · refine ⟨huploads, fun u hu => ?_⟩
        rcases List.mem_append.mp hu with hu | hu
        · exact hdownloads u hu
        · rw [List.mem_singleton.mp hu]
          nofun
      · exact ⟨huploads, hdownloads⟩
    | upload seq filename fileSize =>
      refine ⟨fun u hu => ?_, hdownloads⟩
      rcases List.mem_append.mp hu with hu | hu
      · exact huploads u hu
      · rw [List.mem_singleton.mp hu]
        nofun
    | discover | filesList | remove => exact ⟨huploads, hdownloads⟩
  | discovered loop => exact ⟨huploads, hdownloads⟩
  | removal loop next =>
    cases removeNext_cases next <;> exact ⟨huploads, hdownloads⟩
  | upload thread next =>
    refine ⟨fun v hv e he => ?_, hdownloads⟩
    rcases mem_set_of_getElem? thread hv with rfl | ⟨j, -, hj⟩
    · have := hthrows.mpr ((Upload.uncaught_iff next).mp ⟨e, he⟩)
      exact Bool.false_ne_true (hlive.symm.trans this)
    · exact huploads v (List.mem_of_getElem? hj) e he
  | download thread next =>
    refine ⟨huploads, fun v hv e => ?_⟩
    rcases mem_set_of_getElem? thread hv with rfl | ⟨j, -, hj⟩
    · exact Download.not_uncaught next e
    · exact hdownloads v (List.mem_of_getElem? hj) e
  | list thread running => exact ⟨huploads, hdownloads⟩

/-- A removal that is under way has a call to make. -/
theorem Undisturbed.exists_remove (h : Undisturbed w) {f : Filename} {pc : RemovalPc}
    (hloop : w.loop = .removing f pc) : ∃ c, (w.removeNext f pc c).isSome ∧ c.succeeds := by
  have hi : w.server.folder.inode f ≠ none := h.target (by rw [hloop]; rfl)
  cases pc with
  | erased =>
    refine ⟨.fileSize true, ?_, rfl⟩
    simpa [removeNext, Option.isSome_iff_ne_none, Folder.content_eq_none_iff] using hi
  | measured size => exact ⟨.freeSpace, rfl, rfl⟩
  | released =>
    refine ⟨.removeFile true, ?_, rfl⟩
    simp only [removeNext, if_true, Option.isSome_map]
    exact Option.isSome_iff_ne_none.mpr fun hnone => hi (Folder.inode_of_remove hnone)

theorem exists_upload {i : ℕ} {u : Upload} (hlive : w.terminated = false) (hidle : w.loop = .idle)
    (hi : w.uploads[i]? = some u) (hended : u.pc.ended = false)
    (hcaught : ∀ e, u.pc ≠ .uncaught e) :
    ∃ a, a.counted ∧ a.asks = [] ∧ Orderly w a ∧ (w.step a).isSome := by
  obtain ⟨c, hnext, hpossible⟩ := @Upload.exists_next w.server u hended hcaught
  refine ⟨.upload i c, ?_, rfl, ⟨⟨?_, ?_⟩, fun _ v _ => ?_⟩, ?_⟩
  · cases c <;> first | rfl | exact hpossible.elim
  · cases c <;> simp_all [fileCall, UploadCall.Possible]
  · cases c <;> first | rfl | exact hpossible | exact hpossible.elim
  · rw [hidle, target_idle]
    exact fun h => by cases h
  · simpa [World.step, hlive, hi] using hnext

theorem exists_download {i : ℕ} {u : Download} (hlive : w.terminated = false)
    (hi : w.downloads[i]? = some u) (hended : ∀ sent, u.pc ≠ .ended sent)
    (hcaught : ∀ e, u.pc ≠ .uncaught e) :
    ∃ a, a.counted ∧ a.asks = [] ∧ Orderly w a ∧ (w.step a).isSome := by
  obtain ⟨c, hnext, hopen⟩ := @Download.exists_next w.server u hended hcaught
  refine ⟨.download i c, rfl, rfl, ⟨⟨?_, trivial⟩, trivial⟩, ?_⟩
  · cases c <;> simp_all [fileCall]
  · simpa [World.step, hlive, hi] using hnext

/-- A server that is not at rest has a call to make : the loop first, then the handlers. -/
theorem Undisturbed.exists_call (h : Undisturbed w) (hc : w.Caught)
    (hlive : w.terminated = false) (hrest : ¬w.AtRest) :
    ∃ a, a.counted ∧ a.asks = [] ∧ Orderly w a ∧ (w.step a).isSome := by
  obtain ⟨huploads, hdownloads⟩ := hc hlive
  cases hloop : w.loop with
  | discovering source seq =>
    exact ⟨.discover true, rfl, rfl, ⟨⟨trivial, trivial⟩, trivial⟩,
      by simp [World.step, hlive, hloop]⟩
  | removing f pc =>
    obtain ⟨c, hnext, hsucc⟩ := h.exists_remove hloop
    refine ⟨.remove c, rfl, rfl, ⟨⟨?_, trivial⟩, trivial⟩, ?_⟩
    · cases c <;> simp_all [fileCall, RemovalCall.succeeds, Loop.target, Loop.removal]
    · simpa [World.step, hlive, hloop] using hnext
  | idle =>
    by_contra hno
    refine hrest ⟨hloop, fun u hu => ?_, fun u hu => ?_, fun l hl => ?_⟩
    · obtain ⟨i, hi⟩ := List.mem_iff_getElem?.mp hu
      by_contra hended
      exact hno (exists_upload hlive hloop hi (by simpa using hended) (huploads u hu))
    · obtain ⟨i, hi⟩ := List.mem_iff_getElem?.mp hu
      by_contra hended
      exact hno (exists_download hlive hi (not_exists.mp hended) (hdownloads u hu))
    · obtain ⟨i, hi⟩ := List.mem_iff_getElem?.mp hl
      by_contra hended
      refine hno ⟨.filesList i [], rfl, rfl, ⟨⟨trivial, trivial⟩, trivial⟩, ?_⟩
      simp [World.step, hlive, hi, hended]

/-! ## The result -/

/-- What becomes of a server when no more requests come. -/
structure ComesToRest (n : ℕ) (w : World) : Prop where
  /-- The calls that are made come to an end. -/
  bounded : ∀ as w', run w as = some w' → (∀ a ∈ as, a.asks = []) →
    as.countP Action.counted ≤ w.budget n
  /-- When no call is left, no handler is running, and the storage is as the folder is. -/
  rests : ∀ as w', run w as = some w' → Along World.step Orderly w as → (∀ a ∈ as, a.asks = []) →
    w'.terminated = false →
    (∀ a, a.counted → a.asks = [] → Orderly w' a → w'.step a = none) →
    w'.AtRest ∧ w'.Agrees ∧ w'.server.usedSpace.toNat =
      ∑ f ∈ w'.server.filesInStorage.toFinset, w'.server.folder.size f

/-- The counter of a server with no handler running is the sum of the sizes. -/
theorem Quiet.usedSpace (hq : w.Quiet) (hw : Covered w) : w.server.usedSpace.toNat =
    ∑ f ∈ w.server.filesInStorage.toFinset, w.server.folder.size f := by
  have hexact := hw.exact
  unfold Exact at hexact
  rw [hexact, hq.heldSize, hq.debt, storedSize,
    Finset.filter_true_of_mem fun f _ => hq.not_owned f]
  rfl

theorem Covered.comesToRest (h : Covered w) (hn : w.Within n) (hc : w.Caught) :
    ComesToRest n w where
  bounded as w' hr hasks := by
    have hfits : ∀ a ∈ as, a.Fits n := fun a ha => by
      rw [Action.Fits, hasks a ha]
      exact fun q hq => (List.not_mem_nil hq).elim
    have hcost : (as.map (Action.cost n)).sum = 0 := by
      refine List.sum_eq_zero fun k hk => ?_
      obtain ⟨a, ha, rfl⟩ := List.mem_map.mp hk
      rw [Action.cost, hasks a ha]
      rfl
    have := work_of_within hn hr hfits
    omega
  rests as w' hr hP hasks hlive hstuck := by
    obtain ⟨hw', hc'⟩ := run_invariant (fun w => Covered w ∧ w.Caught)
      (fun _ _ _ h ha hs => ⟨h.1.step ha hs, h.2.step hs⟩) ⟨h, hc⟩ hr hP
    have hrest : w'.AtRest := by
      by_contra hrest
      obtain ⟨a, ha, hask, horderly, hstep⟩ := hw'.undisturbed.exists_call hc' hlive hrest
      rw [hstuck a ha hask horderly] at hstep
      cases hstep
    exact ⟨hrest, hw'.undisturbed.agrees hrest.quiet, hrest.quiet.usedSpace hw'⟩

/-- A server that orderly runs lead to comes to rest when it is left alone. -/
theorem rest_of_orderly {max : UInt64} {folder : Folder Filename} {listing : List Filename}
    {as : List Action} (hl : Lists listing folder)
    (hlt : ∑ f ∈ (Server.generateFilesInStorage max folder listing).filesInStorage.toFinset,
      folder.size f < 2 ^ 64) (hn : folder.Within n)
    (hr : run (initial (Server.generateFilesInStorage max folder listing)) as = some w)
    (hP : Along step Orderly (initial (Server.generateFilesInStorage max folder listing)) as)
    (ha : ∀ a ∈ as, a.Fits n) : ComesToRest n w := by
  obtain ⟨hw, hc⟩ := run_invariant (fun w => Covered w ∧ w.Caught)
    (fun _ _ _ h ha hs => ⟨h.1.step ha hs, h.2.step hs⟩)
    ⟨covered_initial hl hlt, caught_initial _⟩ hr hP
  exact hw.comesToRest (within_of_run (by rwa [Server.folder_generateFilesInStorage]) hr ha) hc

/-- Two uploads that are waiting for their clients. -/
theorem orderlyRun_rest : ∃ w, run (started 10) (orderlyRun.take 8) = some w ∧
    ComesToRest 10 w := by
  obtain ⟨w, hr⟩ := Option.isSome_iff_exists.mp
    (by decide : (run (started 10) (orderlyRun.take 8)).isSome)
  exact ⟨w, hr, rest_of_orderly lists_empty (by decide) (fun _ => Nat.zero_le _) hr (by decide)
    (by decide)⟩

end World

end Netstore
