import Netstore.Accounting
import Mathlib.Algebra.BigOperators.Group.Finset.Piecewise
import Mathlib.Algebra.Order.BigOperators.Group.Finset

/-!
# The bytes on the disk

The counter is what the server goes by, the folder is what there is. In orderly runs the files
of the folder take up no more than the counter says (`Covered.sum_size_le`) : a stored file is
counted with its size, a file that is being uploaded is no larger than what its upload has
reserved, and a file that is being removed is counted until its space is given back. From then
to `fs::remove` it is on the disk and not counted, so the folder may hold more than the server
may use by one file (`diskUse_of_orderly`).
-/

namespace Netstore

open Finset

/-! ## The file of an upload -/

namespace Upload

/-- The file of the name that the upload owns is not larger than the upload, unless the name is
being removed. -/
def Bounded (d : Folder Filename) (target : Option Filename) (u : Upload) : Prop :=
  u.pc.owns → target = some u.filename ∨ d.size u.filename ≤ u.fileSize.toNat

variable {s s' : Server} {u : Upload} {c : UploadCall} {pc : UploadPc} {d d' : Folder Filename}
  {target : Option Filename} {f : Filename} {n toUpload : UInt64} {st : Stream}
  {received : Bytes}

theorem size_of_inode_none (h : d.inode f = none) : d.size f = 0 := by
  rw [Folder.size, d.content_eq_none_iff.mpr h]
  rfl

/-- What is on the disk has been received. -/
theorem Live.size_le (h : Live d target f n st toUpload received) : d.size f ≤ n.toNat := by
  obtain ⟨bs, hbs, -, hrec⟩ := h.flushed
  have hleft := h.left
  rw [Folder.size, hbs]
  rw [hrec, List.length_append] at hleft
  dsimp only [Option.getD_some]
  omega

theorem Live.size_close_le (h : Live d target f n st toUpload received) :
    (st.flush d st.buffer.length).1.size f ≤ n.toNat := by
  obtain ⟨bs, hbs, -, hrec⟩ := h.content_flush st.buffer.length
  have hleft := h.left
  rw [Folder.size, hbs]
  rw [hrec, List.length_append] at hleft
  dsimp only [Option.getD_some]
  omega

/-- A call that leaves the disk and owns nothing new. -/
theorem Bounded.of_owns (h : u.Bounded d target) (ho : pc.owns → u.pc.owns) :
    Bounded d target { u with pc := pc } :=
  fun hpc => h (ho hpc)

theorem bounded_of_inode_none (h : d.inode u.filename = none ∨ target = some u.filename) :
    Bounded d target { u with pc := pc } := fun _ => by
  rcases h with h | h
  · refine Or.inr ?_
    rw [size_of_inode_none h]
    exact Nat.zero_le _
  · exact Or.inl h

/-- No call of an upload makes its file larger than the upload. -/
theorem bounded_next (h : u.next s c = some (s', pc)) (hu : u.OnDisk s.folder target)
    (hb : u.Bounded s.folder target)
    (hnew : u.filename ∉ s.filesInStorage →
      s.folder.inode u.filename = none ∨ target = some u.filename)
    (hok : c.writesOk) (ht : c.touches → target ≠ some u.filename) :
    Bounded s'.folder target { u with pc := pc } := by
  have hdisk := (onDisk_next h hu hnew hok ht).1
  unfold OnDisk at hu
  cases next_cases h with
  | add before fresh => exact bounded_of_inode_none (hnew fresh)
  | create before opened | flush before n => exact fun _ => Or.inr (Live.size_le hdisk)
  | close before =>
    rw [before] at hu
    exact fun _ => Or.inr hu.size_close_le
  | remove before removed => exact bounded_of_inode_none (Or.inl hdisk)
  | spoil | closeFail => cases hok
  | reserve | reject | taken | freeTaken | forget | refuse => exact hb.of_owns nofun
  | freeAnnounce before | free before | announce before | announceFail before | ready before
  | notReady before | accept before | openFail before | piece before | endOfStream before
  | readFail before | found before | absent before | existsThrows before | removeThrows before =>
    exact hb.of_owns fun _ => by rw [before]; rfl

end Upload

/-! ## What the counter covers -/

namespace World

open Transition

/-- The file that is being removed and whose space is given back. -/
def unremoved (w : World) : ℕ :=
  match w.loop with
  | .removing f .released => w.server.folder.size f
  | _ => 0

/-- What orderly steps keep : the counter is exact, and what it counts for an upload or for a
removal is no less than the file. -/
structure Covered (w : World) : Prop where
  undisturbed : Undisturbed w
  exact : Exact w
  bounded : ∀ {i : ℕ} {u : Upload}, w.uploads[i]? = some u →
    u.Bounded w.server.folder w.loop.target
  measured : ∀ {f size}, w.loop = .removing f (.measured size) →
    w.server.folder.size f = size.toNat

variable {w w' : World} {a : Action}

theorem covered_initial {max : UInt64} {folder : Folder Filename} {listing : List Filename}
    (hl : Lists listing folder)
    (hlt : ∑ f ∈ (Server.generateFilesInStorage max folder listing).filesInStorage.toFinset,
      folder.size f < 2 ^ 64) :
    Covered (initial (Server.generateFilesInStorage max folder listing)) where
  undisturbed := undisturbed_initial hl
  exact := exact_initial hl hlt
  bounded hu := by simp [initial] at hu
  measured h := by simp [initial] at h

/-- The other uploads keep the bound when one moves : each owned name has one owner. -/
theorem Covered.bounded_upload (h : Covered w) {i : ℕ} {c : UploadCall} {u : Upload} {s : Server}
    {pc : UploadPc} (hu : w.uploads[i]? = some u) (hn : u.next w.server c = some (s, pc))
    (ha : Orderly w (.upload i c)) {j : ℕ} {v : Upload}
    (hv : (w.uploads.set i { u with pc := pc })[j]? = some v) :
    v.Bounded s.folder w.loop.target := by
  have ht : c.touches → w.loop.target ≠ some u.filename := fun ht => ha.2 ht _ (by simp [hu])
  rcases (getElem?_set_eq_some hu).mp hv with ⟨-, rfl⟩ | ⟨hji, hv⟩
  · exact Upload.bounded_next hn (h.undisturbed.onDisk hu) (h.bounded hu) h.undisturbed.absent
      ha.1.2 ht
  · intro hvo
    have hb := h.bounded hv hvo
    rcases (Upload.onDisk_next hn (h.undisturbed.onDisk hu) h.undisturbed.absent ha.1.2 ht).2 with
      he | ⟨huo, -, hc⟩
    · rwa [he]
    · have hne : v.filename ≠ u.filename := fun he =>
        hji (h.undisturbed.unique ((has_self hv).mpr ⟨hvo, he⟩) ((has_self hu).mpr ⟨huo, rfl⟩))
      rwa [Folder.size, hc.content hne]

theorem Covered.removal (h : Covered w) {c : RemovalCall} {f : Filename} {pc : RemovalPc}
    (hloop : w.loop = .removing f pc) (hn : w.removeNext f pc c = some w')
    (ha : Orderly w (.remove c)) (hs : w.step (.remove c) = some w') : Covered w' := by
  have hw := h.undisturbed.step ha hs
  have he := h.exact.step h.undisturbed ha hs
  have ht : w.loop.target = some f := by rw [hloop]; rfl
  have hb : ∀ {i : ℕ} {u : Upload}, w.uploads[i]? = some u →
      u.Bounded w.server.folder (some f) := fun hu => ht ▸ h.bounded hu
  cases removeNext_cases hn with
  | @measure bs before content =>
    refine ⟨hw, he, hb, fun {g size} hg => ?_⟩
    cases hg
    have hsize : w.server.folder.size f = bs.length := by rw [Folder.size, content]; rfl
    have hdebt : w.debt = bs.length := by rw [debt, hloop, before, ← hsize]
    have hexact := h.exact
    have hlt := w.server.usedSpace.toNat_lt
    unfold Exact at hexact
    exact hsize.trans (UInt64.toNat_ofNat_of_lt' (by
      have : UInt64.size = 2 ^ 64 := rfl
      omega)).symm
  | release before => exact ⟨hw, he, hb, fun hg => by cases hg⟩
  | @remove folder before remove =>
    refine ⟨hw, he, fun {i u} hu hou => Or.inr ?_, fun hg => by cases hg⟩
    by_cases hf : u.filename = f
    · have hgone : folder.inode u.filename = none := by
        rw [w.server.folder.inode_remove remove, if_pos hf]
      exact (Upload.size_of_inode_none hgone).trans_le (Nat.zero_le _)
    · have hsize := (h.bounded hu hou).resolve_left fun he =>
        hf (Option.some.inj (he.symm.trans ht))
      rwa [Folder.size, (Folder.changesOnly_remove remove).content hf]
  | fail call => exact (h.undisturbed.removal_ok hloop ha.1 call).elim

/-- Every orderly step keeps what the counter covers. -/
theorem Covered.step (h : Covered w) (ha : Orderly w a) (hs : w.step a = some w') :
    Covered w' := by
  have hw := h.undisturbed.step ha hs
  have he := h.exact.step h.undisturbed ha hs
  cases step_cases hs with
  | @upload i c u s pc thread next terminated =>
    refine ⟨hw, he, fun hv => h.bounded_upload thread next ha hv, fun {f size} hl => ?_⟩
    have hcont := h.undisturbed.content_upload thread next ha
      (f := f) (Or.inr (by rw [show w.loop = .removing f (.measured size) from hl]; rfl))
    rw [Folder.size, hcont]
    exact h.measured hl
  | @spawn d seq filename fileSize idle request =>
    refine ⟨hw, he, fun hv => ?_, h.measured⟩
    rcases getElem?_concat_eq_some.mp hv with hv | ⟨-, rfl⟩
    · exact h.bounded hv
    · exact fun hv => by cases hv
  | @erase d f idle request =>
    have ht : w.loop.target = none := by rw [idle]; rfl
    by_cases hf : f ∈ w.server.filesInStorage
    · rw [start_remove_of_mem _ hf] at hw he ⊢
      refine ⟨hw, he, fun hv hvo => Or.inr ?_, fun hl => by cases hl⟩
      exact (h.bounded hv hvo).resolve_left (by simp [ht])
    · rwa [start_remove_of_not_mem _ idle hf]
  | removal loop next => exact h.removal loop next ha hs
  | other call server uploads removal =>
    refine ⟨hw, he, fun {i u} hu => ?_, fun {f size} hl => ?_⟩
    · rw [server, Loop.target, removal]
      exact h.bounded (uploads ▸ hu)
    · rw [server]
      refine h.measured ?_
      cases hloop : w.loop <;> simp_all [Loop.removal]

/-! ## The files of the folder -/

/-- What an upload that owns the name holds of the counter. -/
def heldFor (f : Filename) (u : Upload) : ℕ :=
  if u.pc.owns ∧ u.filename = f then u.held else 0

/-- The part of the counter that is for the name. -/
def counted (w : World) (f : Filename) : ℕ :=
  (if f ∈ w.server.filesInStorage ∧ ¬w.Owned f then w.server.folder.size f else 0) +
    (w.uploads.map (heldFor f)).sum +
    if w.loop.target = some f then w.server.folder.size f else 0

/-- Every file is counted. -/
theorem Covered.size_le_counted (h : Covered w) (f : Filename) :
    w.server.folder.size f ≤ w.counted f := by
  unfold counted
  by_cases ht : w.loop.target = some f
  · rw [if_pos ht]
    exact Nat.le_add_left _ _
  by_cases hf : f ∈ w.server.filesInStorage
  · by_cases ho : w.Owned f
    · obtain ⟨u, hu, huo, rfl⟩ := ho
      obtain ⟨i, hi⟩ := List.mem_iff_getElem?.mp hu
      have hsum := le_sum_map (heldFor u.filename) hi
      by_cases hh : u.pc.holds
      · have hb := (h.bounded hi huo).resolve_left ht
        rw [heldFor, if_pos ⟨huo, rfl⟩, Upload.held, if_pos hh] at hsum
        omega
      · -- it has given its space back, and its file is gone
        have hpc : u.pc = .announceReleased ∨ u.pc = .forgetting := by
          cases hpc : u.pc <;> simp_all [UploadPc.holds, UploadPc.owns]
        have hdisk := h.undisturbed.onDisk hi
        have hgone : w.server.folder.inode u.filename = none := by
          rcases hpc with hpc | hpc <;> simp only [Upload.OnDisk, hpc] at hdisk
          · exact hdisk.resolve_right ht
          · exact hdisk
        rw [Upload.size_of_inode_none hgone]
        exact Nat.zero_le _
    · rw [if_pos ⟨hf, ho⟩]
      omega
  · rw [Upload.size_of_inode_none ((h.undisturbed.absent hf).resolve_right ht)]
    exact Nat.zero_le _

theorem sum_heldFor_le (S : Finset Filename) (l : List Upload) :
    ∑ f ∈ S, (l.map (heldFor f)).sum ≤ (l.map Upload.held).sum := by
  induction l with
  | nil => simp
  | cons u l ih =>
    simp only [List.map_cons, List.sum_cons, sum_add_distrib]
    refine Nat.add_le_add ?_ ih
    calc ∑ f ∈ S, heldFor f u
        ≤ ∑ f ∈ S, if u.filename = f then u.held else 0 :=
          sum_le_sum fun f _ => by
            unfold heldFor
            split_ifs <;> simp_all
      _ ≤ u.held := by
          rw [sum_ite_eq]
          split_ifs <;> simp

theorem sum_target_le (h : Covered w) (S : Finset Filename) :
    ∑ f ∈ S, (if w.loop.target = some f then w.server.folder.size f else 0) ≤
      w.debt + w.unremoved := by
  cases hloop : w.loop with
  | removing g pc =>
    have hsum : ∑ f ∈ S, (if w.loop.target = some f then w.server.folder.size f else 0) ≤
        w.server.folder.size g := by
      simp only [hloop, target_removing, Option.some.injEq]
      rw [sum_ite_eq]
      split_ifs <;> simp
    rw [hloop] at hsum
    refine hsum.trans ?_
    cases pc with
    | erased => simp [debt, hloop]
    | measured size => simp [debt, hloop, h.measured hloop]
    | released => simp [unremoved, hloop]
  | idle => simp [Loop.target, Loop.removal]
  | discovering source seq => simp [Loop.target, Loop.removal]

/-- The files of the folder take up no more than the counter says, but for one that is being
removed. -/
theorem Covered.sum_size_le (h : Covered w) (S : Finset Filename) :
    ∑ f ∈ S, w.server.folder.size f ≤ w.server.usedSpace.toNat + w.unremoved := by
  have hstored : ∑ f ∈ S, (if f ∈ w.server.filesInStorage ∧ ¬w.Owned f then
      w.server.folder.size f else 0) ≤ w.storedSize := by
    rw [← sum_filter]
    refine sum_le_sum_of_subset fun f hf => ?_
    exact mem_stored.mpr (mem_filter.mp hf).2
  have hheld := sum_heldFor_le S w.uploads
  have htarget := sum_target_le h S
  have hexact := h.exact
  unfold Exact heldSize at hexact
  calc ∑ f ∈ S, w.server.folder.size f
      ≤ ∑ f ∈ S, w.counted f := sum_le_sum fun f _ => h.size_le_counted f
    _ ≤ w.server.usedSpace.toNat + w.unremoved := by
        simp only [counted, sum_add_distrib]
        omega

/-! ## The counter is bounded -/

theorem maxAvailableSpace_step (hs : w.step a = some w') :
    w'.server.maxAvailableSpace = w.server.maxAvailableSpace := by
  cases step_cases hs with
  | upload thread next terminated => exact Upload.maxAvailableSpace_next next
  | spawn => rfl
  | erase => rfl
  | removal loop next => cases removeNext_cases next <;> rfl
  | other call server uploads removal => rw [server]

/-- A removal gives back no more than the counter holds. -/
theorem Exact.usedSpace_removal_le (h : Exact w) {c : RemovalCall} {f : Filename} {pc : RemovalPc}
    (hloop : w.loop = .removing f pc) (hn : w.removeNext f pc c = some w') :
    w'.server.usedSpace.toNat ≤ w.server.usedSpace.toNat := by
  unfold Exact at h
  cases removeNext_cases hn with
  | @release size before =>
    have hdebt : w.debt = size.toNat := by rw [debt, hloop, before]
    have hle : size.toNat ≤ w.server.usedSpace.toNat := by omega
    have hsub := w.server.usedSpace_freeSpace hle
    exact hsub.trans_le (Nat.sub_le _ _)
  | measure | remove | fail => exact le_rfl

/-- The counter grows by reservations that fit. -/
theorem usedSpace_step_le (h : Exact w) (hs : w.step a = some w') :
    w'.server.usedSpace.toNat ≤
      max w.server.maxAvailableSpace.toNat w.server.usedSpace.toNat := by
  have hexact := h
  unfold Exact at hexact
  cases step_cases hs with
  | @upload i c u s pc thread next terminated =>
    cases Upload.next_effect next with
    | quiet used => exact used ▸ le_max_right _ _
    | reserve fits before after eq =>
      have hadd := w.server.usedSpace_checkAndReserveSpace fits
      rw [eq]
      exact le_max_of_le_left (hadd.trans_le fits)
    | release before after eq =>
      have hheld := held_le thread before
      have hle : u.fileSize.toNat ≤ w.server.usedSpace.toNat := by omega
      have hsub := w.server.usedSpace_freeSpace hle
      rw [eq]
      exact le_max_of_le_right (hsub.trans_le (Nat.sub_le _ _))
    | insert fresh before after eq => exact eq ▸ le_max_right _ _
    | erase before after eq => exact eq ▸ le_max_right _ _
    | keep bs used => exact used ▸ le_max_right _ _
  | spawn => exact le_max_right _ _
  | erase => exact le_max_right _ _
  | removal loop next => exact le_max_of_le_right (h.usedSpace_removal_le loop next)
  | other call server uploads removal => exact server ▸ le_max_right _ _

/-- In orderly runs the files of the folder never take up more than the space that the server
may use, or than what the folder held at the start, but for one file that is being removed. -/
theorem diskUse_of_orderly {max : UInt64} {folder : Folder Filename} {listing : List Filename}
    {as : List Action} (hl : Lists listing folder)
    (hlt : ∑ f ∈ (Server.generateFilesInStorage max folder listing).filesInStorage.toFinset,
      folder.size f < 2 ^ 64)
    (hr : run (initial (Server.generateFilesInStorage max folder listing)) as = some w)
    (hP : Along World.step Orderly (initial (Server.generateFilesInStorage max folder listing)) as)
    (S : Finset Filename) :
    ∑ f ∈ S, w.server.folder.size f ≤ Max.max max.toNat
      (∑ f ∈ (Server.generateFilesInStorage max folder listing).filesInStorage.toFinset,
        folder.size f) + w.unremoved := by
  set n := ∑ f ∈ (Server.generateFilesInStorage max folder listing).filesInStorage.toFinset,
    folder.size f with hn
  have hused := Server.usedSpace_generateFilesInStorage max folder listing hl.1 hlt
  rw [← hn] at hused
  obtain ⟨hw, -, hle⟩ : Covered w ∧ w.server.maxAvailableSpace = max ∧
      w.server.usedSpace.toNat ≤ Max.max max.toNat n := by
    refine run_invariant (fun w => Covered w ∧ w.server.maxAvailableSpace = max ∧
      w.server.usedSpace.toNat ≤ Max.max max.toNat n) (fun w a w' h ha hs => ?_)
      ⟨covered_initial hl hlt, Server.maxAvailableSpace_generateFilesInStorage max folder listing,
        le_max_of_le_right hused.le⟩ hr hP
    obtain ⟨hw, hmax, hle⟩ := h
    refine ⟨hw.step ha hs, (maxAvailableSpace_step hs).trans hmax, ?_⟩
    have hstep := usedSpace_step_le hw.exact hs
    rw [hmax] at hstep
    exact hstep.trans (max_le (le_max_left _ _) hle)
  exact (hw.sum_size_le S).trans (Nat.add_le_add_right hle _)

/-- A removal gives its space back before the file goes : another upload fills the server, and
the folder holds both files. -/
def overlappingFiles : List Action :=
  [.receive (addDatagram ⟨1, 1⟩ 1 [97] 2), .upload 0 .checkAndReserveSpace,
    .upload 0 .addFileToStorage, .upload 0 (.announce (some 5)), .upload 0 (.select .ready),
    .upload 0 (.accept true), .upload 0 (.openFile true), .upload 0 (.read (.piece [1, 2])),
    .upload 0 (.read .endOfStream), .upload 0 (.closeFile true),
    .receive (addDatagram ⟨2, 2⟩ 2 [98] 2),
    .receive (simpleDatagram ⟨1, 1⟩ 3 fileRemoveRequest [97]), .remove (.fileSize true),
    .remove .freeSpace, .upload 1 .checkAndReserveSpace, .upload 1 .addFileToStorage,
    .upload 1 (.announce (some 6)), .upload 1 (.select .ready), .upload 1 (.accept true),
    .upload 1 (.openFile true), .upload 1 (.read (.piece [3, 4])),
    .upload 1 (.read .endOfStream), .upload 1 (.closeFile true)]

/-- The bound is reached : four bytes on the disk of a server that may use two. -/
theorem overlappingFiles_diskUse : ∃ w, run (started 2) overlappingFiles = some w ∧
    ∑ f ∈ {[97], [98]}, w.server.folder.size f = 4 ∧
      ∀ S : Finset Filename, ∑ f ∈ S, w.server.folder.size f ≤ Max.max 2 0 + w.unremoved := by
  obtain ⟨w, hr, hw⟩ : ∃ w, run (started 2) overlappingFiles = some w ∧
      decide (w.server.folder.content [97] = some [1, 2] ∧
        w.server.folder.content [98] = some [3, 4]) := exists_run_of_any _ (by decide)
  obtain ⟨ha, hb⟩ := of_decide_eq_true hw
  refine ⟨w, hr, ?_, fun S => diskUse_of_orderly lists_empty (by decide) hr (by decide) S⟩
  rw [sum_pair (by decide), Folder.size, Folder.size, ha, hb]
  rfl

end World

end Netstore
