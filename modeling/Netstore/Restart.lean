import Netstore.Agreement
import Netstore.Durability
import Netstore.Disk

/-!
# A server that is started again

A server ends when its process does, in whatever state its threads are, and its folder is all
that stays. `World.restart` is the server that is started on it : the index and the counter are
made anew from the folder. A run of `lifeStep` goes through any number of lives.

A server that ends while no handler is running loses nothing, and is the same when it is
started again (`restart_of_quiet`). Names that are stored stay so through every end
(`durable_of_lives`). After an end at any other time the index has more than the stored names :
a file that was being uploaded, as far as it came, is now as good as any other, and so is a
file whose removal had begun (`left_of_lives`).
-/

namespace Netstore

theorem Server.eq_of {s s' : Server} (hmax : s.maxAvailableSpace = s'.maxAvailableSpace)
    (hused : s.usedSpace = s'.usedSpace) (hfiles : s.filesInStorage = s'.filesInStorage)
    (hfolder : s.folder = s'.folder) : s = s' := by
  cases s
  cases s'
  simp_all

/-- What an upload has received while it is in its transfer. -/
def UploadPc.transferred : UploadPc → Option Bytes
  | .receiving _ _ _ received | .closing _ _ _ received => some received
  | _ => none

namespace World

open Transition

/-- A new server on the folder that the server leaves. -/
def restart (w : World) (maxAvailableSpace : UInt64) (listing : List Filename) : World :=
  initial (Server.generateFilesInStorage maxAvailableSpace w.server.folder listing)

/-- A step of the server, or its end and a new start. -/
inductive LifeAction where
  | step (a : Action)
  | restart (maxAvailableSpace : UInt64) (listing : List Filename)

/-- A server can end in any state, also one that an exception has terminated. -/
def lifeStep (w : World) : LifeAction → Option World
  | .step a => w.step a
  | .restart maxAvailableSpace listing => some (w.restart maxAvailableSpace listing)

/-- The steps are orderly, and a start finds every file, of less than `2 ^ 64` bytes in all. -/
def OrderlyLife (w : World) : LifeAction → Prop
  | .step a => Orderly w a
  | .restart _ listing => Lists listing w.server.folder ∧
    ∑ f ∈ listing.toFinset, w.server.folder.size f < 2 ^ 64

/-- A removal of the name begins. -/
def LifeAction.beginsRemoval (f : Filename) : LifeAction → Bool
  | .step a => World.beginsRemoval f a
  | .restart _ _ => false

variable {w w' : World} {max : UInt64} {listing : List Filename} {f : Filename}

/-! ## What is left -/

theorem mem_restart (hl : Lists listing w.server.folder) :
    f ∈ (w.restart max listing).server.filesInStorage ↔ w.server.folder.inode f ≠ none := by
  rw [restart, initial, Server.mem_generateFilesInStorage]
  exact ⟨And.right, fun h => ⟨hl.2 f h, h⟩⟩

@[simp] theorem folder_restart : (w.restart max listing).server.folder = w.server.folder :=
  Server.folder_generateFilesInStorage _ _ _

theorem not_owned_restart : ¬(w.restart max listing).Owned f := by
  simp [restart, initial, Owned]

/-- The sizes of the indexed files are those of the listed ones. -/
theorem sum_restart (hl : Lists listing w.server.folder) :
    ∑ f ∈ (w.restart max listing).server.filesInStorage.toFinset, w.server.folder.size f =
      ∑ f ∈ listing.toFinset, w.server.folder.size f := by
  refine Finset.sum_subset (fun f hf => ?_) fun f hf hnot => ?_
  · exact List.mem_toFinset.mpr (hl.2 f ((mem_restart hl).mp hf))
  · refine Upload.size_of_inode_none (not_not.mp fun h => hnot ?_)
    exact (mem_restart hl).mpr h

theorem covered_restart (hl : Lists listing w.server.folder)
    (hlt : ∑ f ∈ listing.toFinset, w.server.folder.size f < 2 ^ 64) :
    Covered (w.restart max listing) :=
  covered_initial hl ((sum_restart hl).trans_lt hlt)

theorem usedSpace_restart (hl : Lists listing w.server.folder)
    (hlt : ∑ f ∈ listing.toFinset, w.server.folder.size f < 2 ^ 64) :
    (w.restart max listing).server.usedSpace.toNat =
      ∑ f ∈ listing.toFinset, w.server.folder.size f := by
  have hsum : ∑ f ∈ (w.restart max listing).server.filesInStorage.toFinset,
      w.server.folder.size f = ∑ f ∈ listing.toFinset, w.server.folder.size f := sum_restart hl
  rw [← hsum]
  exact Server.usedSpace_generateFilesInStorage max w.server.folder listing hl.1
    (hsum.trans_lt hlt)

/-- A stored name is stored after the start, with its bytes. -/
theorem Stored.restart (h : w.Stored f) (hw : Undisturbed w)
    (hl : Lists listing w.server.folder) : (w.restart max listing).Stored f :=
  ⟨(mem_restart hl).mpr (hw.stored h).1, not_owned_restart⟩

/-! ## A server with no handler running -/

theorem Quiet.heldSize (h : w.Quiet) : w.heldSize = 0 := by
  refine List.sum_eq_zero fun n hn => ?_
  obtain ⟨u, hu, rfl⟩ := List.mem_map.mp hn
  have he := h.2 u hu
  have hh : u.pc.holds = false := by
    cases hpc : u.pc <;> rw [hpc] at he <;> first | rfl | cases he
  simp [Upload.held, hh]

theorem Quiet.debt (h : w.Quiet) : w.debt = 0 := by
  have hl := h.1
  unfold World.debt
  cases hloop : w.loop with
  | removing f pc => simp [hloop, Loop.removal] at hl
  | _ => rfl

/-- The server is the same after it is started again, but for its maximum. -/
theorem Quiet.restart (hq : w.Quiet) (hw : Covered w) (hl : Lists listing w.server.folder)
    (hlt : ∑ f ∈ listing.toFinset, w.server.folder.size f < 2 ^ 64) :
    w.restart max listing = initial { w.server with maxAvailableSpace := max } := by
  have hagrees := hw.undisturbed.agrees hq
  have hfiles : (w.restart max listing).server.filesInStorage = w.server.filesInStorage := by
    ext f
    rw [mem_restart hl, hagrees]
  have hsum : ∑ f ∈ (w.restart max listing).server.filesInStorage.toFinset,
      w.server.folder.size f = ∑ f ∈ listing.toFinset, w.server.folder.size f := sum_restart hl
  have hused : (w.restart max listing).server.usedSpace = w.server.usedSpace := by
    have hexact := hw.exact
    unfold Exact at hexact
    refine UInt64.toNat_inj.mp ?_
    rw [usedSpace_restart hl hlt, ← hsum, hfiles, hexact, hq.heldSize, hq.debt, storedSize,
      Finset.filter_true_of_mem fun f _ => hq.not_owned f]
    rfl
  have hmax : (w.restart max listing).server.maxAvailableSpace = max :=
    Server.maxAvailableSpace_generateFilesInStorage _ _ _
  exact congrArg initial (Server.eq_of hmax hused hfiles folder_restart)

/-! ## Any number of lives -/

theorem Covered.lifeStep {a : LifeAction} (h : Covered w) (ha : OrderlyLife w a)
    (hs : w.lifeStep a = some w') : Covered w' := by
  cases a with
  | step a => exact h.step ha hs
  | restart max listing =>
    obtain rfl := Option.some.inj hs
    exact covered_restart ha.1 ha.2

theorem covered_of_lives {w₀ : World} {as : List LifeAction} (h0 : Covered w₀)
    (hr : Transition.run lifeStep w₀ as = some w) (hP : Along lifeStep OrderlyLife w₀ as) :
    Covered w :=
  run_invariant Covered (fun _ _ _ h ha hs => h.lifeStep ha hs) h0 hr hP

theorem run_map_step (w : World) (as : List Action) :
    Transition.run lifeStep w (as.map .step) = run w as := by
  induction as generalizing w with
  | nil => rfl
  | cons a as ih =>
    rw [List.map_cons, run_cons, World.run, run_cons]
    simp only [ih]
    rfl

theorem along_map_step {as : List Action} :
    Along lifeStep OrderlyLife w (as.map .step) ↔ Along step Orderly w as := by
  induction as generalizing w with
  | nil => exact Iff.rfl
  | cons a as ih =>
    refine and_congr_right' ?_
    cases hs : w.step a with
    | none => simp [lifeStep, hs]
    | some w' =>
      simp only [lifeStep, hs]
      exact ih

/-- A life that is followed by a start. -/
theorem along_restart {as : List Action} (hr : run w as = some w') (hP : Along step Orderly w as)
    (ha : OrderlyLife w' (.restart max listing)) :
    Along lifeStep OrderlyLife w (as.map .step ++ [.restart max listing]) :=
  (along_concat ((run_map_step w as).trans hr)).mpr ⟨along_map_step.mpr hP, ha⟩

/-- The index lists the folder when no removal is under way. -/
theorem Undisturbed.lists (h : Undisturbed w) (ht : w.loop.target = none) :
    Lists w.server.filesInStorage.toList w.server.folder := by
  refine ⟨w.server.filesInStorage.nodup, fun f hf => ?_⟩
  by_contra hnot
  exact (h.absent hnot).elim hf (by simp [ht])

/-- A stored name keeps its bytes through every life, until a removal of it begins. -/
theorem stored_of_lives {w₀ : World} {as : List LifeAction} (h0 : Covered w₀) (hf : w₀.Stored f)
    (hr : Transition.run lifeStep w₀ as = some w) (hP : Along lifeStep OrderlyLife w₀ as)
    (hdel : ∀ b ∈ as, b.beginsRemoval f = false) :
    w.Stored f ∧ w.server.folder.content f = w₀.server.folder.content f := by
  refine (run_induction (fun as w => Covered w ∧ ((∀ b ∈ as, b.beginsRemoval f = false) →
    w.Stored f ∧ w.server.folder.content f = w₀.server.folder.content f))
    ⟨h0, fun _ => ⟨hf, rfl⟩⟩ (fun as w a w' _ hI ha hs => ⟨hI.1.lifeStep ha hs, fun hdel => ?_⟩)
    hr hP).2 hdel
  obtain ⟨hst, hc⟩ := hI.2 fun b hb => hdel b (List.mem_append_left _ hb)
  have hb := hdel a (by simp)
  cases a with
  | step a =>
    exact ⟨hst.step hb hs, (hI.1.undisturbed.content_step ha hs hst).trans hc⟩
  | restart max listing =>
    obtain rfl := Option.some.inj hs
    exact ⟨hst.restart hI.1.undisturbed ha.1, by rw [folder_restart, hc]⟩

/-- Along the lives from `w₀` every upload that ends with its file kept has received all its
bytes and stays in the index and on the disk, until a removal of its name begins. -/
def DurableLives (w₀ : World) (as : List LifeAction) : Prop :=
  ∀ pre a post w₁ w₂ w (i : ℕ) (u : Upload) bs, as = pre ++ .step a :: post →
    Transition.run lifeStep w₀ pre = some w₁ →
    Transition.run lifeStep w₀ (pre ++ [.step a]) = some w₂ →
    Transition.run lifeStep w₀ as = some w → w₁.uploads[i]?.map Upload.pc ≠ some (.kept bs) →
    w₂.uploads[i]? = some u → u.pc = .kept bs →
    (∀ b ∈ post, b.beginsRemoval u.filename = false) →
      bs.length = u.fileSize.toNat ∧ u.filename ∈ w.server.filesInStorage ∧
        w.server.folder.content u.filename = some bs

/-- A file of an upload that has not ended : what has come so far, or what is left of it. -/
def Cut (w : World) (f : Filename) : Prop :=
  ∃ u ∈ w.uploads, u.pc.owns ∧ u.filename = f ∧ ∃ bs, w.server.folder.content f = some bs ∧
    bs.length ≤ u.fileSize.toNat ∧ ∀ received ∈ u.pc.transferred, bs <+: received

/-- What the server that is started has of the one that has ended. -/
structure Left (w w' : World) : Prop where
  mem_iff : ∀ f, f ∈ w'.server.filesInStorage ↔
    w.Stored f ∨ w.Cut f ∨ w.loop.target = some f
  content : ∀ f, w'.server.folder.content f = w.server.folder.content f
  used_le : w'.server.usedSpace.toNat ≤ w.server.usedSpace.toNat + w.unremoved

/-- An upload whose name has a file is at it, or its name is being removed. -/
theorem Covered.cut (h : Covered w) (hf : w.server.folder.inode f ≠ none) (ho : w.Owned f)
    (ht : w.loop.target ≠ some f) : w.Cut f := by
  obtain ⟨u, hu, huo, rfl⟩ := ho
  obtain ⟨i, hi⟩ := List.mem_iff_getElem?.mp hu
  obtain ⟨bs, hbs⟩ := Option.ne_none_iff_exists'.mp
    (mt w.server.folder.content_eq_none_iff.mp hf)
  refine ⟨u, hu, huo, rfl, bs, hbs, ?_, fun received hr => ?_⟩
  · have hb := (h.bounded hi huo).resolve_left ht
    rwa [Folder.size, hbs] at hb
  · have hdisk := h.undisturbed.onDisk hi
    cases hpc : u.pc with
    | receiving failed st toUpload rec | closing failed st toUpload rec =>
      simp only [Upload.OnDisk, hpc] at hdisk
      obtain ⟨cs, hcs, -, hrec⟩ := hdisk.flushed
      obtain rfl : bs = cs := Option.some.inj (hbs.symm.trans hcs)
      obtain rfl : rec = received := by simpa [hpc, UploadPc.transferred] using hr
      exact ⟨st.buffer, hrec.symm⟩
    | _ => simp [hpc, UploadPc.transferred] at hr

theorem Covered.left (h : Covered w) (hl : Lists listing w.server.folder)
    (hlt : ∑ f ∈ listing.toFinset, w.server.folder.size f < 2 ^ 64) :
    Left w (w.restart max listing) where
  mem_iff f := by
    rw [mem_restart hl]
    constructor
    · intro hf
      by_cases ht : w.loop.target = some f
      · exact Or.inr (Or.inr ht)
      by_cases ho : w.Owned f
      · exact Or.inr (Or.inl (h.cut hf ho ht))
      · refine Or.inl ⟨?_, ho⟩
        by_contra hfiles
        exact (h.undisturbed.absent hfiles).elim hf ht
    · rintro (hst | ⟨u, -, -, -, bs, hbs, -⟩ | ht)
      · exact (h.undisturbed.stored hst).1
      · intro hnone
        simp [w.server.folder.content_eq_none_iff.mpr hnone] at hbs
      · exact h.undisturbed.target ht
  content f := by rw [folder_restart]
  used_le := by
    rw [usedSpace_restart hl hlt]
    exact h.sum_size_le listing.toFinset

/-- The step accepts an upload of the name. -/
def acceptsLife (f : Filename) (w : World) : LifeAction → Bool
  | .step a => accepts f w a
  | .restart _ _ => false

/-- The name is neither in the index nor being removed, and so it has no file. -/
def Gone (w : World) (f : Filename) : Prop :=
  f ∉ w.server.filesInStorage ∧ w.loop.target ≠ some f

instance (w : World) (f : Filename) : Decidable (w.Gone f) :=
  inferInstanceAs (Decidable (_ ∧ _))

/-- A name that is gone is gone until an upload of it is accepted. -/
theorem Gone.step {a : Action} (h : w.Gone f) (ha : ¬accepts f w a) (hs : w.step a = some w') :
    w'.Gone f := by
  refine ⟨not_mem_step h.1 ha hs, ?_⟩
  cases step_cases hs with
  | upload thread next terminated => exact h.2
  | spawn idle request => exact h.2
  | @erase d g idle request =>
    by_cases hg : g ∈ w.server.filesInStorage
    · rw [start_remove_of_mem _ hg]
      intro he
      exact h.1 (Option.some.inj he ▸ hg)
    · rw [start_remove_of_not_mem _ idle hg]
      exact h.2
  | @removal c g pc w' loop next =>
    have ht : w.loop.target = some g := by rw [loop]; rfl
    cases removeNext_cases next with
    | measure | release => exact fun he => h.2 (ht.trans he)
    | remove | fail => exact nofun
  | other call server uploads removal =>
    rw [Loop.target, removal]
    exact h.2

theorem Gone.lifeStep {a : LifeAction} (h : w.Gone f) (hw : Covered w) (hP : OrderlyLife w a)
    (ha : ¬acceptsLife f w a) (hs : w.lifeStep a = some w') : w'.Gone f := by
  cases a with
  | step a => exact h.step ha hs
  | restart max listing =>
    obtain rfl := Option.some.inj hs
    refine ⟨fun hf => ?_, nofun⟩
    exact (hw.undisturbed.absent h.1).elim ((mem_restart hP.1).mp hf) h.2

theorem Gone.inode (h : w.Gone f) (hw : Covered w) : w.server.folder.inode f = none :=
  (hw.undisturbed.absent h.1).resolve_right h.2

section Lives

variable {folder : Folder Filename} {as : List LifeAction} {max' : UInt64}
  {listing' : List Filename}

/-- Completed uploads are durable through any number of ends and starts. -/
theorem durable_of_lives (hl : Lists listing folder)
    (hlt : ∑ f ∈ (Server.generateFilesInStorage max folder listing).filesInStorage.toFinset,
      folder.size f < 2 ^ 64)
    (hP : Along lifeStep OrderlyLife
      (initial (Server.generateFilesInStorage max folder listing)) as) :
    DurableLives (initial (Server.generateFilesInStorage max folder listing)) as := by
  rintro pre a post w₁ w₂ w i u bs rfl hpre hend hr hbefore hu hpc hdel
  have hs : w₁.lifeStep (.step a) = some w₂ := step_of_concat hpre hend
  have hsplit : pre ++ .step a :: post = (pre ++ [.step a]) ++ post := by simp
  rw [hsplit] at hr hP
  have hpost := run_of_append hend hr
  have h₁ := covered_of_lives (covered_initial hl hlt) hpre hP.append_left.append_left
  have ha : Orderly w₁ a := ((along_concat hpre).mp hP.append_left).2
  obtain ⟨hlen, hst, hc⟩ := h₁.undisturbed.ends_kept ha hs hbefore hu hpc
  obtain ⟨hst', hc'⟩ := stored_of_lives (h₁.step ha hs) hst hpost (hP.append_right hend) hdel
  exact ⟨hlen, hst'.1, hc'.trans hc⟩

/-- An upload of two bytes that is kept. -/
def keptUpload : List Action :=
  [.receive (addDatagram ⟨1, 1⟩ 1 [97] 2), .upload 0 .checkAndReserveSpace,
    .upload 0 .addFileToStorage, .upload 0 (.announce (some 5)), .upload 0 (.select .ready),
    .upload 0 (.accept true), .upload 0 (.openFile true), .upload 0 (.read (.piece [1, 2])),
    .upload 0 (.read .endOfStream), .upload 0 (.closeFile true)]

theorem keptUpload_run : ∃ w, run (started 10) keptUpload = some w ∧
    OrderlyLife w (.restart 10 [[97]]) ∧ w.Quiet := by
  obtain ⟨w, hr, hw⟩ : ∃ w, run (started 10) keptUpload = some w ∧
      decide (w.loop = .idle ∧ w.server.filesInStorage.toList = [[97]] ∧
        w.server.folder.size [97] = 2 ∧ ∀ u ∈ w.uploads, u.pc.ended) :=
    exists_run_of_any _ (by decide)
  obtain ⟨hloop, hfiles, hsize, hended⟩ := of_decide_eq_true hw
  have hu := undisturbed_of_run (undisturbed_initial lists_empty) hr (by decide)
  refine ⟨w, hr, ⟨hfiles ▸ hu.lists (by rw [hloop]; rfl), ?_⟩, by rw [hloop]; rfl, hended⟩
  simp [hsize]

theorem keptUpload_durable :
    DurableLives (started 10) (keptUpload.map .step ++ [.restart 10 [[97]]]) := by
  obtain ⟨w, hr, ha, -⟩ := keptUpload_run
  exact durable_of_lives lists_empty (by decide) (along_restart hr (by decide) ha)

/-- Whenever a server ends, the next has the stored names, the uploads as far as they came, and
the name whose removal had begun, and nothing else. -/
theorem left_of_lives (hl : Lists listing folder)
    (hlt : ∑ f ∈ (Server.generateFilesInStorage max folder listing).filesInStorage.toFinset,
      folder.size f < 2 ^ 64)
    (hr : Transition.run lifeStep (initial (Server.generateFilesInStorage max folder listing)) as =
      some w)
    (hP : Along lifeStep OrderlyLife
      (initial (Server.generateFilesInStorage max folder listing)) as)
    (ha : OrderlyLife w (.restart max' listing')) : Left w (w.restart max' listing') :=
  (covered_of_lives (covered_initial hl hlt) hr hP).left ha.1 ha.2

/-- A server that ends with no handler running is the same when it is started again. -/
theorem restart_of_quiet (hl : Lists listing folder)
    (hlt : ∑ f ∈ (Server.generateFilesInStorage max folder listing).filesInStorage.toFinset,
      folder.size f < 2 ^ 64)
    (hr : Transition.run lifeStep (initial (Server.generateFilesInStorage max folder listing)) as =
      some w)
    (hP : Along lifeStep OrderlyLife
      (initial (Server.generateFilesInStorage max folder listing)) as) (hq : w.Quiet)
    (ha : OrderlyLife w (.restart max' listing')) :
    w.restart max' listing' = initial { w.server with maxAvailableSpace := max' } :=
  hq.restart (covered_of_lives (covered_initial hl hlt) hr hP) ha.1 ha.2

/-- The kept file is all that the next server has. -/
theorem keptUpload_restart : ∃ w, run (started 10) keptUpload = some w ∧
    w.restart 10 [[97]] = initial { w.server with maxAvailableSpace := 10 } := by
  obtain ⟨w, hr, ha, hq⟩ := keptUpload_run
  have hr' := (run_map_step (started 10) keptUpload).trans hr
  exact ⟨w, hr, restart_of_quiet lists_empty (by decide) hr' (along_map_step.mpr (by decide)) hq ha⟩

/-- The server ends when one byte of an upload of two is on the disk. -/
theorem cutUpload_left : ∃ w, run (started 10) (keptUpload.take 8 ++ [.upload 0 (.flush 1 true)]) =
    some w ∧ Left w (w.restart 10 [[97]]) ∧ w.server.folder.content [97] = some [1] := by
  obtain ⟨w, hr, hw⟩ : ∃ w,
      run (started 10) (keptUpload.take 8 ++ [.upload 0 (.flush 1 true)]) = some w ∧
      decide (w.loop = .idle ∧ w.server.filesInStorage.toList = [[97]] ∧
        w.server.folder.content [97] = some [1]) := exists_run_of_any _ (by decide)
  obtain ⟨hloop, hfiles, hcont⟩ := of_decide_eq_true hw
  have hu := undisturbed_of_run (undisturbed_initial lists_empty) hr (by decide)
  have ha : OrderlyLife w (.restart 10 [[97]]) := by
    refine ⟨hfiles ▸ hu.lists (by rw [hloop]; rfl), ?_⟩
    simp [Folder.size, hcont]
  have hr' := (run_map_step (started 10) _).trans hr
  exact ⟨w, hr,
    left_of_lives lists_empty (by decide) hr' (along_map_step.mpr (by decide)) ha, hcont⟩

end Lives

end World

end Netstore
