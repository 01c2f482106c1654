import Netstore.Undisturbed

/-!
# The space counter

A reservation is taken with the declared size and given back by the upload with that
size, or by a removal with the size that it measures on the disk. In orderly runs the
two agree : the counter is the sizes of the stored files, plus the declared sizes of
the uploads that hold their reservation, plus what the removal that is under way has
still to give back (`Exact`), and no step wraps it (`exact_of_orderly`).

A removal of a name whose upload is under way gives back what has reached the disk,
and the cleanup of the upload gives back the declared size once more
(`removedUpload_wraps`).
-/

namespace Netstore

open Finset

/-- What an upload holds of the counter. -/
def Upload.held (u : Upload) : ℕ :=
  if u.pc.holds then u.fileSize.toNat else 0

namespace World

open Transition

/-- The sizes of the stored files. -/
def storedSize (w : World) : ℕ :=
  ∑ f ∈ w.server.filesInStorage.toFinset with ¬w.Owned f, w.server.folder.size f

/-- The declared sizes of the uploads that hold their reservation. -/
def heldSize (w : World) : ℕ :=
  (w.uploads.map Upload.held).sum

/-- What the removal that is under way has still to give back. -/
def debt (w : World) : ℕ :=
  match w.loop with
  | .removing f .erased => w.server.folder.size f
  | .removing _ (.measured size) => size.toNat
  | _ => 0

/-- The counter is exact when no removal is under way. -/
def Accounted (w : World) : Prop :=
  w.loop.removal = none → w.server.usedSpace.toNat = w.storedSize + w.heldSize

/-- The counter is exact at any time. -/
def Exact (w : World) : Prop :=
  w.server.usedSpace.toNat = w.storedSize + w.heldSize + w.debt

variable {w w' : World} {a : Action}

/-- An exact counter is exact too when no removal is under way. -/
theorem Exact.accounted (h : Exact w) : Accounted w := by
  intro hl
  have hd : w.debt = 0 := by
    unfold debt
    cases hloop : w.loop with
    | removing f pc => simp [hloop, Loop.removal] at hl
    | _ => rfl
  rw [h, hd, Nat.add_zero]

theorem mem_stored {f : Filename} :
    f ∈ w.server.filesInStorage.toFinset.filter (fun f => ¬w.Owned f) ↔ w.Stored f := by
  simp [Stored]

/-- The stored names and their bytes determine the sum. -/
theorem storedSize_congr (hst : ∀ f, w'.Stored f ↔ w.Stored f)
    (hc : ∀ f, w.Stored f → w'.server.folder.content f = w.server.folder.content f) :
    w'.storedSize = w.storedSize := by
  refine sum_congr (by ext f; rw [mem_stored, mem_stored, hst]) fun f hf => ?_
  rw [Folder.size, Folder.size, hc f (mem_stored.mp hf)]

/-- One name more is stored. -/
theorem storedSize_insert {f : Filename} (hf : ¬w.Stored f)
    (hst : ∀ g, w'.Stored g ↔ g = f ∨ w.Stored g)
    (hc : ∀ g, w.Stored g → w'.server.folder.content g = w.server.folder.content g) :
    w'.storedSize = w.storedSize + w'.server.folder.size f := by
  have hset : w'.server.filesInStorage.toFinset.filter (fun g => ¬w'.Owned g) =
      insert f (w.server.filesInStorage.toFinset.filter fun g => ¬w.Owned g) := by
    ext g
    rw [mem_insert, mem_stored, mem_stored, hst]
  rw [storedSize, hset, sum_insert (fun h => hf (mem_stored.mp h)), add_comm, storedSize]
  congr 1
  refine sum_congr rfl fun g hg => ?_
  rw [Folder.size, Folder.size, hc g (mem_stored.mp hg)]

section Upload

variable {i : ℕ} {c : UploadCall} {u : Upload} {s : Server} {pc : UploadPc} {t : Bool}

/-- A move of one upload changes what is held by what that upload holds. -/
theorem heldSize_set (s : Server) (pc : UploadPc) (t : Bool) (hu : w.uploads[i]? = some u) :
    heldSize { w with server := s, uploads := w.uploads.set i { u with pc := pc }, terminated := t } +
      u.held = w.heldSize + Upload.held { u with pc := pc } :=
  sum_map_set Upload.held hu

theorem held_le (hu : w.uploads[i]? = some u) (ho : u.pc.holds) :
    u.fileSize.toNat ≤ w.heldSize := by
  have h := le_sum_map Upload.held hu
  rwa [Upload.held, if_pos ho] at h

/-- A call that moves the counter by what the upload holds, and the stored files by
nothing. -/
theorem Exact.move (h : Exact w) (hu : w.uploads[i]? = some u)
    (hsize : storedSize { w with
      server := s, uploads := w.uploads.set i { u with pc := pc }, terminated := t } = w.storedSize)
    (hdebt : debt { w with
      server := s, uploads := w.uploads.set i { u with pc := pc }, terminated := t } = w.debt)
    (hused : s.usedSpace.toNat + u.held =
      w.server.usedSpace.toNat + Upload.held { u with pc := pc }) :
    Exact { w with
      server := s, uploads := w.uploads.set i { u with pc := pc }, terminated := t } := by
  have hheld := heldSize_set s pc t hu
  unfold Exact at h ⊢
  rw [hsize, hdebt]
  dsimp only at hheld ⊢
  omega

/-- A call changes what is stored only by ending an upload with its file kept. -/
theorem stored_set (hu : w.uploads[i]? = some u) (hn : u.next w.server c = some (s, pc))
    (hkeep : pc.keptBytes = u.pc.keptBytes) (g : Filename) : Stored { w with
      server := s, uploads := w.uploads.set i { u with pc := pc }, terminated := t } g ↔
        w.Stored g := by
  rw [Stored, Stored, owned_set hu, owned_self hu]
  cases Upload.next_effect hn with
  | quiet used files share =>
    simp only [UploadPc.share, Prod.mk.injEq] at share
    simp [files, share.2.1]
  | reserve fits before after eq => simp [eq, before, after, UploadPc.owns]
  | release before after eq =>
    simp only [UploadPc.share, Prod.mk.injEq] at after
    simp [eq, after.2.1, Server.freeSpace]
  | insert fresh before after eq =>
    have hne : g ∈ w.server.filesInStorage → u.filename ≠ g := fun hg he => fresh (he ▸ hg)
    simp only [eq, before, after, UploadPc.owns, SortedSet.mem_insert]
    grind
  | erase before after eq =>
    have ho : u.pc.owns := by rcases before with before | before <;> rw [before] <;> rfl
    simp only [eq, after, ho, SortedSet.mem_erase]
    grind [UploadPc.owns]
  | keep bs used files before after =>
    simp only [UploadPc.share, Prod.mk.injEq] at before
    rw [before.2.2, after] at hkeep
    cases hkeep

/-- An upload that ends with its file kept stores its name. -/
theorem Undisturbed.stored_kept (h : Undisturbed w) (bs : Bytes) (t : Bool)
    (hu : w.uploads[i]? = some u) (hown : u.pc.owns)
    (hfiles : s.filesInStorage = w.server.filesInStorage) (g : Filename) :
    Stored { w with
      server := s, uploads := w.uploads.set i { u with pc := .kept bs }, terminated := t } g ↔
        g = u.filename ∨ w.Stored g := by
  have hi : w.Owns i u.filename := (has_self hu).mpr ⟨hown, rfl⟩
  have hrival : ¬∃ j ≠ i, w.Owns j u.filename := fun ⟨j, hji, hj⟩ => hji (h.unique hj hi)
  have hmem := h.indexed hi
  have hko : (UploadPc.kept bs).owns = false := rfl
  rw [Stored, Stored, owned_set hu, owned_self hu]
  grind

/-- A call of an upload in an orderly run leaves the debt as it is. -/
theorem debt_set (h : Undisturbed w) (hu : w.uploads[i]? = some u)
    (hn : u.next w.server c = some (s, pc)) (ha : Orderly w (.upload i c)) : debt { w with
      server := s, uploads := w.uploads.set i { u with pc := pc }, terminated := t } = w.debt := by
  unfold debt
  dsimp only
  split
  · rename_i f hl
    rw [Folder.size, Folder.size, h.content_upload hu hn ha (Or.inr (by rw [hl]; rfl))]
  · rfl
  · rfl

/-- Every call of an upload keeps the counter exact. -/
theorem Exact.upload (h : Exact w) (hw : Undisturbed w) (hu : w.uploads[i]? = some u)
    (hn : u.next w.server c = some (s, pc)) (ha : Orderly w (.upload i c)) : Exact { w with
      server := s, uploads := w.uploads.set i { u with pc := pc }, terminated := t } := by
  have hdebt := debt_set (t := t) hw hu hn ha
  have hcont : ∀ g, w.Stored g → s.folder.content g = w.server.folder.content g := fun g hg =>
    hw.content_upload hu hn ha (Or.inl hg.2)
  have hsize : pc.keptBytes = u.pc.keptBytes → storedSize { w with
      server := s, uploads := w.uploads.set i { u with pc := pc }, terminated := t } =
        w.storedSize := fun hk => storedSize_congr (stored_set hu hn hk) hcont
  cases Upload.next_effect hn with
  | quiet used files share =>
    simp only [UploadPc.share, Prod.mk.injEq] at share
    refine h.move hu (hsize share.2.2) hdebt ?_
    rw [used, Upload.held, Upload.held, share.1]
  | reserve fits before after eq =>
    refine h.move hu (hsize (by rw [before, after]; rfl)) hdebt ?_
    have := w.server.usedSpace_checkAndReserveSpace fits
    simp [eq, Upload.held, before, after, UploadPc.holds, this]
  | release before after eq =>
    simp only [UploadPc.share, Prod.mk.injEq] at after
    have hkept : u.pc.keptBytes = none := by
      cases hpc : u.pc <;> first | rfl | (rw [hpc] at before; cases before)
    refine h.move hu (hsize (after.2.2.trans hkept.symm)) hdebt ?_
    have hle : u.fileSize.toNat ≤ w.server.usedSpace.toNat := by
      have := held_le hu before
      unfold Exact at h
      omega
    have := w.server.usedSpace_freeSpace hle
    simp only [eq, this, Upload.held, before, after.1]
    simp
    omega
  | insert fresh before after eq =>
    refine h.move hu (hsize (by rw [before, after]; rfl)) hdebt ?_
    simp [eq, Upload.held, before, after, UploadPc.holds]
  | erase before after eq =>
    have hb : u.pc.holds = false ∧ u.pc.keptBytes = none := by
      rcases before with before | before <;> rw [before] <;> exact ⟨rfl, rfl⟩
    refine h.move hu (hsize (by rw [hb.2, after]; rfl)) hdebt ?_
    simp only [eq, Upload.held, hb.1, after]
    rfl
  | keep bs used files before after =>
    subst after
    simp only [UploadPc.share, Prod.mk.injEq] at before
    obtain ⟨hbytes, hlen, -⟩ := Upload.content_of_kept hn (hw.onDisk hu) ha.1.2
    have hown : w.Owned u.filename := ⟨u, List.mem_of_getElem? hu, before.2.1, rfl⟩
    have hsize := storedSize_insert (fun hs => hs.2 hown)
      (hw.stored_kept bs t hu before.2.1 files) hcont
    have hheld := heldSize_set s (.kept bs) t hu
    have hhad : u.held = u.fileSize.toNat := if_pos before.1
    have hhas : Upload.held { u with pc := .kept bs } = 0 := rfl
    have hsz : s.folder.size u.filename = u.fileSize.toNat := by
      rw [Folder.size, hbytes, ← hlen]
      rfl
    rw [hhad, hhas] at hheld
    unfold Exact at h ⊢
    rw [hsize, hdebt]
    dsimp only at hheld ⊢
    rw [used, hsz]
    omega

end Upload

/-- A removal that begins owes the size of its file. -/
theorem Exact.erase (h : Exact w) (hidle : w.loop = .idle) {f : Filename} (hf : w.Stored f) :
    Exact { w with
      server := { w.server with filesInStorage := w.server.filesInStorage.erase f }
      loop := .removing f .erased } := by
  have hsize : w.storedSize = storedSize { w with
      server := { w.server with filesInStorage := w.server.filesInStorage.erase f }
      loop := .removing f .erased } + w.server.folder.size f :=
    storedSize_insert (fun hs => by simpa using hs.1) ?_ (fun g _ => rfl)
  · have hdebt : w.debt = 0 := by rw [debt, hidle]
    unfold Exact at h ⊢
    rw [hsize, hdebt, Nat.add_zero] at h
    exact h.trans (Nat.add_right_comm _ _ _)
  · intro g
    have hiff : Stored { w with
        server := { w.server with filesInStorage := w.server.filesInStorage.erase f }
        loop := .removing f .erased } g ↔ (g ≠ f ∧ g ∈ w.server.filesInStorage) ∧ ¬w.Owned g :=
      and_congr_left' SortedSet.mem_erase
    rw [hiff]
    by_cases hg : g = f
    · simp [hg, hf]
    · simp [hg, Stored]

/-- A call of a removal keeps the counter exact. -/
theorem Exact.removal (h : Exact w) (hw : Undisturbed w) {c : RemovalCall} {f : Filename}
    {pc : RemovalPc} (hloop : w.loop = .removing f pc) (hn : w.removeNext f pc c = some w')
    (ha : FilesOk w (.remove c)) : Exact w' := by
  have hlt := w.server.usedSpace.toNat_lt
  unfold Exact at h
  cases removeNext_cases hn with
  | @measure bs before content =>
    have hsize : w.server.folder.size f = bs.length := by
      rw [Folder.size, content]
      rfl
    have hdebt : w.debt = bs.length := by rw [debt, hloop, before, ← hsize]
    have hn : (UInt64.ofNat bs.length).toNat = bs.length :=
      UInt64.toNat_ofNat_of_lt' (by have : UInt64.size = 2 ^ 64 := rfl; omega)
    rw [hdebt, ← hn] at h
    exact h
  | @release size before =>
    have hdebt : w.debt = size.toNat := by rw [debt, hloop, before]
    have hsub := Server.usedSpace_freeSpace (s := w.server) (show size.toNat ≤ _ by omega)
    have hsame : storedSize { w with
        server := w.server.freeSpace size, loop := .removing f .released } = w.storedSize := rfl
    have hheld : heldSize { w with
        server := w.server.freeSpace size, loop := .removing f .released } = w.heldSize := rfl
    have hpaid : debt { w with
        server := w.server.freeSpace size, loop := .removing f .released } = 0 := rfl
    unfold Exact
    rw [hsame, hheld, hpaid]
    dsimp only
    omega
  | @remove folder before remove =>
    have hdebt : w.debt = 0 := by rw [debt, hloop, before]
    have hsame : storedSize { w with
        server := { w.server with folder := folder }, loop := .idle } = w.storedSize :=
      storedSize_congr (fun g => Iff.rfl) fun g hg =>
        (Folder.changesOnly_remove remove).content fun he =>
          (hw.stored hg).2 (by rw [hloop, he]; rfl)
    have hheld : heldSize { w with
        server := { w.server with folder := folder }, loop := .idle } = w.heldSize := rfl
    unfold Exact
    rw [hsame, hheld, h, hdebt]
    rfl
  | fail call => exact (hw.removal_ok hloop ha call).elim

/-- Every orderly step keeps the counter exact. -/
theorem Exact.step (h : Exact w) (hw : Undisturbed w) (ha : Orderly w a)
    (hs : w.step a = some w') : Exact w' := by
  cases step_cases hs with
  | upload thread next terminated => exact h.upload hw thread next ha
  | @spawn d seq filename fileSize idle request =>
    have hheld : heldSize { w with
        uploads := w.uploads ++ [⟨d.source, seq, filename, fileSize, .start⟩] } = w.heldSize := by
      simp [heldSize, Upload.held, UploadPc.holds]
    have hsame : storedSize { w with
        uploads := w.uploads ++ [⟨d.source, seq, filename, fileSize, .start⟩] } = w.storedSize :=
      storedSize_congr (fun g => and_congr_right' (not_congr (owned_append rfl))) fun _ _ => rfl
    unfold Exact
    rw [hheld, hsame]
    exact h
  | @erase d f idle request =>
    have ho : ¬w.Owned f := ha.2 f (Action.removes_receive request)
    by_cases hf : f ∈ w.server.filesInStorage
    · rw [start_remove_of_mem _ hf]
      exact h.erase idle ⟨hf, ho⟩
    · rwa [start_remove_of_not_mem _ idle hf]
  | removal loop next => exact h.removal hw loop next ha.1
  | other call server uploads removal =>
    have hdebt : w'.debt = w.debt := by
      unfold debt
      rw [server]
      cases hl : w.loop <;> cases hl' : w'.loop <;> simp_all [Loop.removal]
    have hsame : w'.storedSize = w.storedSize :=
      storedSize_congr (fun g => by rw [Stored, Stored, owned_congr uploads, server])
        fun g _ => by rw [server]
    unfold Exact
    rw [hsame, heldSize, uploads, server, hdebt]
    exact h

/-- An exact counter wraps in no step. -/
theorem Exact.noWrap (h : Exact w) (hs : w.step a = some w') : NoWrap w a := by
  unfold Exact at h
  refine noWrap_of_le (fun hu ho => ?_) (fun {f size} hl => ?_) hs
  · have := held_le hu ho
    omega
  · have hdebt : w.debt = size.toNat := by rw [debt, hl]
    omega

/-- The counter is exact at the start if the sizes fit in its 64 bits. -/
theorem exact_initial {max : UInt64} {folder : Folder Filename} {listing : List Filename}
    (hl : Lists listing folder)
    (hlt : ∑ f ∈ (Server.generateFilesInStorage max folder listing).filesInStorage.toFinset,
      folder.size f < 2 ^ 64) :
    Exact (initial (Server.generateFilesInStorage max folder listing)) := by
  have hused := Server.usedSpace_generateFilesInStorage max folder listing hl.1 hlt
  have hall : ∀ f, ¬Owned (initial (Server.generateFilesInStorage max folder listing)) f := by
    intro f
    simp [Owned, initial]
  rw [Exact, storedSize, filter_true_of_mem fun f _ => hall f]
  simpa [initial, heldSize, debt] using hused

/-- In orderly runs the space accounting is exact : whenever no removal is under way the
counter is the sizes of the stored files plus the declared sizes of the uploads that
hold their reservation, and no step wraps it. -/
theorem exact_of_orderly {max : UInt64} {folder : Folder Filename} {listing : List Filename}
    {as : List Action} (hl : Lists listing folder)
    (hlt : ∑ f ∈ (Server.generateFilesInStorage max folder listing).filesInStorage.toFinset,
      folder.size f < 2 ^ 64)
    (hr : run (initial (Server.generateFilesInStorage max folder listing)) as = some w)
    (hP : Along World.step Orderly (initial (Server.generateFilesInStorage max folder listing)) as) :
    Accounted w ∧ ∀ a w', w.step a = some w' → NoWrap w a := by
  obtain ⟨-, hw⟩ : Undisturbed w ∧ Exact w :=
    run_invariant (fun w => Undisturbed w ∧ Exact w)
      (fun _ _ _ h ha hs => ⟨h.1.step ha hs, h.2.step h.1 ha hs⟩)
      ⟨undisturbed_initial hl, exact_initial hl hlt⟩ hr hP
  exact ⟨hw.accounted, fun a w' => hw.noWrap⟩

theorem orderlyRun_exact : ∃ w, run (started 10) orderlyRun = some w ∧ Accounted w ∧
    ∀ a w', w.step a = some w' → NoWrap w a := by
  obtain ⟨w, hr, -⟩ : ∃ w, run (started 10) orderlyRun = some w ∧ decide (w.loop = .idle) :=
    exists_run_of_any _ (by decide)
  exact ⟨w, hr, exact_of_orderly lists_empty (by decide) hr (by decide)⟩

/-- Five bytes of an upload of ten arrive. Its name is removed with its five bytes, and
then it comes to its cleanup. -/
def removedUpload : List Action :=
  [.receive (addDatagram ⟨1, 1⟩ 1 [97] 10), .upload 0 .checkAndReserveSpace,
    .upload 0 .addFileToStorage, .upload 0 (.announce (some 5)), .upload 0 (.select .ready),
    .upload 0 (.accept true), .upload 0 (.openFile true),
    .upload 0 (.read (.piece [1, 2, 3, 4, 5])), .upload 0 (.read .endOfStream),
    .upload 0 (.closeFile true), .receive (simpleDatagram ⟨2, 2⟩ 2 fileRemoveRequest [97]),
    .remove (.fileSize true), .remove .freeSpace, .remove (.removeFile true),
    .upload 0 (.fileExists true)]

/-- The counter is five short when the removal has ended, and the cleanup wraps it. -/
theorem removedUpload_wraps : Along step FilesOk (started 10) removedUpload ∧
    ∃ w, run (started 10) removedUpload = some w ∧ ¬Accounted w ∧
      (w.step (.upload 0 .freeSpace)).isSome ∧ ¬NoWrap w (.upload 0 .freeSpace) := by
  refine ⟨by decide, ?_⟩
  obtain ⟨w, hr, hw⟩ : ∃ w, run (started 10) removedUpload = some w ∧
      decide (w.loop = .idle ∧ w.server.usedSpace = 5 ∧ w.server.filesInStorage.toList = [] ∧
        w.uploads = [⟨⟨1, 1⟩, 1, [97], 10, .releasing⟩] ∧
        (w.step (.upload 0 .freeSpace)).isSome) := exists_run_of_any _ (by decide)
  obtain ⟨hloop, hused, hfiles, hup, hstep⟩ := of_decide_eq_true hw
  refine ⟨w, hr, fun h => ?_, hstep, ?_⟩
  · have hheld : w.heldSize = 10 := by rw [heldSize, hup]; rfl
    have := h (by rw [hloop]; rfl)
    rw [hused, hheld] at this
    simp at this
  · simp [NoWrap, hup, hused]

end World

end Netstore
