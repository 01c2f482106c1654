import Netstore.Folder
import Netstore.SortedSet
import Mathlib.Algebra.BigOperators.Group.Finset.Basic

/-!
# The server's storage

The server keeps three things about its files : the index `filesInStorage`, the
counter `usedSpace`, and the files themselves in the shared folder. The functions of
this file are the calls that a handler makes under a mutex, each one atomic step, and
`generateFilesInStorage`, which fills the index and the counter from the folder when
the server starts.

The counter is a `uint64_t`. `checkAndReserveSpace` never wraps it
(`usedSpace_checkAndReserveSpace`); `freeSpace` wraps it below zero unless its callers
give back no more than is used (`usedSpace_freeSpace`).
-/

namespace Netstore

/-- A name in the shared folder. -/
abbrev Filename := Bytes

/-- The fields of `Server` that requests change, and the folder. -/
structure Server where
  maxAvailableSpace : UInt64
  usedSpace : UInt64
  /-- The index : what is listed and can be fetched or removed. -/
  filesInStorage : SortedSet Filename
  /-- The shared folder. -/
  folder : Folder Filename

namespace Server

variable (s : Server)

/-! ## The calls under a mutex -/

/-- Whether the name was new, and the server with the name in the index. -/
def addFileToStorage (filename : Filename) : Bool × Server :=
  (decide (filename ∉ s.filesInStorage),
    { s with filesInStorage := s.filesInStorage.insert filename })

/-- The number of names erased, and the server without the name. -/
def removeFileFromStorage (filename : Filename) : ℕ × Server :=
  (if filename ∈ s.filesInStorage then 1 else 0,
    { s with filesInStorage := s.filesInStorage.erase filename })

/-- `Server::is_in_storage`. -/
def isInStorage (filename : Filename) : Bool :=
  decide (filename ∈ s.filesInStorage)

/-- `Server::get_available_space`. -/
def getAvailableSpace : UInt64 :=
  if s.usedSpace > s.maxAvailableSpace then 0 else s.maxAvailableSpace - s.usedSpace

/-- `Server::check_and_reserve_space`. -/
def checkAndReserveSpace (size : UInt64) : Bool × Server :=
  if size > s.maxAvailableSpace ∨ s.usedSpace > s.maxAvailableSpace - size then (false, s)
  else (true, { s with usedSpace := s.usedSpace + size })

/-- `Server::free_space`. The counter wraps below zero. -/
def freeSpace (size : UInt64) : Server :=
  { s with usedSpace := s.usedSpace - size }

/-- One entry of the folder : a regular file is indexed and counted. -/
def indexEntry (filename : Filename) : Server :=
  match s.folder.inode filename with
  | some _ =>
    { s with
      filesInStorage := s.filesInStorage.insert filename
      usedSpace := s.usedSpace + UInt64.ofNat (s.folder.size filename) }
  | none => s

/-- The server after it has gone through its folder, in the order the directory lists
it. -/
def generateFilesInStorage (maxAvailableSpace : UInt64) (folder : Folder Filename)
    (listing : List Filename) : Server :=
  listing.foldl indexEntry ⟨maxAvailableSpace, 0, .empty, folder⟩

/-- Nothing has changed from the server `s` to `s'`, with what is on the disk. -/
structure Unchanged (s s' : Server) : Prop where
  files : s'.filesInStorage = s.filesInStorage
  used : s'.usedSpace = s.usedSpace
  entries : s'.folder.entries = s.folder.entries
  content : ∀ g, s'.folder.content g = s.folder.content g

/-! ## What they do -/

/-- A reservation is made exactly when it fits, in exact arithmetic. -/
theorem checkAndReserveSpace_iff (size : UInt64) :
    (s.checkAndReserveSpace size).1 = true ↔
      s.usedSpace.toNat + size.toNat ≤ s.maxAvailableSpace.toNat := by
  unfold checkAndReserveSpace
  by_cases h : size ≤ s.maxAvailableSpace
  · have hsub := UInt64.toNat_sub_of_le _ _ h
    have hle := UInt64.le_iff_toNat_le.mp h
    simp only [UInt64.not_lt.mpr h, gt_iff_lt, false_or, UInt64.lt_iff_toNat_lt, hsub]
    split_ifs <;> simp <;> omega
  · have hlt := UInt64.lt_iff_toNat_lt.mp (UInt64.not_le.mp h)
    simp only [gt_iff_lt, UInt64.not_le.mp h, true_or, if_true]
    simp
    omega

theorem checkAndReserveSpace_of_false {size : UInt64}
    (h : (s.checkAndReserveSpace size).1 = false) : (s.checkAndReserveSpace size).2 = s := by
  unfold checkAndReserveSpace at h ⊢
  split_ifs at h ⊢
  rfl

theorem checkAndReserveSpace_of_true {size : UInt64}
    (h : (s.checkAndReserveSpace size).1 = true) :
    (s.checkAndReserveSpace size).2 = { s with usedSpace := s.usedSpace + size } := by
  unfold checkAndReserveSpace at h ⊢
  split_ifs at h ⊢
  rfl

/-- A reservation never wraps. -/
theorem usedSpace_checkAndReserveSpace {size : UInt64}
    (h : s.usedSpace.toNat + size.toNat ≤ s.maxAvailableSpace.toNat) :
    (s.usedSpace + size).toNat = s.usedSpace.toNat + size.toNat := by
  have := s.maxAvailableSpace.toNat_lt
  rw [UInt64.toNat_add]
  omega

/-- Giving space back does not wrap if no more is given back than is used. -/
theorem usedSpace_freeSpace {size : UInt64} (h : size.toNat ≤ s.usedSpace.toNat) :
    (s.freeSpace size).usedSpace.toNat = s.usedSpace.toNat - size.toNat :=
  UInt64.toNat_sub_of_le _ _ (UInt64.le_iff_toNat_le.mpr h)

theorem toNat_getAvailableSpace :
    s.getAvailableSpace.toNat = s.maxAvailableSpace.toNat - s.usedSpace.toNat := by
  unfold getAvailableSpace
  split_ifs with h
  · have := UInt64.lt_iff_toNat_lt.mp h
    rw [UInt64.toNat_zero]
    omega
  · exact UInt64.toNat_sub_of_le _ _ (UInt64.not_lt.mp h)

/-! ## The space that is announced -/

/-- A reservation and the announced space agree, but for an overfull server, which takes not
even an empty file. -/
structure SpaceAgrees (s : Server) (size : UInt64) : Prop where
  reserved_iff : (s.checkAndReserveSpace size).1 ↔
    s.usedSpace ≤ s.maxAvailableSpace ∧ size ≤ s.getAvailableSpace
  available : (s.checkAndReserveSpace size).1 →
    (s.checkAndReserveSpace size).2.getAvailableSpace.toNat + size.toNat =
      s.getAvailableSpace.toNat
  /-- The subtraction is made if the size is no larger than the maximum. -/
  sub_exact : ¬size > s.maxAvailableSpace →
    (s.maxAvailableSpace - size).toNat + size.toNat = s.maxAvailableSpace.toNat
  add_exact : (s.checkAndReserveSpace size).1 →
    (s.checkAndReserveSpace size).2.usedSpace.toNat = s.usedSpace.toNat + size.toNat
  available_exact : ¬s.usedSpace > s.maxAvailableSpace →
    s.getAvailableSpace.toNat + s.usedSpace.toNat = s.maxAvailableSpace.toNat
  refused : (s.checkAndReserveSpace size).1 = false → (s.checkAndReserveSpace size).2 = s
  restored : (s.checkAndReserveSpace size).1 →
    size ≤ (s.checkAndReserveSpace size).2.usedSpace ∧
      (s.checkAndReserveSpace size).2.freeSpace size = s

theorem le_getAvailableSpace_iff {size : UInt64} (h : s.usedSpace ≤ s.maxAvailableSpace) :
    size ≤ s.getAvailableSpace ↔
      s.usedSpace.toNat + size.toNat ≤ s.maxAvailableSpace.toNat := by
  rw [UInt64.le_iff_toNat_le, toNat_getAvailableSpace]
  have := UInt64.le_iff_toNat_le.mp h
  omega

/-- What a server announces it takes, and what it takes it has announced. -/
theorem spaceAgrees (size : UInt64) : SpaceAgrees s size where
  reserved_iff := by
    rw [checkAndReserveSpace_iff]
    constructor
    · intro hfits
      have hle : s.usedSpace ≤ s.maxAvailableSpace := UInt64.le_iff_toNat_le.mpr (by omega)
      exact ⟨hle, (s.le_getAvailableSpace_iff hle).mpr hfits⟩
    · rintro ⟨hle, hsize⟩
      exact (s.le_getAvailableSpace_iff hle).mp hsize
  available h := by
    have hfits := (s.checkAndReserveSpace_iff size).mp h
    have hadd := s.usedSpace_checkAndReserveSpace hfits
    rw [checkAndReserveSpace_of_true s h, toNat_getAvailableSpace, toNat_getAvailableSpace]
    dsimp only
    omega
  sub_exact h := by
    have hle := UInt64.not_lt.mp h
    have := UInt64.le_iff_toNat_le.mp hle
    rw [UInt64.toNat_sub_of_le _ _ hle]
    omega
  add_exact h := by
    rw [checkAndReserveSpace_of_true s h]
    exact s.usedSpace_checkAndReserveSpace ((s.checkAndReserveSpace_iff size).mp h)
  available_exact h := by
    have := UInt64.le_iff_toNat_le.mp (UInt64.not_lt.mp h)
    rw [toNat_getAvailableSpace]
    omega
  refused h := s.checkAndReserveSpace_of_false h
  restored h := by
    have hadd := s.usedSpace_checkAndReserveSpace ((s.checkAndReserveSpace_iff size).mp h)
    rw [checkAndReserveSpace_of_true s h]
    refine ⟨UInt64.le_iff_toNat_le.mpr (by dsimp only; omega), ?_⟩
    simp [freeSpace]

/-- An overfull server announces no space, which is enough for an empty file, and refuses it. -/
theorem overfull_not_agrees : ¬((checkAndReserveSpace ⟨10, 11, .empty, .empty⟩ 0).1 ↔
    0 ≤ getAvailableSpace ⟨10, 11, .empty, .empty⟩) := by
  decide

/-! ## The start -/

theorem folder_foldl_indexEntry (listing : List Filename) :
    (listing.foldl indexEntry s).folder = s.folder := by
  induction listing generalizing s with
  | nil => rfl
  | cons f listing ih =>
    rw [List.foldl_cons, ih]
    unfold indexEntry
    split <;> rfl

theorem maxAvailableSpace_foldl_indexEntry (listing : List Filename) :
    (listing.foldl indexEntry s).maxAvailableSpace = s.maxAvailableSpace := by
  induction listing generalizing s with
  | nil => rfl
  | cons f listing ih =>
    rw [List.foldl_cons, ih]
    unfold indexEntry
    split <;> rfl

theorem mem_foldl_indexEntry {f : Filename} (listing : List Filename) :
    f ∈ (listing.foldl indexEntry s).filesInStorage ↔
      f ∈ s.filesInStorage ∨ f ∈ listing ∧ s.folder.inode f ≠ none := by
  induction listing generalizing s with
  | nil => simp
  | cons g listing ih =>
    have hfolder : (s.indexEntry g).folder = s.folder := folder_foldl_indexEntry s [g]
    rw [List.foldl_cons, ih, hfolder, List.mem_cons]
    cases hg : s.folder.inode g with
    | none =>
      have hne : s.folder.inode f ≠ none → f ≠ g := fun h he => h (he ▸ hg)
      simp only [indexEntry, hg]
      tauto
    | some ino =>
      have hne : f = g → s.folder.inode f ≠ none := fun he => by simp [he, hg]
      simp only [indexEntry, hg, SortedSet.mem_insert]
      tauto

/-- What the counter holds after the folder has been gone through : the sizes of the
indexed files, in 64 bits. -/
theorem usedSpace_foldl_indexEntry (listing : List Filename) (hnd : listing.Nodup)
    (hnew : ∀ f ∈ listing, f ∉ s.filesInStorage)
    (hs : s.usedSpace = UInt64.ofNat (∑ f ∈ s.filesInStorage.toFinset, s.folder.size f)) :
    (listing.foldl indexEntry s).usedSpace =
      UInt64.ofNat (∑ f ∈ (listing.foldl indexEntry s).filesInStorage.toFinset,
        s.folder.size f) := by
  induction listing generalizing s with
  | nil => exact hs
  | cons g listing ih =>
    obtain ⟨hg, hnd⟩ := List.nodup_cons.mp hnd
    have hfolder : (s.indexEntry g).folder = s.folder := folder_foldl_indexEntry s [g]
    have hgs : g ∉ s.filesInStorage := hnew g (List.mem_cons_self ..)
    rw [List.foldl_cons, ← hfolder]
    refine ih (s.indexEntry g) hnd (fun f hf => ?_) ?_
    · have hfs := hnew f (List.mem_cons_of_mem _ hf)
      have hfg : f ≠ g := fun he => hg (he ▸ hf)
      unfold indexEntry
      split <;> simp [hfs, hfg]
    · rw [hfolder]
      unfold indexEntry
      split
      · have hset : (s.filesInStorage.insert g).toFinset = insert g s.filesInStorage.toFinset := by
          ext f
          simp
        rw [hset, Finset.sum_insert (by simpa using hgs), hs, Nat.add_comm, UInt64.ofNat_add]
      · exact hs

section Start

variable (maxAvailableSpace : UInt64) (folder : Folder Filename) (listing : List Filename)

@[simp] theorem folder_generateFilesInStorage :
    (generateFilesInStorage maxAvailableSpace folder listing).folder = folder :=
  folder_foldl_indexEntry _ _

@[simp] theorem maxAvailableSpace_generateFilesInStorage :
    (generateFilesInStorage maxAvailableSpace folder listing).maxAvailableSpace =
      maxAvailableSpace :=
  maxAvailableSpace_foldl_indexEntry _ _

/-- The index is the regular files that the directory lists. -/
theorem mem_generateFilesInStorage {f : Filename} :
    f ∈ (generateFilesInStorage maxAvailableSpace folder listing).filesInStorage ↔
      f ∈ listing ∧ folder.inode f ≠ none := by
  rw [generateFilesInStorage, mem_foldl_indexEntry]
  simp

/-- The counter is the sizes of the indexed files, if they are below `2 ^ 64`. -/
theorem usedSpace_generateFilesInStorage (hnd : listing.Nodup)
    (hlt : ∑ f ∈ (generateFilesInStorage maxAvailableSpace folder listing).filesInStorage.toFinset,
      folder.size f < 2 ^ 64) :
    (generateFilesInStorage maxAvailableSpace folder listing).usedSpace.toNat =
      ∑ f ∈ (generateFilesInStorage maxAvailableSpace folder listing).filesInStorage.toFinset,
        folder.size f := by
  have h := usedSpace_foldl_indexEntry ⟨maxAvailableSpace, 0, .empty, folder⟩ listing hnd
    (by simp) (by rfl)
  rw [generateFilesInStorage] at hlt ⊢
  rw [h]
  exact UInt64.toNat_ofNat_of_lt' hlt

end Start

end Server

end Netstore
