import Netstore.Bytes
import Mathlib.Logic.Function.Basic

/-!
# A folder of files

Names lead to entries and the entry of a regular file to its inode, which holds the
bytes. A file that is open keeps its inode when its name is removed or given to
another file, so two writers of one name may write one inode or two.

A symbolic link is followed by all calls but the removal, so one that leads to a file
is a name of this file, and what it shows of itself is that it may lead nowhere. Links
are taken to lead out of the folder : a link to another name of it is not an entry here.

A name that is created gets an inode no entry leads to. That inodes in use are below
the next one is a field of `Folder`, so it need not be carried by the invariants of
the programs that use it.
-/

set_option linter.unusedSectionVars false

namespace Netstore

/-- What a name leads to. -/
inductive Entry where
  /-- A regular file with its inode, or a symbolic link to one. -/
  | regular (ino : ℕ)
  /-- A directory, and whether it is empty. -/
  | directory (isEmpty : Bool)
  /-- A socket, a pipe or a device, or a symbolic link to one or to a directory. -/
  | other
  /-- A symbolic link to a file that is not there. -/
  | danglingLink
  deriving DecidableEq

/-- A folder : its entries by name and the bytes of every inode. -/
structure Folder (Name : Type*) where
  entries : Name → Option Entry
  contents : ℕ → Bytes
  /-- The inode of the next file that is created. -/
  next : ℕ
  fresh : ∀ {f ino}, entries f = some (.regular ino) → ino < next

namespace Folder

variable {Name : Type*} [DecidableEq Name] (d : Folder Name) {f g : Name} {ino : ℕ} {bs : Bytes}

/-- The folder with no entries. -/
def empty : Folder Name :=
  ⟨fun _ => none, fun _ => [], 0, by simp⟩

/-- The inode of a regular file. -/
def inode (f : Name) : Option ℕ :=
  match d.entries f with
  | some (.regular ino) => some ino
  | _ => none

/-- The bytes of a regular file. -/
def content (f : Name) : Option Bytes :=
  (d.inode f).map d.contents

/-- The size of a regular file, and zero for any other name. -/
def size (f : Name) : ℕ :=
  ((d.content f).getD []).length

theorem inode_eq_some_iff : d.inode f = some ino ↔ d.entries f = some (.regular ino) := by
  unfold inode
  split <;> simp_all

/-- An empty regular file under the name, with a new inode. -/
def create (f : Name) : Folder Name where
  entries := Function.update d.entries f (some (.regular d.next))
  contents := Function.update d.contents d.next []
  next := d.next + 1
  fresh {g ino} h := by
    rw [Function.update_apply] at h
    split_ifs at h with hg
    · simp only [Option.some.injEq, Entry.regular.injEq] at h
      omega
    · exact Nat.lt_succ_of_lt (d.fresh h)

/-- New bytes for an inode. -/
def setContents (ino : ℕ) (bs : Bytes) : Folder Name :=
  { d with contents := Function.update d.contents ino bs }

/-- The folder without the name. -/
def unlink (f : Name) : Folder Name where
  entries := Function.update d.entries f none
  contents := d.contents
  next := d.next
  fresh {g ino} h := by
    rw [Function.update_apply] at h
    split_ifs at h
    exact d.fresh h

/-- A new file has the next inode, other names have what they had. -/
@[simp] theorem inode_create : (d.create f).inode g = if g = f then some d.next else d.inode g := by
  unfold inode create
  by_cases h : g = f <;> simp [h]

@[simp] theorem inode_setContents : (d.setContents ino bs).inode g = d.inode g :=
  rfl

/-- Unlinking takes one name away. -/
@[simp] theorem inode_unlink : (d.unlink f).inode g = if g = f then none else d.inode g := by
  unfold inode unlink
  by_cases h : g = f <;> simp [h]

/-- Every inode in use is below the next. -/
theorem inode_lt (h : d.inode f = some ino) : ino < d.next :=
  d.fresh (d.inode_eq_some_iff.mp h)

@[simp] theorem content_create :
    (d.create f).content g = if g = f then some [] else d.content g := by
  unfold content
  rw [inode_create]
  split_ifs with h
  · simp [create]
  · cases hi : d.inode g with
    | none => rfl
    | some ino => simp [create, (d.inode_lt hi).ne]

/-- What is written to an inode is the content of its name. -/
theorem content_setContents_of_inode (h : d.inode f = some ino) :
    (d.setContents ino bs).content f = some bs := by
  rw [content, inode_setContents, h]
  simp [setContents]

/-- Other files keep their bytes. -/
theorem content_setContents_of_ne (h : d.inode f ≠ some ino) :
    (d.setContents ino bs).content f = d.content f := by
  unfold content
  rw [inode_setContents]
  cases hi : d.inode f with
  | none => rfl
  | some j =>
    have hj : j ≠ ino := fun he => h (he ▸ hi)
    simp [setContents, hj]

/-- Unlinking takes the content of one name away. -/
@[simp] theorem content_unlink :
    (d.unlink f).content g = if g = f then none else d.content g := by
  unfold content
  rw [inode_unlink]
  split_ifs <;> rfl

theorem content_eq_none_iff : d.content f = none ↔ d.inode f = none := by
  simp [content]

/-! ## System calls -/

/-- Open for writing, truncating : a new file where there is none, an emptied one
where there is a regular file. Directories and special files are refused. A link that
leads nowhere leads to the new file. -/
def openTruncate (f : Name) : Option (ℕ × Folder Name) :=
  match d.entries f with
  | none => some (d.next, d.create f)
  | some (.regular ino) => some (ino, d.setContents ino [])
  | some (.directory _) | some .other => none
  | some .danglingLink => some (d.next, d.create f)

/-- Write at an offset of an open file. -/
def write (ino off : ℕ) (bs : Bytes) : Folder Name :=
  d.setContents ino ((d.contents ino).overwrite off bs)

/-- Remove a name, or a link and not what it leads to. A name that is not there is no
error, a directory that is not empty is. -/
def remove (f : Name) : Option (Folder Name) :=
  match d.entries f with
  | none => some d
  | some (.directory false) => none
  | some _ => some (d.unlink f)

/-- Whether the name leads to anything. A link that leads nowhere does not. -/
def exists? (f : Name) : Bool :=
  match d.entries f with
  | none | some .danglingLink => false
  | some _ => true

theorem inode_of_not_exists (h : d.exists? f = false) : d.inode f = none := by
  unfold exists? at h
  unfold inode
  split at h <;> simp_all

/-- A regular file exists. -/
theorem exists?_of_inode (h : d.inode f = some ino) : d.exists? f := by
  rw [← Bool.not_eq_false]
  intro hno
  cases h.symm.trans (d.inode_of_not_exists hno)

/-- The name does not exist if nothing is there, or a link to nothing. -/
theorem not_exists_iff :
    d.exists? f = false ↔ d.entries f = none ∨ d.entries f = some .danglingLink := by
  unfold exists?
  split <;> simp_all

/-- The name can be opened for writing. -/
def openable (f : Name) : Bool :=
  (d.openTruncate f).isSome

/-- A file can be opened where nothing exists or a regular file does. -/
theorem openable_iff : d.openable f ↔ d.exists? f = false ∨ d.inode f ≠ none := by
  unfold openable openTruncate exists? inode
  split <;> simp_all

theorem openable_setContents (hg : d.openable g) : (d.setContents ino bs).openable g := by
  rw [openable_iff] at hg ⊢
  exact hg

theorem exists?_create : (d.create f).exists? g = if g = f then true else d.exists? g := by
  unfold exists? create
  by_cases h : g = f <;> simp [h]

theorem exists?_unlink : (d.unlink f).exists? g = if g = f then false else d.exists? g := by
  unfold exists? unlink
  by_cases h : g = f <;> simp [h]

/-- A file that is opened is a new one or was there. -/
theorem openTruncate_eq {d' : Folder Name} (h : d.openTruncate f = some (ino, d')) :
    d.exists? f = false ∧ ino = d.next ∧ d' = d.create f ∨
      d.inode f = some ino ∧ d' = d.setContents ino [] := by
  unfold openTruncate at h
  unfold exists? inode
  split at h <;> rename_i he <;> cases h <;> rw [he]
  · exact Or.inl ⟨rfl, rfl, rfl⟩
  · exact Or.inr ⟨rfl, rfl⟩
  · exact Or.inl ⟨rfl, rfl, rfl⟩

/-- A file that is opened is empty. -/
theorem inode_openTruncate {d' : Folder Name} (h : d.openTruncate f = some (ino, d')) :
    d'.inode f = some ino ∧ d'.contents ino = [] := by
  rcases d.openTruncate_eq h with ⟨-, rfl, rfl⟩ | ⟨hi, rfl⟩
  · exact ⟨by rw [d.inode_create, if_pos rfl], Function.update_self ..⟩
  · exact ⟨hi, Function.update_self ..⟩

theorem openable_openTruncate {d' : Folder Name} (hg : d.openable g)
    (h : d.openTruncate f = some (ino, d')) : d'.openable g := by
  rw [openable_iff] at hg ⊢
  rcases d.openTruncate_eq h with ⟨-, -, rfl⟩ | ⟨-, rfl⟩
  · rw [exists?_create, inode_create]
    split_ifs
    · exact Or.inr (by simp)
    · exact hg
  · exact hg

theorem openable_remove {d' : Folder Name} (hg : d.openable g) (h : d.remove f = some d') :
    d'.openable g := by
  rw [openable_iff] at hg ⊢
  unfold remove at h
  split at h <;> cases h
  · exact hg
  · rw [exists?_unlink, inode_unlink]
    split_ifs
    · exact Or.inl rfl
    · exact hg

/-- An open where there is no regular file makes a new one. -/
theorem openTruncate_of_inode_none {ino : ℕ} {d' : Folder Name} (hf : d.inode f = none)
    (h : d.openTruncate f = some (ino, d')) : ino = d.next ∧ d' = d.create f := by
  refine (d.openTruncate_eq h).elim And.right fun hi => ?_
  rw [hf] at hi
  cases hi.1

/-- A removal that succeeds unlinks the name, or finds nothing there. -/
theorem remove_eq_unlink {d' : Folder Name} (h : d.remove f = some d') :
    d' = d ∧ d.entries f = none ∨ d' = d.unlink f := by
  unfold remove at h
  split at h
  · exact Or.inl ⟨(Option.some.inj h).symm, by assumption⟩
  · cases h
  · exact Or.inr (Option.some.inj h).symm

/-- After a removal that succeeds nothing is left under the name. -/
theorem entries_remove {d' : Folder Name} (h : d.remove f = some d') : d'.entries f = none := by
  rcases d.remove_eq_unlink h with ⟨rfl, he⟩ | rfl
  · exact he
  · exact Function.update_self ..

/-- After a removal that succeeds the name is gone. -/
theorem inode_remove {d' : Folder Name} (h : d.remove f = some d') :
    d'.inode g = if g = f then none else d.inode g := by
  rcases d.remove_eq_unlink h with ⟨rfl, he⟩ | rfl
  · split_ifs with hg
    · simp [inode, hg, he]
    · rfl
  · exact d.inode_unlink

theorem content_remove {d' : Folder Name} (h : d.remove f = some d') :
    d'.content g = if g = f then none else d.content g := by
  rcases d.remove_eq_unlink h with ⟨rfl, he⟩ | rfl
  · split_ifs with hg
    · simp [content, inode, hg, he]
    · rfl
  · exact d.content_unlink

/-- A removal leaves the bytes of every inode. -/
theorem contents_remove {d' : Folder Name} (h : d.remove f = some d') :
    d'.contents = d.contents ∧ d'.next = d.next := by
  rcases d.remove_eq_unlink h with ⟨rfl, -⟩ | rfl <;> exact ⟨rfl, rfl⟩

theorem contents_setContents_of_ne {i : ℕ} (h : i ≠ ino) :
    (d.setContents ino bs).contents i = d.contents i :=
  Function.update_of_ne h _ _

theorem contents_create_of_lt {i : ℕ} (h : i < d.next) : (d.create f).contents i = d.contents i :=
  Function.update_of_ne h.ne _ _

/-! ## Frames -/

/-- The name is the only one that leads to the inode. -/
def Sole (f : Name) (ino : ℕ) : Prop :=
  d.inode f = some ino ∧ ∀ g, d.inode g = some ino → g = f

/-- From `d` to `d'` every other name keeps its inode and its bytes, and the name gets
no inode that was in use. -/
structure ChangesOnly (d d' : Folder Name) (f : Name) : Prop where
  inode : ∀ {g}, g ≠ f → d'.inode g = d.inode g
  content : ∀ {g}, g ≠ f → d'.content g = d.content g
  own : ∀ {ino}, d'.inode f = some ino → d.inode f = some ino ∨ ino = d.next

variable {d} {d' : Folder Name}

/-- A new file changes only its own name. -/
theorem changesOnly_create (f : Name) : ChangesOnly d (d.create f) f where
  inode hg := by simp [hg]
  content hg := by simp [hg]
  own h := by simpa [eq_comm] using Or.inr h

theorem sole_create (f : Name) : (d.create f).Sole f d.next := by
  refine ⟨by simp, fun g hg => ?_⟩
  rw [inode_create] at hg
  split_ifs at hg with h
  · exact h
  · exact absurd (d.inode_lt hg) (lt_irrefl _)

/-- A removal changes only its own name. -/
theorem changesOnly_remove (h : d.remove f = some d') : ChangesOnly d d' f where
  inode hg := by rw [d.inode_remove h, if_neg hg]
  content hg := by rw [d.content_remove h, if_neg hg]
  own hi := by simp [d.inode_remove h] at hi

/-- A write to an inode with one name changes only that name. -/
theorem Sole.changesOnly_setContents (h : d.Sole f ino) :
    ChangesOnly d (d.setContents ino bs) f where
  inode _ := rfl
  content hg := d.content_setContents_of_ne fun hi => hg (h.2 _ hi)
  own := Or.inl

/-- What changes under another name leaves the inode to its name. -/
theorem Sole.of_changesOnly (h : d.Sole g ino) (hc : ChangesOnly d d' f) (hg : g ≠ f) :
    d'.Sole g ino := by
  refine ⟨(hc.inode hg).trans h.1, fun k hk => ?_⟩
  by_cases hkf : k = f
  · subst hkf
    rcases hc.own hk with hi | hi
    · exact h.2 _ hi
    · exact absurd (d.inode_lt h.1) (by omega)
  · exact h.2 _ ((hc.inode hkf).symm.trans hk)

/-- No two names lead to one inode. -/
def Unlinked (d : Folder Name) : Prop :=
  ∀ f g ino, d.inode f = some ino → d.inode g = some ino → f = g

theorem unlinked_empty : (empty : Folder Name).Unlinked :=
  fun _ _ _ h => by cases h

/-- In a folder without hard links each inode has one name. -/
theorem Unlinked.sole (h : d.Unlinked) (hf : d.inode f = some ino) : d.Sole f ino :=
  ⟨hf, fun g hg => h g f ino hg hf⟩

/-- A change to one name makes no hard link. -/
theorem Unlinked.of_changesOnly (h : d.Unlinked) (hc : ChangesOnly d d' f) : d'.Unlinked := by
  have hother : ∀ g ino, d'.inode f = some ino → d'.inode g = some ino → g = f := by
    intro g ino hf hg
    by_contra hne
    rw [hc.inode hne] at hg
    rcases hc.own hf with hf | rfl
    · exact hne (h g f ino hg hf)
    · exact absurd (d.inode_lt hg) (lt_irrefl _)
  intro g k ino hg hk
  by_cases hgf : g = f
  · subst hgf
    exact (hother k ino hg hk).symm
  · by_cases hkf : k = f
    · subst hkf
      exact hother g ino hk hg
    · exact h g k ino (hc.inode hgf ▸ hg) (hc.inode hkf ▸ hk)

/-- Opening a file changes no other, and names that lead to a file still do. -/
theorem Unlinked.openTruncate (h : d.Unlinked) (ho : d.openTruncate f = some (ino, d')) :
    ChangesOnly d d' f ∧ d'.inode f = some ino ∧
      ∀ {i}, d.inode f = some i → d'.inode f = some i := by
  have hi := (d.inode_openTruncate ho).1
  rcases d.openTruncate_eq ho with ⟨hf, rfl, rfl⟩ | ⟨hf, rfl⟩
  · refine ⟨changesOnly_create f, hi, fun hi => ?_⟩
    rw [d.inode_of_not_exists hf] at hi
    cases hi
  · exact ⟨(h.sole hf).changesOnly_setContents, hi, id⟩

end Folder

end Netstore
