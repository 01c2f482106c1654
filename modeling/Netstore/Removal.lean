import Netstore.World

/-!
# A removal on its own

`handle_remove_request` takes the name out of the index, frees the size of its file and
removes the file, in this order, with one `catch` for what the last two throw. Nothing is
put back, so a removal of an indexed name happens entirely exactly if its calls succeed
and the size on the disk is what the counter includes for the name
(`allOrNothing_iff`); it never leaves the server as it was.
-/

namespace Netstore

/-- A file system call of a removal throws. -/
def RemovalCall.throws : RemovalCall → Bool
  | fileSize ok | removeFile ok => !ok
  | freeSpace => false

namespace Server

variable (s s' : Server) (f : Filename)

/-- The other names are in the index and on the disk as they were. -/
structure SameBut : Prop where
  files : ∀ g ≠ f, g ∈ s'.filesInStorage ↔ g ∈ s.filesInStorage
  entries : ∀ g ≠ f, s'.folder.entries g = s.folder.entries g
  content : ∀ g ≠ f, s'.folder.content g = s.folder.content g

/-- The name is out of the index, the file is gone, and the counter is less by the `n` bytes
that it includes for the name. -/
structure Removed (n : UInt64) : Prop where
  files : f ∉ s'.filesInStorage
  entries : s'.folder.entries f = none
  used : n ≤ s.usedSpace ∧ s'.usedSpace = s.usedSpace - n
  others : SameBut s s' f

/-- A removal of a name of which the counter includes `n` bytes happens entirely or not at
all. -/
def AllOrNothing (n : UInt64) : Prop :=
  if f ∈ s.filesInStorage then Removed s s' f n ∨ Unchanged s s' else Unchanged s s'

/-- What the calls of a removal leave of the server that has erased the name. -/
inductive Ending (s : Server) (f : Filename) : List RemovalCall → Server → Prop
  | notMeasured : Ending s f [.fileSize false] s
  | notRemoved {bs} (content : s.folder.content f = some bs) :
      Ending s f [.fileSize true, .freeSpace, .removeFile false]
        (s.freeSpace (UInt64.ofNat bs.length))
  | removed {bs folder} (content : s.folder.content f = some bs)
      (remove : s.folder.remove f = some folder) :
      Ending s f [.fileSize true, .freeSpace, .removeFile true]
        { s.freeSpace (UInt64.ofNat bs.length) with folder := folder }

variable {s s' f} {calls : List RemovalCall} {n : UInt64}

/-- A removal of an indexed name happens entirely or not at all exactly if nothing is there
under the name and nothing counted, or no call throws and the size is what is counted. -/
theorem allOrNothing_of_ending (hf : f ∈ s.filesInStorage)
    (h : Ending { s with filesInStorage := s.filesInStorage.erase f } f calls s') :
    AllOrNothing s s' f n ↔ (s.folder.entries f = none ∧ n = 0) ∨
      ((∀ c ∈ calls, c.throws = false) ∧ UInt64.ofNat (s.folder.size f) = n ∧
        n ≤ s.usedSpace) := by
  have hout : f ∉ s.filesInStorage.erase f := by simp
  have hothers : ∀ g ≠ f, g ∈ s.filesInStorage.erase f ↔ g ∈ s.filesInStorage := fun g hg => by
    simp [hg]
  have hchanged : ∀ {s'}, s'.filesInStorage = s.filesInStorage.erase f →
      (AllOrNothing s s' f n ↔ Removed s s' f n) := by
    intro s' hfiles
    rw [AllOrNothing, if_pos hf]
    refine or_iff_left fun h => hout ?_
    rwa [← hfiles, h.files]
  have hentry : ∀ {bs}, s.folder.content f = some bs → s.folder.entries f ≠ none := by
    intro bs hbs he
    simp [Folder.content, Folder.inode, he] at hbs
  cases h with
  | notMeasured =>
    rw [hchanged rfl]
    constructor
    · rintro ⟨-, he, ⟨-, hused⟩, -⟩
      exact Or.inl ⟨he, sub_eq_self.mp hused.symm⟩
    · rintro (⟨he, rfl⟩ | ⟨hc, -⟩)
      · exact ⟨hout, he, by simp, hothers, fun _ _ => rfl, fun _ _ => rfl⟩
      · cases hc (.fileSize false) (by simp)
  | notRemoved content =>
    rw [hchanged rfl]
    have he := hentry content
    constructor
    · exact fun h => (he h.entries).elim
    · rintro (h | ⟨hc, -⟩)
      · exact (he h.1).elim
      · cases hc (.removeFile false) (by simp)
  | @removed bs folder content remove =>
    rw [hchanged rfl]
    have he := hentry content
    have hsize : s.folder.size f = bs.length := by rw [Folder.size, content]; rfl
    have hfolder : folder = s.folder.unlink f :=
      (s.folder.remove_eq_unlink remove).resolve_left fun h => he h.2
    have hcalls : ∀ c ∈ [RemovalCall.fileSize true, .freeSpace, .removeFile true],
        c.throws = false := by decide
    rw [hsize]
    constructor
    · rintro ⟨-, -, ⟨hle, hused⟩, -⟩
      exact Or.inr ⟨hcalls, sub_right_inj.mp hused, hle⟩
    · rintro (h | ⟨-, rfl, hle⟩)
      · exact (he h.1).elim
      · refine ⟨hout, ?_, ⟨hle, rfl⟩, hothers, fun g hg => ?_,
          fun g hg => (Folder.changesOnly_remove remove).content hg⟩
        · rw [hfolder]
          exact Function.update_self ..
        · rw [hfolder]
          exact Function.update_of_ne hg ..

end Server

namespace World

open Transition

variable {w w' : World} {f : Filename} {calls : List RemovalCall}

/-- A call of a removal is made by the removal the loop is in. -/
theorem step_remove {c : RemovalCall} (h : w.step (.remove c) = some w') :
    ∃ g pc, w.loop = .removing g pc ∧ w.removeNext g pc c = some w' := by
  unfold step at h
  rw [ite_eq_iff] at h
  obtain ⟨-, h⟩ := h.resolve_left (by simp)
  dsimp only at h
  split at h
  · exact ⟨_, _, by assumption, h⟩
  · cases h

/-- The first call of the rest of a removal. -/
theorem run_remove {pc : RemovalPc} (hloop : w.loop = .removing f pc)
    (hr : run w (calls.map .remove) = some w') (hend : w'.loop = .idle) :
    ∃ c cs w₁, calls = c :: cs ∧ w.removeNext f pc c = some w₁ ∧
      run w₁ (cs.map .remove) = some w' := by
  cases calls with
  | nil =>
    obtain rfl : w = w' := by simpa using hr
    simp [hloop] at hend
  | cons c cs =>
    obtain ⟨w₁, h₁, hr⟩ := Option.bind_eq_some_iff.mp hr
    obtain ⟨g, pc', hg, hn⟩ := step_remove h₁
    obtain ⟨rfl, rfl⟩ := Loop.removing.inj (hloop.symm.trans hg)
    exact ⟨c, cs, w₁, rfl, hn, hr⟩

/-- An idle loop makes no call of a removal. -/
theorem run_remove_of_idle (hidle : w.loop = .idle)
    (hr : run w (calls.map .remove) = some w') : calls = [] ∧ w' = w := by
  cases calls with
  | nil => exact ⟨rfl, by simpa using hr.symm⟩
  | cons c calls =>
    obtain ⟨w₁, h₁, -⟩ := Option.bind_eq_some_iff.mp hr
    obtain ⟨g, pc, hloop, -⟩ := step_remove h₁
    simp [hidle] at hloop

/-- The calls of a removal that has come to its end, and what they leave. -/
theorem ending_of_run (hloop : w.loop = .removing f .erased)
    (hr : run w (calls.map .remove) = some w') (hend : w'.loop = .idle) :
    Server.Ending w.server f calls w'.server := by
  obtain ⟨c, cs, w₁, rfl, hn, hr⟩ := run_remove hloop hr hend
  cases c with
  | freeSpace | removeFile => cases hn
  | fileSize ok =>
    cases ok with
    | false =>
      cases hn
      obtain ⟨rfl, rfl⟩ := run_remove_of_idle rfl hr
      exact .notMeasured
    | true =>
      obtain ⟨bs, hbs, rfl⟩ := Option.map_eq_some_iff.mp hn
      obtain ⟨c, cs, w₂, rfl, hn, hr⟩ := run_remove rfl hr hend
      cases c with
      | fileSize | removeFile => cases hn
      | freeSpace =>
        cases hn
        obtain ⟨c, cs, w₃, rfl, hn, hr⟩ := run_remove rfl hr hend
        cases c with
        | fileSize | freeSpace => cases hn
        | removeFile ok =>
          cases ok with
          | false =>
            cases hn
            obtain ⟨rfl, rfl⟩ := run_remove_of_idle rfl hr
            exact .notRemoved hbs
          | true =>
            obtain ⟨folder, hremove, rfl⟩ := Option.map_eq_some_iff.mp hn
            obtain ⟨rfl, rfl⟩ := run_remove_of_idle rfl hr
            exact .removed hbs hremove

/-- A removal that the loop has received and handled to its end, alone, happens entirely or
not at all exactly if the name is not in the index, or nothing is there under it and nothing
counted, or no call throws and the size on the disk is what is counted. -/
theorem allOrNothing_iff {d : Datagram} (n : UInt64)
    (hd : Netstore.receive d.payload = .ok (some (.remove f)))
    (hr : run w (.receive d :: calls.map .remove) = some w') (hend : w'.loop = .idle) :
    Server.AllOrNothing w.server w'.server f n ↔ f ∉ w.server.filesInStorage ∨
      (w.server.folder.entries f = none ∧ n = 0) ∨
      ((∀ c ∈ calls, c.throws = false) ∧ UInt64.ofNat (w.server.folder.size f) = n ∧
        n ≤ w.server.usedSpace) := by
  obtain ⟨w₁, h₁, hr⟩ := Option.bind_eq_some_iff.mp hr
  obtain ⟨hidle, rfl⟩ := step_receive hd h₁
  by_cases hf : f ∈ w.server.filesInStorage
  · rw [start_remove_of_mem _ hf] at hr
    rw [Server.allOrNothing_of_ending hf (ending_of_run rfl hr hend)]
    exact (or_iff_right (not_not.mpr hf)).symm
  · rw [start_remove_of_not_mem _ hidle hf] at hr
    obtain ⟨-, rfl⟩ := run_remove_of_idle hidle hr
    rw [Server.AllOrNothing, if_neg hf]
    exact ⟨fun _ => Or.inl hf, fun _ => ⟨rfl, rfl, rfl, fun _ => rfl⟩⟩

/-- A server that has stored four bytes as `a`. -/
def oneFile : World :=
  initial (Server.generateFilesInStorage 10 ((Folder.empty.create [97]).setContents 0 [1, 2, 3, 4])
    [[97]])

/-- The removal of `a`, of which the last call succeeds or throws. -/
def removeOneFile (ok : Bool) : List Action :=
  .receive (simpleDatagram ⟨1, 1⟩ 1 fileRemoveRequest [97]) ::
    [RemovalCall.fileSize true, .freeSpace, .removeFile ok].map .remove

theorem oneFile_allOrNothing : ∃ w', run oneFile (removeOneFile true) = some w' ∧
    Server.AllOrNothing oneFile.server w'.server [97] 4 := by
  obtain ⟨w', hr, hidle⟩ : ∃ w', run oneFile (removeOneFile true) = some w' ∧
      decide (w'.loop = .idle) := exists_run_of_any _ (by decide)
  exact ⟨w', hr, (allOrNothing_iff 4 rfl hr (of_decide_eq_true hidle)).mpr (by decide)⟩

/-- The file cannot be removed : its name and its four bytes are taken off the index and the
counter, and it stays. -/
theorem oneFile_not_allOrNothing : ∃ w', run oneFile (removeOneFile false) = some w' ∧
    w'.loop = .idle ∧ ¬Server.AllOrNothing oneFile.server w'.server [97] 4 := by
  obtain ⟨w', hr, hw⟩ : ∃ w', run oneFile (removeOneFile false) = some w' ∧
      decide (w'.loop = .idle ∧ [97] ∉ w'.server.filesInStorage ∧
        w'.server.folder.entries [97] ≠ none) := exists_run_of_any _ (by decide)
  obtain ⟨hidle, hmem, hentry⟩ := of_decide_eq_true hw
  have hfile : [97] ∈ oneFile.server.filesInStorage := by decide
  refine ⟨w', hr, hidle, fun h => ?_⟩
  rw [Server.AllOrNothing, if_pos hfile] at h
  rcases h with h | h
  · exact hentry h.entries
  · exact hmem (h.files ▸ hfile)

end World

end Netstore
