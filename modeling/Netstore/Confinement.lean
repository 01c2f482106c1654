import Netstore.World
import Netstore.Path

/-!
# Confinement to the shared folder

The path of a file is the shared folder with the name appended. An upload takes any
name that is not empty and has no slash; a download and a removal take what is in the
index. So the paths that are opened, measured and removed are entries directly inside
the folder as long as no name in the index is `.` or `..`, and nothing tests for these
two. `confined_iff` : a run keeps the server confined exactly if no upload of one of
them comes to `add_file_to_storage`.
-/

namespace Netstore

open Netstore.Path

namespace World

open Transition

/-- Every name in the index is one, and every path that a step gives to the file system
is an entry directly inside the shared folder. -/
def Confined (cwd : List Bytes) (sharedFolder : Bytes) (w : World) : Prop :=
  (∀ f ∈ w.server.filesInStorage, IsName f) ∧
    ∀ a w' f ok, w.step a = some w' → w.fileCall a = some (f, ok) →
      ∃ name, resolve cwd (sharedFolder ++ slash :: f) =
        resolve cwd (sharedFolder ++ [slash]) ++ [name]

/-- The step adds no `.` and no `..` to the index. -/
def NoDots (w : World) : Action → Prop
  | .upload i .addFileToStorage =>
    ∀ u ∈ w.uploads[i]?, u.filename ≠ dot ∧ u.filename ≠ dotDot
  | _ => True

instance (w : World) (a : Action) : Decidable (NoDots w a) := by
  unfold NoDots
  split <;> infer_instance

end World

/-- What is known of the name of an upload, where it stands. -/
def Upload.Named (u : Upload) : Prop :=
  (u.pc = .reserved → acceptableName u.filename) ∧ (u.pc.owns → IsName u.filename)

/-- A call that adds no `.` and no `..` keeps what is known. -/
theorem Upload.Named.next {s s' : Server} {u : Upload} {c : UploadCall} {pc : UploadPc}
    (h : u.Named) (hn : u.next s c = some (s', pc))
    (hdots : c = .addFileToStorage → u.filename ≠ dot ∧ u.filename ≠ dotDot) :
    Upload.Named { u with pc := pc } := by
  have hreserved : pc = .reserved → acceptableName u.filename := Upload.acceptableName_of_next hn
  refine ⟨hreserved, fun ho => ?_⟩
  cases Upload.next_indexEffect hn with
  | stay files owns => exact h.2 (owns ▸ ho)
  | insert fresh before after eq =>
    obtain ⟨hne, hslash⟩ := acceptableName_iff.mp (h.1 before)
    exact ⟨hne, hslash, hdots (addFileToStorage_of_reserved hn before)⟩
  | erase before owned after eq =>
    rw [after] at ho
    cases ho
  | keep bs files owned after =>
    rw [after] at ho
    cases ho

theorem Upload.owns_of_path {s s' : Server} {u : Upload} {c : UploadCall} {pc : UploadPc}
    {ok : Bool} (hn : u.next s c = some (s', pc))
    (hc : c = .openFile ok ∨ c = .fileExists ok ∨ c = .removeFile ok) : u.pc.owns := by
  rcases hc with rfl | rfl | rfl <;> cases next_cases hn <;> simp [*, UploadPc.owns]

namespace World

open Transition

/-- What keeps the server confined. -/
structure Named (w : World) : Prop where
  index : ∀ f ∈ w.server.filesInStorage, IsName f
  uploads : ∀ u ∈ w.uploads, u.Named
  downloads : ∀ u ∈ w.downloads, IsName u.filename
  target : ∀ f, w.loop.target = some f → IsName f

variable {w w' : World} {a : Action} {as : List Action} {cwd : List Bytes} {sharedFolder : Bytes}

theorem Named.step (h : Named w) (ha : NoDots w a) (hs : w.step a = some w') : Named w' := by
  have hdown : ∀ v ∈ w'.downloads, IsName v.filename := by
    intro v hv
    rcases mem_downloads_step hs hv with ⟨u, hu, he⟩ | hf
    · exact he ▸ h.downloads u hu
    · exact h.index _ hf
  cases step_cases hs with
  | @upload i c u s pc thread next terminated =>
    have hu := h.uploads u (List.mem_of_getElem? thread)
    have hnamed : Upload.Named { u with pc := pc } :=
      hu.next next fun hc => by subst hc; exact ha u (by simp [thread])
    refine ⟨fun f hf => ?_, fun v hv => ?_, hdown, h.target⟩
    · rcases Upload.mem_filesInStorage_of_next next hf with hf | ⟨rfl, -, -, after⟩
      · exact h.index f hf
      · exact hnamed.2 (by rw [after]; rfl)
    · rcases mem_set_of_getElem? thread hv with rfl | ⟨j, -, hj⟩
      · exact hnamed
      · exact h.uploads v (List.mem_of_getElem? hj)
  | spawn idle request =>
    refine ⟨h.index, fun v hv => ?_, hdown, h.target⟩
    rcases List.mem_append.mp hv with hv | hv
    · exact h.uploads v hv
    · rw [List.mem_singleton.mp hv]
      exact ⟨nofun, nofun⟩
  | @erase d f idle request =>
    by_cases hf : f ∈ w.server.filesInStorage
    · rw [start_remove_of_mem _ hf]
      refine ⟨fun g hg => h.index g (SortedSet.mem_erase.mp hg).2, h.uploads, h.downloads,
        fun g hg => ?_⟩
      obtain rfl : f = g := by simpa [Loop.target, Loop.removal] using hg
      exact h.index f hf
    · rwa [start_remove_of_not_mem _ idle hf]
  | @removal c f pc w' loop next =>
    have hl : w.loop.target = some f := by rw [loop]; rfl
    cases removeNext_cases next with
    | measure | release =>
      refine ⟨h.index, h.uploads, h.downloads, fun g hg => h.target g (hl.trans ?_)⟩
      simpa [Loop.target, Loop.removal] using hg
    | remove | fail => exact ⟨h.index, h.uploads, h.downloads, nofun⟩
  | other call server uploads removal =>
    refine ⟨server ▸ h.index, uploads ▸ h.uploads, hdown, fun f hf => h.target f ?_⟩
    rwa [Loop.target, removal] at hf

/-- A path is given to the file system where the name is known to be one. -/
theorem Named.isName_of_fileCall (h : Named w) (hs : w.step a = some w') {f : Filename} {ok : Bool}
    (hf : w.fileCall a = some (f, ok)) : IsName f := by
  have hup : ∀ {i c}, a = .upload i c →
      (c = .openFile ok ∨ c = .fileExists ok ∨ c = .removeFile ok) →
        (w.uploads[i]?.map fun u => (u.filename, ok)) = some (f, ok) → IsName f := by
    rintro i c rfl hc hf
    obtain ⟨u, hu, he⟩ := Option.map_eq_some_iff.mp hf
    obtain ⟨rfl, -⟩ := Prod.mk.inj he
    refine (h.uploads u (List.mem_of_getElem? hu)).2 ?_
    cases step_cases hs with
    | @upload _ _ v s pc thread next terminated =>
      obtain rfl := Option.some.inj (thread.symm.trans hu)
      exact Upload.owns_of_path next hc
    | other call => exact (call i c rfl).elim
  cases a with
  | upload i c =>
    cases c with
    | openFile ok' | fileExists ok' | removeFile ok' =>
      obtain ⟨u, -, he⟩ := Option.map_eq_some_iff.mp hf
      obtain ⟨-, rfl⟩ := Prod.mk.inj he
      exact hup rfl (by simp) hf
    | _ => cases hf
  | download i c =>
    cases c with
    | openFile ok' =>
      obtain ⟨u, hu, he⟩ := Option.map_eq_some_iff.mp hf
      obtain ⟨rfl, -⟩ := Prod.mk.inj he
      exact h.downloads u (List.mem_of_getElem? hu)
    | _ => cases hf
  | remove c =>
    cases c with
    | fileSize ok' | removeFile ok' =>
      obtain ⟨g, hg, he⟩ := Option.map_eq_some_iff.mp hf
      obtain ⟨rfl, -⟩ := Prod.mk.inj he
      exact h.target g hg
    | freeSpace => cases hf
  | _ => cases hf

theorem Named.confined (h : Named w) : Confined cwd sharedFolder w :=
  ⟨h.index, fun _ _ _ _ hs hf => ⟨_, resolve_append (h.isName_of_fileCall hs hf)⟩⟩

theorem named_initial {max : UInt64} {folder : Folder Filename} {listing : List Filename}
    (hl : ∀ f ∈ listing, IsName f) :
    Named (initial (Server.generateFilesInStorage max folder listing)) where
  index f hf := hl f ((Server.mem_generateFilesInStorage max folder listing).mp hf).1
  uploads u hu := by simp [initial] at hu
  downloads u hu := by simp [initial] at hu
  target f hf := by simp [initial, Loop.target, Loop.removal] at hf

/-- A `.` or `..` that is added is in the index. -/
theorem not_confined_of_not_noDots (ha : ¬NoDots w a) (hs : w.step a = some w') :
    ¬Confined cwd sharedFolder w' := by
  unfold NoDots at ha
  split at ha
  · rename_i i
    cases step_cases hs with
    | @upload _ _ u s pc thread next terminated =>
      intro hc
      have hmem : u.filename ∈ s.filesInStorage := by
        cases Upload.next_cases next with
        | add before fresh => simp
        | taken before mem => exact mem
      obtain ⟨-, -, hdot, hdotDot⟩ := hc.1 _ hmem
      simp [thread, hdot, hdotDot] at ha
    | other call => exact (call i _ rfl).elim
  · exact (ha trivial).elim

/-- A run keeps the server confined in every state it passes exactly if it adds no `.`
and no `..` to the index. -/
theorem confined_iff {max : UInt64} {folder : Folder Filename} {listing : List Filename}
    (hl : ∀ f ∈ listing, IsName f)
    (hr : run (initial (Server.generateFilesInStorage max folder listing)) as = some w) :
    (∀ pre w₁, pre <+: as →
      run (initial (Server.generateFilesInStorage max folder listing)) pre = some w₁ →
        Confined cwd sharedFolder w₁) ↔
      Along World.step NoDots (initial (Server.generateFilesInStorage max folder listing)) as := by
  constructor
  · induction as using List.reverseRecOn generalizing w with
    | nil => exact fun _ => trivial
    | append_singleton as a ih =>
      intro h
      rw [World.run, run_concat] at hr
      obtain ⟨w₁, h₁, hs⟩ := Option.bind_eq_some_iff.mp hr
      refine (along_concat h₁).mpr ⟨ih h₁ fun pre w₂ hpre => h pre w₂ (hpre.trans ?_), ?_⟩
      · exact List.prefix_append _ _
      · by_contra ha
        refine not_confined_of_not_noDots ha hs (h (as ++ [a]) w List.prefix_rfl ?_)
        rw [World.run, run_concat, h₁]
        exact hs
  · rintro hP pre w₁ ⟨post, rfl⟩ h₁
    exact (run_invariant Named (fun _ _ _ h ha hs => h.step ha hs) (named_initial hl) h₁
      hP.append_left).confined

/-- A client uploads a file of one byte, and another removes it. -/
def uploadAndRemoval : List Action :=
  [.receive (addDatagram ⟨1, 1⟩ 1 [97] 1), .upload 0 .checkAndReserveSpace,
    .upload 0 .addFileToStorage, .upload 0 (.announce (some 5)), .upload 0 (.select .ready),
    .upload 0 (.accept true), .upload 0 (.openFile true), .upload 0 (.read (.piece [1])),
    .upload 0 (.read .endOfStream), .upload 0 (.closeFile true),
    .receive (simpleDatagram ⟨2, 2⟩ 2 fileRemoveRequest [97]), .remove (.fileSize true),
    .remove .freeSpace, .remove (.removeFile true)]

theorem uploadAndRemoval_confined : (run (started 10) uploadAndRemoval).isSome ∧
    ∀ pre w₁, pre <+: uploadAndRemoval → run (started 10) pre = some w₁ →
      Confined [] [slash, 115] w₁ := by
  obtain ⟨w, hr⟩ := Option.isSome_iff_exists.mp (by decide : (run (started 10) uploadAndRemoval).isSome)
  exact ⟨by rw [hr]; rfl, (confined_iff (by simp) hr).mpr (by decide)⟩

/-- An upload of `..` is accepted, no client connects, and the parent of the shared
folder is looked for. -/
def parentUpload : List Action :=
  [.receive (addDatagram ⟨1, 1⟩ 1 dotDot 1), .upload 0 .checkAndReserveSpace,
    .upload 0 .addFileToStorage, .upload 0 (.announce (some 5)), .upload 0 (.select .timeout)]

/-- The index holds `..`, and the next call is given a path that leads out of the shared
folder `/s`. -/
theorem parentUpload_not_confined : ∃ w, run (started 10) parentUpload = some w ∧
    dotDot ∈ w.server.filesInStorage ∧ (w.step (.upload 0 (.fileExists true))).isSome ∧
      w.fileCall (.upload 0 (.fileExists true)) = some (dotDot, true) ∧
      resolve [] ([slash, 115] ++ slash :: dotDot) = [] ∧ ¬Confined [] [slash, 115] w := by
  obtain ⟨w, hr, hw⟩ : ∃ w, run (started 10) parentUpload = some w ∧
      decide (dotDot ∈ w.server.filesInStorage ∧
        (w.step (.upload 0 (.fileExists true))).isSome ∧
        w.fileCall (.upload 0 (.fileExists true)) = some (dotDot, true)) :=
    exists_run_of_any _ (by decide)
  obtain ⟨hmem, hstep, hcall⟩ := of_decide_eq_true hw
  refine ⟨w, hr, hmem, hstep, hcall, by decide, fun h => ?_⟩
  exact absurd (h.1 _ hmem) (by decide)

end World

end Netstore
