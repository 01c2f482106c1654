import Netstore.World

/-!
# Uploads and removals that do not overlap

An upload adds its name to the index before it creates the file and a removal erases
the name before it looks for the file. Nothing orders these steps for one name, so the
counter, the index and the disk stay in agreement only in runs where they do not
overlap (`World.NoOverlap`) : no name is removed while an upload owns it, and no upload
opens or removes the file of a name that is being removed.

`Undisturbed` is what these runs keep : a name has at most one owner; before its owner
has opened the file there is none, from then on the file is the owner's alone and has
what was received less the buffer; a name in the index with no owner has its file, and
a name that is not in the index has none unless it is being removed.
`Undisturbed.content_step` and `Stored.step` are what the other files use : no step
changes the bytes of a stored name, and it stays stored until a removal of it begins.
-/

namespace Netstore

namespace UploadCall

/-- The call names the file of the upload and may change what the name leads to. -/
def touches : UploadCall → Bool
  | openFile _ | removeFile _ => true
  | _ => false

/-- A write to the open file does not fail. -/
def writesOk : UploadCall → Bool
  | flush _ ok | closeFile ok => ok
  | _ => true

end UploadCall

namespace World

/-- An upload owns the name. -/
def Owned (w : World) (f : Filename) : Prop :=
  ∃ u ∈ w.uploads, u.pc.owns ∧ u.filename = f

instance (w : World) (f : Filename) : Decidable (w.Owned f) :=
  inferInstanceAs (Decidable (∃ u ∈ w.uploads, u.pc.owns ∧ u.filename = f))

/-- The name is in the index and no upload owns it. -/
def Stored (w : World) (f : Filename) : Prop :=
  f ∈ w.server.filesInStorage ∧ ¬w.Owned f

/-- The loop receives a removal of the name. -/
def beginsRemoval (f : Filename) (a : Action) : Bool :=
  a.removes = some f

/-- A name is owned if some upload stands where it owns the name. -/
theorem owned_iff {w : World} {f : Filename} : w.Owned f ↔ ∃ i, w.Has UploadPc.owns i f := by
  simp only [Owned, Has, List.mem_iff_getElem?]
  constructor
  · rintro ⟨u, ⟨i, hu⟩, h⟩
    exact ⟨i, u, hu, h⟩
  · rintro ⟨i, u, hu, h⟩
    exact ⟨u, ⟨i, hu⟩, h⟩

/-- A file operation on a file that exists does not fail. -/
def FilesOk (w : World) (a : Action) : Prop :=
  (match w.fileCall a with
    | some (f, ok) => (w.server.folder.inode f).isSome → ok
    | none => True) ∧
  match a with
  | .upload _ c => c.writesOk
  | _ => True

instance (w : World) (a : Action) : Decidable (FilesOk w a) :=
  @instDecidableAnd _ _ (by split <;> infer_instance) (by split <;> infer_instance)

/-- The step does not make an upload and a removal of one name overlap. -/
def NoOverlap (w : World) (a : Action) : Prop :=
  match a with
  | .receive _ => ∀ f ∈ a.removes, ¬w.Owned f
  | .upload i c => c.touches → ∀ u ∈ w.uploads[i]?, w.loop.target ≠ some u.filename
  | _ => True

instance (w : World) (a : Action) : Decidable (NoOverlap w a) := by
  unfold NoOverlap
  split <;> infer_instance

end World

/-! ## An upload on the disk -/

namespace Upload

/-- An upload of `n` bytes has the file `f` open : no other name leads to it, and it
holds what was received up to what is in the buffer. -/
structure Live (d : Folder Filename) (target : Option Filename) (f : Filename) (n : UInt64)
    (st : Stream) (toUpload : UInt64) (received : Bytes) : Prop where
  target : target ≠ some f
  sole : d.Sole f st.ino
  good : st.good
  flushed : ∃ bs, d.content f = some bs ∧ st.offset = bs.length ∧ received = bs ++ st.buffer
  left : toUpload.toNat + received.length = n.toNat

/-- What the disk has of the upload, where it stands. -/
def OnDisk (d : Folder Filename) (target : Option Filename) (u : Upload) : Prop :=
  match u.pc with
  | .accepted | .announceFailed | .announceReleased | .waiting | .connecting | .opening _ =>
    d.inode u.filename = none ∨ target = some u.filename
  | .receiving _ st toUpload received | .closing _ st toUpload received =>
    Live d target u.filename u.fileSize st toUpload received
  | .releasing | .forgetting => d.inode u.filename = none
  | _ => True

section Live

variable {d d' : Folder Filename} {target : Option Filename} {f g : Filename} {n : UInt64}
  {st : Stream} {toUpload : UInt64} {received bs : Bytes}

/-- A new file is its creator's. -/
theorem live_create (ht : target ≠ some f) :
    Live (d.create f) target f n ⟨d.next, 0, [], true⟩ n [] where
  target := ht
  sole := d.sole_create _
  good := rfl
  flushed := ⟨[], by simp⟩
  left := by simp

/-- An upload stays live over a change to another name. -/
theorem Live.of_changesOnly (h : Live d target f n st toUpload received)
    (hc : d.ChangesOnly d' g) (hf : f ≠ g) : Live d' target f n st toUpload received := by
  obtain ⟨bs, hbs, hrec⟩ := h.flushed
  exact ⟨h.target, h.sole.of_changesOnly hc hf, h.good, ⟨bs, (hc.content hf).trans hbs, hrec⟩,
    h.left⟩

/-- An upload stays live when it writes what it has read. -/
theorem Live.read (h : Live d target f n st toUpload received)
    (hle : bs.length ≤ readLimit toUpload) :
    Live d target f n (st.write bs) (toUpload - UInt64.ofNat bs.length) (received ++ bs) := by
  have hw : st.write bs = { st with buffer := st.buffer ++ bs } := by
    rw [Stream.write, if_pos h.good]
  have hle : bs.length ≤ toUpload.toNat := hle.trans (min_le_right _ _)
  have hleft := h.left
  obtain ⟨cs, hcs, hoff, hrec⟩ := h.flushed
  rw [hw]
  refine ⟨h.target, h.sole, h.good, ⟨cs, hcs, hoff, ?_⟩, ?_⟩
  · rw [hrec, List.append_assoc]
  · rw [toNat_sub_ofNat hle, List.length_append]
    omega

/-- After a flush the file and the rest of the buffer are what has been received. -/
theorem Live.content_flush (h : Live d target f n st toUpload received) (k : ℕ) :
    ∃ bs, (st.flush d k).1.content f = some bs ∧
      bs.length = st.offset + (st.buffer.take k).length ∧ received = bs ++ st.buffer.drop k := by
  obtain ⟨bs, hbs, hoff, hrec⟩ := h.flushed
  have hcont : d.contents st.ino = bs := by
    rw [Folder.content, h.sole.1] at hbs
    simpa using hbs
  refine ⟨bs ++ st.buffer.take k, ?_, ?_, ?_⟩
  · rw [Stream.flush, Folder.write, d.content_setContents_of_inode h.sole.1, hcont, hoff,
      Bytes.overwrite_length_self]
  · rw [List.length_append, hoff]
  · rw [hrec, List.append_assoc, List.take_append_drop]

theorem Live.changesOnly_flush (h : Live d target f n st toUpload received) (k : ℕ) :
    d.ChangesOnly (st.flush d k).1 f :=
  h.sole.changesOnly_setContents

/-- An upload stays live when its buffer is flushed. -/
theorem Live.flush (h : Live d target f n st toUpload received) (k : ℕ) :
    Live (st.flush d k).1 target f n (st.flush d k).2 toUpload received := by
  obtain ⟨bs, hbs, hlen, hrec⟩ := h.content_flush k
  exact ⟨h.target, h.sole, h.good, ⟨bs, hbs, hlen.symm, hrec⟩, h.left⟩

/-- A file that is closed with nothing left to upload is complete. -/
theorem Live.complete (h : Live d target f n st 0 received) :
    (st.flush d st.buffer.length).1.content f = some received ∧ received.length = n.toNat := by
  obtain ⟨bs, hbs, -, hrec⟩ := h.content_flush st.buffer.length
  refine ⟨by rw [hbs, hrec]; simp, by simpa using h.left⟩

end Live

variable {s s' : Server} {u : Upload} {c : UploadCall} {pc : UploadPc} {d d' : Folder Filename}
  {target : Option Filename} {bs : Bytes}

/-- Nothing is asked of an upload that owns no name. -/
theorem onDisk_of_not_owns (h : u.pc.owns = false) : u.OnDisk d target := by
  unfold OnDisk
  cases hpc : u.pc <;> first | trivial | (rw [hpc] at h; cases h)

/-- The file of an upload is not touched by what happens under other names. -/
theorem OnDisk.of_changesOnly {f : Filename} (h : u.OnDisk d target) (hc : d.ChangesOnly d' f)
    (hf : u.filename ≠ f) : u.OnDisk d' target := by
  unfold OnDisk at h ⊢
  cases hpc : u.pc <;> simp only [hpc, hc.inode hf] at h ⊢ <;>
    first | exact h | exact h.of_changesOnly hc hf

theorem onDisk_transferred {failed : Bool} {toUpload : UInt64} {received : Bytes} :
    OnDisk d target { u with pc := afterTransfer failed toUpload received } := by
  unfold afterTransfer
  split_ifs <;> trivial

/-- What a call of an upload does to the disk, if it does not touch a name that is being
removed : it leaves the disk, or changes only what the name it owns leads to. -/
theorem onDisk_next (h : u.next s c = some (s', pc)) (hu : u.OnDisk s.folder target)
    (hnew : u.filename ∉ s.filesInStorage →
      s.folder.inode u.filename = none ∨ target = some u.filename)
    (hok : c.writesOk) (ht : c.touches → target ≠ some u.filename) :
    OnDisk s'.folder target { u with pc := pc } ∧
      (s'.folder = s.folder ∨ u.pc.owns ∧ target ≠ some u.filename ∧
        s.folder.ChangesOnly s'.folder u.filename) := by
  unfold OnDisk at hu
  cases next_cases h with
  | reserve | reject | taken | freeTaken | forget | refuse | notReady | openFail | found
  | existsThrows | removeThrows => exact ⟨trivial, Or.inl rfl⟩
  | add before fresh => exact ⟨hnew fresh, Or.inl rfl⟩
  | freeAnnounce before | free before | announce before | announceFail before | ready before
  | accept before | endOfStream before | readFail before =>
    rw [before] at hu
    exact ⟨hu, Or.inl rfl⟩
  | create before opened =>
    rw [before] at hu
    -- the name is not being removed, so it leads to no file yet
    obtain ⟨rfl, rfl⟩ := s.folder.openTruncate_of_inode_none (hu.resolve_right (ht rfl)) opened
    exact ⟨live_create (ht rfl), Or.inr ⟨by rw [before]; rfl, ht rfl, Folder.changesOnly_create _⟩⟩
  | piece before pos le =>
    rw [before] at hu
    exact ⟨hu.read le, Or.inl rfl⟩
  | flush before n =>
    rw [before] at hu
    exact ⟨hu.flush n, Or.inr ⟨by rw [before]; rfl, hu.target, hu.changesOnly_flush n⟩⟩
  | close before =>
    rw [before] at hu
    exact ⟨onDisk_transferred,
      Or.inr ⟨by rw [before]; rfl, hu.target, hu.changesOnly_flush _⟩⟩
  | spoil | closeFail => cases hok
  | absent before exist =>
    exact ⟨by simp [OnDisk, s.folder.inode_of_not_exists exist], Or.inl rfl⟩
  | remove before removed =>
    refine ⟨?_, Or.inr ⟨by rw [before]; rfl, ht rfl, Folder.changesOnly_remove removed⟩⟩
    simp [OnDisk, s.folder.inode_remove removed]

/-- An upload ends with its file kept when the file is closed with nothing left. -/
theorem closing_of_kept (h : u.next s c = some (s', .kept bs)) :
    (∃ ok st, c = .closeFile ok ∧ u.pc = .closing false st 0 bs) ∧
      s' = { s with folder := s'.folder } := by
  have hkept : ∀ {failed toUpload received}, afterTransfer failed toUpload received = .kept bs →
      failed = false ∧ toUpload = 0 ∧ received = bs := by
    intro failed toUpload received ha
    unfold afterTransfer at ha
    split_ifs at ha with hfail
    simp only [not_or, Bool.not_eq_true, not_not] at hfail
    exact ⟨hfail.1, hfail.2, UploadPc.kept.inj ha⟩
  generalize hpc : UploadPc.kept bs = pc at h
  cases next_cases h with
  | close before | closeFail before =>
    obtain ⟨rfl, rfl, rfl⟩ := hkept hpc.symm
    exact ⟨⟨_, _, rfl, before⟩, rfl⟩
  | _ => cases hpc

/-- A file that is kept has what was received, and all of it. -/
theorem content_of_kept (h : u.next s c = some (s', .kept bs)) (hu : u.OnDisk s.folder target)
    (hok : c.writesOk) : s'.folder.content u.filename = some bs ∧
      bs.length = u.fileSize.toNat ∧ target ≠ some u.filename := by
  obtain ⟨⟨ok, st, rfl, hpc⟩, -⟩ := closing_of_kept h
  obtain rfl : ok = true := hok
  simp only [OnDisk, hpc] at hu
  simp only [next, hpc] at h
  obtain ⟨rfl, -⟩ := Prod.mk.inj (Option.some.inj h)
  exact ⟨hu.complete.1, hu.complete.2, hu.target⟩

end Upload

/-! ## The invariant -/

namespace World

open Transition

/-- The `i`-th upload owns the name `f`. -/
abbrev Owns (w : World) (i : ℕ) (f : Filename) : Prop :=
  w.Has UploadPc.owns i f

/-- What uploads and removals that do not overlap keep. -/
structure Undisturbed (w : World) : Prop where
  unique : ∀ {i j f}, w.Owns i f → w.Owns j f → i = j
  indexed : ∀ {i f}, w.Owns i f → f ∈ w.server.filesInStorage
  onDisk : ∀ {i : ℕ} {u : Upload}, w.uploads[i]? = some u → u.OnDisk w.server.folder w.loop.target
  /-- A stored name has its file, and is not being removed. -/
  stored : ∀ {f}, w.Stored f → w.server.folder.inode f ≠ none ∧ w.loop.target ≠ some f
  /-- A name that is not in the index has no file unless it is being removed. -/
  absent : ∀ {f}, f ∉ w.server.filesInStorage →
    w.server.folder.inode f = none ∨ w.loop.target = some f
  /-- A name that is being removed has its file until the last step. -/
  target : ∀ {f}, w.loop.target = some f → w.server.folder.inode f ≠ none

/-- Every regular file is listed, once. -/
def Lists (listing : List Filename) (folder : Folder Filename) : Prop :=
  listing.Nodup ∧ ∀ f, folder.inode f ≠ none → f ∈ listing

variable {w w' : World} {a : Action}

theorem lists_empty : Lists [] .empty :=
  ⟨List.nodup_nil, fun _ hf => (hf rfl).elim⟩

/-- A server is undisturbed when it starts. -/
theorem undisturbed_initial {max : UInt64} {folder : Folder Filename} {listing : List Filename}
    (h : Lists listing folder) :
    Undisturbed (initial (Server.generateFilesInStorage max folder listing)) where
  unique h := by simp [initial, Has] at h
  indexed h := by simp [initial, Has] at h
  onDisk h := by simp [initial] at h
  stored hf := by
    have := (Server.mem_generateFilesInStorage max folder listing).mp hf.1
    exact ⟨by simpa [initial] using this.2, by simp [initial, Loop.target, Loop.removal]⟩
  absent {f} hf := by
    refine Or.inl ?_
    by_contra hi
    have hi : folder.inode f ≠ none := by simpa [initial] using hi
    exact hf ((Server.mem_generateFilesInStorage max folder listing).mpr ⟨h.2 f hi, hi⟩)
  target hf := by simp [initial, Loop.target, Loop.removal] at hf

section Upload

variable {i : ℕ} {c : UploadCall} {u : Upload} {s : Server} {pc : UploadPc} {t : Bool}

theorem owned_set {g : Filename} (hu : w.uploads[i]? = some u) : Owned { w with
    server := s, uploads := w.uploads.set i { u with pc := pc }, terminated := t } g ↔
      (pc.owns ∧ u.filename = g) ∨ ∃ j ≠ i, w.Owns j g := by
  simp only [owned_iff, has_set hu]
  constructor
  · rintro ⟨j, ⟨-, h⟩ | h⟩
    · exact Or.inl h
    · exact Or.inr ⟨j, h⟩
  · rintro (h | ⟨j, h⟩)
    · exact ⟨i, Or.inl ⟨rfl, h⟩⟩
    · exact ⟨j, Or.inr h⟩

theorem owned_self {g : Filename} (hu : w.uploads[i]? = some u) :
    w.Owned g ↔ (u.pc.owns ∧ u.filename = g) ∨ ∃ j ≠ i, w.Owns j g := by
  rw [owned_iff]
  constructor
  · rintro ⟨j, hj⟩
    by_cases hji : j = i
    · subst hji
      exact Or.inl ((has_self hu).mp hj)
    · exact Or.inr ⟨j, hji, hj⟩
  · rintro (h | ⟨j, -, h⟩)
    · exact ⟨i, (has_self hu).mpr h⟩
    · exact ⟨j, h⟩

/-- A move of an upload is judged by its own name, when it leaves what the other names
lead to and whether they are in the index. -/
theorem Undisturbed.move (h : Undisturbed w) (hu : w.uploads[i]? = some u)
    (hdisk : Upload.OnDisk s.folder w.loop.target { u with pc := pc })
    (hframe : s.folder = w.server.folder ∨ u.pc.owns ∧ w.loop.target ≠ some u.filename ∧
      w.server.folder.ChangesOnly s.folder u.filename)
    (hfiles : ∀ g ≠ u.filename, g ∈ s.filesInStorage ↔ g ∈ w.server.filesInStorage)
    (howns : pc.owns → u.filename ∈ s.filesInStorage ∧ ∀ j ≠ i, ¬w.Owns j u.filename)
    (hothers : ∀ j ≠ i, w.Owns j u.filename → u.filename ∈ s.filesInStorage)
    (hsettled : u.filename ∈ s.filesInStorage → ¬pc.owns → (∀ j ≠ i, ¬w.Owns j u.filename) →
      s.folder.inode u.filename ≠ none ∧ w.loop.target ≠ some u.filename)
    (habsent : u.filename ∉ s.filesInStorage →
      s.folder.inode u.filename = none ∨ w.loop.target = some u.filename) :
    Undisturbed { w with
      server := s, uploads := w.uploads.set i { u with pc := pc }, terminated := t } := by
  have hinode : ∀ {g}, g ≠ u.filename → s.folder.inode g = w.server.folder.inode g := by
    intro g hg
    rcases hframe with he | ⟨-, -, hc⟩
    · rw [he]
    · exact hc.inode hg
  have hother : ∀ {g}, g ≠ u.filename → w.Owned g → ∃ j ≠ i, w.Owns j g := by
    intro g hg ho
    exact ((owned_self hu).mp ho).resolve_left fun h => hg h.2.symm
  refine ⟨fun {j k g} hj hk => ?_, fun {j g} hj => ?_, fun {j v} hv => ?_, fun {g} ⟨hg, hown⟩ => ?_,
    fun {g} hg => ?_, fun {g} hg => ?_⟩
  · rw [Owns, has_set hu] at hj hk
    rcases hj with ⟨rfl, hj, rfl⟩ | ⟨hji, hj⟩ <;> rcases hk with ⟨rfl, hk, hkf⟩ | ⟨hki, hk⟩
    · rfl
    · exact ((howns hj).2 k hki hk).elim
    · subst hkf
      exact ((howns hk).2 j hji hj).elim
    · exact h.unique hj hk
  · rw [Owns, has_set hu] at hj
    rcases hj with ⟨-, hj, rfl⟩ | ⟨hji, hj⟩
    · exact (howns hj).1
    · by_cases hg : g = u.filename
      · subst hg
        exact hothers j hji hj
      · exact (hfiles g hg).mpr (h.indexed hj)
  · rcases (getElem?_set_eq_some hu).mp hv with ⟨-, rfl⟩ | ⟨hji, hv⟩
    · exact hdisk
    · rcases hframe with he | ⟨ho, -, hc⟩
      · exact he ▸ h.onDisk hv
      · by_cases hg : v.filename = u.filename
        · -- the name has one owner, the upload that moves
          refine Upload.onDisk_of_not_owns (Bool.eq_false_iff.mpr fun hvo => hji ?_)
          exact h.unique ((has_self hv).mpr ⟨hvo, rfl⟩) ((has_self hu).mpr ⟨ho, hg.symm⟩)
        · exact (h.onDisk hv).of_changesOnly hc hg
  · rw [owned_set hu] at hown
    by_cases hf : g = u.filename
    · subst hf
      exact hsettled hg (fun ho => hown (Or.inl ⟨ho, rfl⟩))
        (fun j hj ho => hown (Or.inr ⟨j, hj, ho⟩))
    · rw [hinode hf]
      exact h.stored ⟨(hfiles g hf).mp hg, fun ho => hown (Or.inr (hother hf ho))⟩
  · by_cases hf : g = u.filename
    · subst hf
      exact habsent hg
    · rw [hinode hf]
      exact h.absent fun hg' => hg ((hfiles g hf).mpr hg')
  · by_cases hf : g = u.filename
    · subst hf
      rcases hframe with he | ⟨-, ht, -⟩
      · rw [he]
        exact h.target hg
      · exact (ht hg).elim
    · rw [hinode hf]
      exact h.target hg

/-- Each effect of a call keeps the invariant, if the call touches no name that is being
removed. -/
theorem Undisturbed.upload (h : Undisturbed w) (hu : w.uploads[i]? = some u)
    (hn : u.next w.server c = some (s, pc)) (hok : c.writesOk)
    (ht : c.touches → w.loop.target ≠ some u.filename) :
    Undisturbed { w with
      server := s, uploads := w.uploads.set i { u with pc := pc }, terminated := t } := by
  obtain ⟨hdisk, hframe⟩ := Upload.onDisk_next hn (h.onDisk hu) h.absent hok ht
  have hself : u.pc.owns → w.Owns i u.filename := fun ho => (has_self hu).mpr ⟨ho, rfl⟩
  have hrival : u.pc.owns → ∀ j ≠ i, ¬w.Owns j u.filename := fun ho j hji hj =>
    hji (h.unique hj (hself ho))
  have hnone : u.pc.owns = false → (∀ j ≠ i, ¬w.Owns j u.filename) → ¬w.Owned u.filename := by
    intro ho hj
    rw [owned_self hu]
    rintro (h | ⟨j, hji, h⟩)
    · simp [ho] at h
    · exact hj j hji h
  have hfolder : u.pc.owns = false → s.folder = w.server.folder := fun ho =>
    hframe.resolve_right fun hf => by simp [ho] at hf
  cases Upload.next_indexEffect hn with
  | stay files owns =>
    refine h.move hu hdisk hframe (by simp [files]) (fun ho => ?_) (fun j _ hj => ?_)
      (fun hf ho hj => ?_) (fun hf => ?_)
    · rw [owns] at ho
      exact ⟨files ▸ h.indexed (hself ho), hrival ho⟩
    · exact files ▸ h.indexed hj
    · have ho : u.pc.owns = false := by simpa [owns] using ho
      rw [hfolder ho]
      exact h.stored ⟨files ▸ hf, hnone ho hj⟩
    · have hf : u.filename ∉ w.server.filesInStorage := files ▸ hf
      rw [hfolder (Bool.eq_false_iff.mpr fun ho => hf (h.indexed (hself ho)))]
      exact h.absent hf
  | insert fresh before after eq =>
    have hj : ∀ j ≠ i, ¬w.Owns j u.filename := fun j _ hj => fresh (h.indexed hj)
    subst eq
    refine h.move hu hdisk hframe (by simp +contextual) (fun _ => ⟨by simp, hj⟩)
      (fun j hji hj' => (hj j hji hj').elim) (fun _ ho => ?_) (by simp)
    simp [after, UploadPc.owns] at ho
  | erase before owned after eq =>
    subst eq
    refine h.move hu hdisk hframe (by simp +contextual) (fun ho => ?_)
      (fun j hji hj => (hrival owned j hji hj).elim) (by simp) (fun _ => ?_)
    · simp [after, UploadPc.owns] at ho
    · have hu' := h.onDisk hu
      rcases before with before | before <;> simp only [Upload.OnDisk, before] at hu'
      · exact hu'
      · exact Or.inl hu'
  | keep bs files owned after =>
    subst after
    obtain ⟨hcont, -, htarget⟩ := Upload.content_of_kept hn (h.onDisk hu) hok
    have hmem : u.filename ∈ s.filesInStorage := files ▸ h.indexed (hself owned)
    refine h.move hu hdisk hframe (by simp [files]) (fun ho => ?_) (fun _ _ _ => hmem)
      (fun _ _ _ => ⟨fun hi => ?_, htarget⟩) (fun hf => (hf hmem).elim)
    · simp [UploadPc.owns] at ho
    · simp [s.folder.content_eq_none_iff.mpr hi] at hcont

end Upload

theorem target_removing {f : Filename} {pc : RemovalPc} :
    Loop.target (.removing f pc) = some f :=
  rfl

theorem target_idle : Loop.target .idle = none :=
  rfl

theorem owned_append {u : Upload} {f : Filename} (hu : u.pc.owns = false) :
    Owned { w with uploads := w.uploads ++ [u] } f ↔ w.Owned f := by
  simp only [owned_iff, has_append hu]

theorem owned_congr {f : Filename} (h : w'.uploads = w.uploads) : w'.Owned f ↔ w.Owned f := by
  rw [Owned, h, Owned]

/-- A step that leaves the index, the disk, the uploads and the name that is removed. -/
theorem Undisturbed.of_eq (h : Undisturbed w)
    (files : w'.server.filesInStorage = w.server.filesInStorage)
    (folder : w'.server.folder = w.server.folder) (uploads : w'.uploads = w.uploads)
    (target : w'.loop.target = w.loop.target) : Undisturbed w' := by
  refine ⟨fun hi hj => h.unique ((has_congr uploads).mp hi) ((has_congr uploads).mp hj),
    fun hi => files ▸ h.indexed ((has_congr uploads).mp hi), fun hu => ?_, fun hf => ?_,
    fun hf => ?_, fun hf => ?_⟩
  · rw [folder, target]
    exact h.onDisk (uploads ▸ hu)
  · rw [folder, target]
    exact h.stored ⟨files ▸ hf.1, fun ho' => hf.2 ((owned_congr uploads).mpr ho')⟩
  · rw [folder, target]
    exact h.absent (files ▸ hf)
  · rw [folder]
    exact h.target (target ▸ hf)

/-- A new upload disturbs nothing. -/
theorem Undisturbed.spawn (h : Undisturbed w) {u : Upload} (hu : u.pc = .start) :
    Undisturbed { w with uploads := w.uploads ++ [u] } := by
  have hno : u.pc.owns = false := by rw [hu]; rfl
  refine ⟨fun hi hj => h.unique ((has_append hno).mp hi) ((has_append hno).mp hj),
    fun hi => h.indexed ((has_append hno).mp hi), fun {i v} hv => ?_,
    fun hf => h.stored ⟨hf.1, fun ho' => hf.2 ((owned_append hno).mpr ho')⟩, h.absent, h.target⟩
  rw [List.getElem?_append] at hv
  split_ifs at hv
  · exact h.onDisk hv
  · obtain rfl := List.mem_singleton.mp (List.mem_of_getElem? hv)
    exact Upload.onDisk_of_not_owns hno

/-- A removal that begins, of a name in the index that no upload owns. -/
theorem Undisturbed.erase (h : Undisturbed w) (hidle : w.loop = .idle) {f : Filename}
    (hf : w.Stored f) :
    Undisturbed { w with
      server := { w.server with filesInStorage := w.server.filesInStorage.erase f }
      loop := .removing f .erased } := by
  have ht : w.loop.target = none := by rw [hidle]; rfl
  refine ⟨h.unique, fun {i g} hg => ?_, fun {i u} hu => ?_, fun {g} ⟨hg, hown⟩ => ?_,
    fun {g} hg => ?_, fun {g} hg => ?_⟩
  · rw [SortedSet.mem_erase]
    exact ⟨fun he => hf.2 (owned_iff.mpr ⟨i, he ▸ hg⟩), h.indexed hg⟩
  · -- an upload that has the file open owns another name
    have hne : u.pc.owns → u.filename ≠ f := fun hou he =>
      hf.2 ⟨u, List.mem_of_getElem? hu, hou, he⟩
    have hd := h.onDisk hu
    unfold Upload.OnDisk at hd ⊢
    cases hpc : u.pc <;> simp only [hpc, ht, target_removing] at hd hne ⊢ <;>
      first
      | exact hd
      | exact Or.inl (hd.resolve_right nofun)
      | exact { hd with target := fun he => hne rfl (Option.some.inj he).symm }
  · rw [SortedSet.mem_erase] at hg
    exact ⟨(h.stored ⟨hg.2, hown⟩).1, by simpa [target_removing] using hg.1.symm⟩
  · by_cases hgf : g = f
    · exact Or.inr (by rw [hgf]; rfl)
    · refine Or.inl ((h.absent fun hg' => hg (SortedSet.mem_erase.mpr ⟨hgf, hg'⟩)).resolve_right ?_)
      simp [ht]
  · obtain rfl : f = g := by simpa [target_removing] using hg
    exact (h.stored hf).1

/-- The end of a removal. -/
theorem Undisturbed.remove (h : Undisturbed w) {f : Filename} {pc : RemovalPc}
    {folder : Folder Filename} (hloop : w.loop = .removing f pc)
    (hr : w.server.folder.remove f = some folder) :
    Undisturbed { w with server := { w.server with folder := folder }, loop := .idle } := by
  have ht : w.loop.target = some f := by rw [hloop]; rfl
  refine ⟨h.unique, h.indexed, fun {i u} hu => ?_, fun {g} hg => ?_, fun {g} hg => ?_,
    fun {g} hg => ?_⟩
  · have hd := h.onDisk hu
    by_cases he : u.filename = f
    · -- an upload of this name has not opened the file
      unfold Upload.OnDisk at hd ⊢
      cases hpc : u.pc <;>
        simp only [hpc, w.server.folder.inode_remove hr, he, if_true, true_or] at hd ⊢
      all_goals exact (hd.target (by rw [ht])).elim
    · have hd := hd.of_changesOnly (Folder.changesOnly_remove hr) he
      unfold Upload.OnDisk at hd ⊢
      cases hpc : u.pc <;> simp only [hpc, ht] at hd ⊢ <;>
        first
        | exact hd
        | exact Or.inl (hd.resolve_right fun h' => he (Option.some.inj h').symm)
        | exact { hd with target := nofun }
  · obtain ⟨hi, hne⟩ := h.stored hg
    have hgf : g ≠ f := fun he => hne (he ▸ ht)
    exact ⟨by rwa [w.server.folder.inode_remove hr, if_neg hgf], nofun⟩
  · refine Or.inl ?_
    rw [w.server.folder.inode_remove hr]
    split_ifs with hgf
    · rfl
    · exact (h.absent hg).resolve_right fun h' => hgf (Option.some.inj (ht.symm.trans h')).symm
  · simp [target_idle] at hg

/-- The step meets the assumption on the disk, and makes no upload and removal overlap. -/
def Orderly (w : World) (a : Action) : Prop :=
  FilesOk w a ∧ NoOverlap w a

instance (w : World) (a : Action) : Decidable (Orderly w a) :=
  inferInstanceAs (Decidable (_ ∧ _))

/-- A removal finds its file, so its calls do not fail. -/
theorem Undisturbed.removal_ok (h : Undisturbed w) {f : Filename} {pc : RemovalPc}
    {c : RemovalCall} (hloop : w.loop = .removing f pc) (ha : FilesOk w (.remove c)) :
    ¬(c = .fileSize false ∨ c = .removeFile false) := by
  have ht : w.loop.target = some f := by rw [hloop]; rfl
  have hi := Option.isSome_iff_ne_none.mpr (h.target ht)
  have hok := ha.1
  rintro (rfl | rfl) <;> simp [fileCall, ht, hi] at hok

/-- Every orderly step keeps the invariant. -/
theorem Undisturbed.step (h : Undisturbed w) (ha : Orderly w a) (hs : w.step a = some w') :
    Undisturbed w' := by
  cases step_cases hs with
  | upload thread next terminated =>
    exact h.upload thread next ha.1.2 fun ht => ha.2 ht _ (by simp [thread])
  | spawn idle request => exact h.spawn rfl
  | @erase d f idle request =>
    have ho : ¬w.Owned f := ha.2 f (Action.removes_receive request)
    by_cases hf : f ∈ w.server.filesInStorage
    · rw [start_remove_of_mem _ hf]
      exact h.erase idle ⟨hf, ho⟩
    · rwa [start_remove_of_not_mem _ idle hf]
  | @removal c f pc w' loop next =>
    have ht : w.loop.target = some f := by rw [loop]; rfl
    cases removeNext_cases next with
    | measure before content => exact h.of_eq rfl rfl rfl ht.symm
    | release before => exact h.of_eq rfl rfl rfl ht.symm
    | remove before remove => exact h.remove loop remove
    | fail call => exact (h.removal_ok loop ha.1 call).elim
  | other call server uploads removal =>
    exact h.of_eq (by rw [server]) (by rw [server]) uploads (by rw [Loop.target, removal]; rfl)

/-- A server stays undisturbed in every orderly run. -/
theorem undisturbed_of_run {s₀ : Server} {as : List Action} (h0 : Undisturbed (initial s₀))
    (hr : run (initial s₀) as = some w) (hP : Along World.step Orderly (initial s₀) as) :
    Undisturbed w :=
  run_invariant Undisturbed (fun _ _ _ h ha hs => h.step ha hs) h0 hr hP

/-- One file is uploaded and kept while the upload of another times out; then the first
is removed. -/
def orderlyRun : List Action :=
  [.receive (addDatagram ⟨1, 1⟩ 1 [97] 4), .receive (addDatagram ⟨2, 2⟩ 2 [98] 5),
    .upload 0 .checkAndReserveSpace, .upload 1 .checkAndReserveSpace, .upload 1 .addFileToStorage,
    .upload 0 .addFileToStorage, .upload 0 (.announce (some 5)), .upload 1 (.announce (some 6)),
    .upload 0 (.select .ready), .upload 0 (.accept true), .upload 0 (.openFile true),
    .upload 0 (.read (.piece [1, 2])), .upload 0 (.flush 1 true), .upload 1 (.select .timeout),
    .upload 0 (.read (.piece [3, 4])), .upload 1 (.fileExists true),
    .upload 0 (.read .endOfStream), .upload 1 .freeSpace, .upload 0 (.closeFile true),
    .upload 1 .removeFileFromStorage,
    .receive (simpleDatagram ⟨1, 1⟩ 3 fileRemoveRequest [97]), .remove (.fileSize true),
    .remove .freeSpace, .remove (.removeFile true)]

/-! ## Stored names -/

/-- No call of an upload takes a name of which it is no owner out of the index, or owns
a name that is there. -/
theorem mem_filesInStorage_next {s s' : Server} {u : Upload} {c : UploadCall} {pc : UploadPc}
    {f : Filename} (hn : u.next s c = some (s', pc)) (hf : f ∈ s.filesInStorage)
    (hu : u.pc.owns → u.filename ≠ f) :
    f ∈ s'.filesInStorage ∧ (pc.owns → u.filename ≠ f) := by
  cases Upload.next_indexEffect hn with
  | stay files owns => exact ⟨files ▸ hf, owns ▸ hu⟩
  | insert fresh before after eq =>
    exact ⟨by simp [eq, hf], fun _ he => fresh (he ▸ hf)⟩
  | erase before owned after eq =>
    exact ⟨by simp [eq, hf, (hu owned).symm], by simp [after, UploadPc.owns]⟩
  | keep bs files owned after => exact ⟨files ▸ hf, by simp [after, UploadPc.owns]⟩

/-- A stored name stays stored until a removal of it begins. -/
theorem Stored.step {f : Filename} (h : w.Stored f) (ha : beginsRemoval f a = false)
    (hs : w.step a = some w') : w'.Stored f := by
  cases step_cases hs with
  | @upload i c u s pc thread next terminated =>
    have hu : u.pc.owns → u.filename ≠ f := fun ho he =>
      h.2 ⟨u, List.mem_of_getElem? thread, ho, he⟩
    obtain ⟨hf, hpc⟩ := mem_filesInStorage_next next h.1 hu
    refine ⟨hf, ?_⟩
    rintro ⟨v, hv, hvo, he⟩
    rcases mem_set_of_getElem? thread hv with rfl | ⟨j, -, hj⟩
    · exact hpc hvo he
    · exact h.2 ⟨v, List.mem_of_getElem? hj, hvo, he⟩
  | spawn idle request =>
    refine ⟨h.1, ?_⟩
    rintro ⟨v, hv, hvo, he⟩
    rcases List.mem_append.mp hv with hv | hv
    · exact h.2 ⟨v, hv, hvo, he⟩
    · rw [List.mem_singleton.mp hv] at hvo
      cases hvo
  | @erase d g idle request =>
    have hne : f ≠ g := by
      rintro rfl
      simp [beginsRemoval, Action.removes_receive request] at ha
    exact ⟨by simpa [start, Server.removeFileFromStorage, hne] using h.1, h.2⟩
  | removal loop next => cases removeNext_cases next <;> exact h
  | other call server uploads removal =>
    exact ⟨server ▸ h.1, by rw [Owned, uploads]; exact h.2⟩

/-- No call of an upload changes the bytes of a name that it does not own or that is
being removed. -/
theorem Undisturbed.content_upload (h : Undisturbed w) {i : ℕ} {c : UploadCall} {u : Upload}
    {s : Server} {pc : UploadPc} (hu : w.uploads[i]? = some u)
    (hn : u.next w.server c = some (s, pc)) (ha : Orderly w (.upload i c)) {f : Filename}
    (hf : ¬w.Owned f ∨ w.loop.target = some f) :
    s.folder.content f = w.server.folder.content f := by
  have ht : c.touches → w.loop.target ≠ some u.filename := fun ht => ha.2 ht _ (by simp [hu])
  rcases (Upload.onDisk_next hn (h.onDisk hu) h.absent ha.1.2 ht).2 with he | ⟨ho, ht, hc⟩
  · rw [he]
  · refine hc.content fun he => ?_
    subst he
    exact hf.elim (fun hf => hf ⟨u, List.mem_of_getElem? hu, ho, rfl⟩) ht

/-- No orderly step changes the bytes of a stored name. -/
theorem Undisturbed.content_step (h : Undisturbed w) (ha : Orderly w a)
    (hs : w.step a = some w') {f : Filename} (hf : w.Stored f) :
    w'.server.folder.content f = w.server.folder.content f := by
  cases step_cases hs with
  | upload thread next terminated => exact h.content_upload thread next ha (Or.inl hf.2)
  | spawn => rfl
  | erase => rfl
  | @removal c g pc w' loop next =>
    cases removeNext_cases next with
    | remove before remove =>
      have hfg : f ≠ g := fun he => (h.stored hf).2 (by rw [loop, he]; rfl)
      exact (Folder.changesOnly_remove remove).content hfg
    | _ => rfl
  | other call server uploads removal => rw [server]

end World

end Netstore
