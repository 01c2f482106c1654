import Netstore.Threads
import Netstore.Transition

/-!
# An upload on its own

One upload handler that runs alone, from its start to its end, with any answers of the
environment (`Upload.alone`). What it reserves and inserts it gives back and takes out when it
fails, and a file that it has created it removes. But its cleanup removes whatever is in
the folder under the name, and its transfer overwrites a file that is not in the index. A
link that leads nowhere is not there for the cleanup, until the upload creates the file
that it leads to. So an upload that is refused or fails leaves no trace exactly if it does
not come to its transfer, or there was nothing under its name, or there was a link that
leads nowhere and no file was opened (`unchanged_iff`).
-/

namespace Netstore

namespace Upload

open Transition

/-- One call of an upload that runs alone, from its place on the server. -/
def alone (u : Upload) (x : Server × UploadPc) (c : UploadCall) : Option (Server × UploadPc) :=
  next x.1 { u with pc := x.2 } c

/-- The server lets the upload in : its name is one it takes and is not in the index, and its
size fits. -/
def LetIn (s : Server) (u : Upload) : Prop :=
  acceptableName u.filename ∧ (s.checkAndReserveSpace u.fileSize).1 ∧
    u.filename ∉ s.filesInStorage

instance (s : Server) (u : Upload) : Decidable (LetIn s u) :=
  inferInstanceAs (Decidable (_ ∧ _))

/-- From `d` to `d'` an upload of `f` has changed nothing that other names lead to, if there was
nothing under its own; and what was under its own is not gone. -/
structure Touched (d d' : Folder Filename) (f : Filename) : Prop where
  entries : d.entries f = none → ∀ g ≠ f, d'.entries g = d.entries g
  content : d.entries f = none → ∀ g ≠ f, d'.content g = d.content g
  there : d'.exists? f

/-- The open file of the upload is the one its name leads to, and no other name's if there was
nothing under it. -/
def Private (d d' : Folder Filename) (f : Filename) (ino : ℕ) : Prop :=
  d'.inode f = some ino ∧ (d.entries f = none → ∀ g ≠ f, d'.inode g ≠ some ino)

/-- What an upload has made of the folder when it comes to its cleanup. -/
def Kept (d d' : Folder Filename) (f : Filename) (calls : List UploadCall) : Prop :=
  .openFile true ∉ calls ∧ d' = d ∨ .openFile true ∈ calls ∧ Touched d d' f

/-- The cleanup has left nothing under the name, and the rest as it was if there was nothing; or
nothing was opened, and there was nothing to remove. -/
structure Cleaned (d d' : Folder Filename) (f : Filename) (calls : List UploadCall) : Prop where
  entries : d.entries f = none → d'.entries = d.entries
  content : d.entries f = none → ∀ g, d'.content g = d.content g
  same : d.exists? f = false → .openFile true ∉ calls → d' = d
  gone : d.exists? f ∨ .openFile true ∈ calls → d'.entries f = none

/-- The server `s` with the upload's space reserved and its name in the index. -/
def Held (s s' : Server) (u : Upload) : Prop :=
  s'.usedSpace = s.usedSpace + u.fileSize ∧
    s'.filesInStorage = s.filesInStorage.insert u.filename

/-- The upload has opened no file, and its port was announced. -/
def Unopened (calls : List UploadCall) : Prop :=
  .announce none ∉ calls ∧ .openFile true ∉ calls

/-- What an upload that began at the server `s` has done to it, where it stands after the
calls. -/
def Left (s : Server) (u : Upload) (calls : List UploadCall) (x : Server × UploadPc) : Prop :=
  match x.2 with
  | .start => x.1 = s ∧ Unopened calls
  | .refusing | .refused => x.1 = s ∧ ¬LetIn s u
  | .reserved => x.1 = { s with usedSpace := s.usedSpace + u.fileSize } ∧
      Unopened calls ∧ acceptableName u.filename ∧ (s.checkAndReserveSpace u.fileSize).1
  | .nameTaken => x.1 = { s with usedSpace := s.usedSpace + u.fileSize } ∧ ¬LetIn s u
  | .accepted | .waiting | .connecting | .opening _ =>
    LetIn s u ∧ Unopened calls ∧ Held s x.1 u ∧ x.1.folder = s.folder
  | .announceFailed =>
    LetIn s u ∧ .announce none ∈ calls ∧ Held s x.1 u ∧ x.1.folder = s.folder
  | .announceReleased =>
    LetIn s u ∧ .announce none ∈ calls ∧ x.1.usedSpace = s.usedSpace ∧
      x.1.filesInStorage = s.filesInStorage.insert u.filename ∧ x.1.folder = s.folder
  | .receiving _ st _ _ | .closing _ st _ _ =>
    LetIn s u ∧ (.announce none ∉ calls ∧ .openFile true ∈ calls) ∧ Held s x.1 u ∧
      Touched s.folder x.1.folder u.filename ∧ Private s.folder x.1.folder u.filename st.ino
  | .checking =>
    LetIn s u ∧ .announce none ∉ calls ∧ Held s x.1 u ∧
      Kept s.folder x.1.folder u.filename calls
  | .removing =>
    LetIn s u ∧ .announce none ∉ calls ∧ Held s x.1 u ∧
      (s.folder.exists? u.filename ∨ .openFile true ∈ calls) ∧
      Touched s.folder x.1.folder u.filename
  | .releasing =>
    LetIn s u ∧ .announce none ∉ calls ∧ Held s x.1 u ∧
      Cleaned s.folder x.1.folder u.filename calls
  | .forgetting =>
    LetIn s u ∧ .announce none ∉ calls ∧ x.1.usedSpace = s.usedSpace ∧
      x.1.filesInStorage = s.filesInStorage.insert u.filename ∧
      Cleaned s.folder x.1.folder u.filename calls
  | .failed =>
    LetIn s u ∧ x.1.usedSpace = s.usedSpace ∧ x.1.filesInStorage = s.filesInStorage ∧
      (.announce none ∈ calls ∧ x.1.folder = s.folder ∨
        .announce none ∉ calls ∧ Cleaned s.folder x.1.folder u.filename calls)
  | .kept _ | .uncaught _ => True

section Folder

variable {d d' d'' : Folder Filename} {f : Filename} {ino : ℕ} {bs : Bytes}
  {calls : List UploadCall}

theorem touched_refl (h : d.exists? f) : Touched d d f :=
  ⟨fun _ _ _ => rfl, fun _ _ _ => rfl, h⟩

theorem touched_openTruncate (h : d.openTruncate f = some (ino, d')) :
    Touched d d' f ∧ Private d d' f ino := by
  have hi := (d.inode_openTruncate h).1
  have hthere := d'.exists?_of_inode hi
  rcases d.openTruncate_eq h with ⟨-, rfl, rfl⟩ | ⟨hf, rfl⟩
  · refine ⟨⟨fun _ g hg => Function.update_of_ne hg .., fun _ g hg => by simp [hg], hthere⟩,
      hi, fun _ g hg => ?_⟩
    rw [d.inode_create, if_neg hg]
    exact fun hi => absurd (d.inode_lt hi) (lt_irrefl _)
  · have hno : d.entries f ≠ none := by simp [d.inode_eq_some_iff.mp hf]
    exact ⟨⟨fun hn => (hno hn).elim, fun hn => (hno hn).elim, hthere⟩, hi,
      fun hn => (hno hn).elim⟩

theorem Touched.setContents (h : Touched d d' f) (hp : Private d d' f ino) :
    Touched d (d'.setContents ino bs) f ∧ Private d (d'.setContents ino bs) f ino :=
  ⟨⟨h.entries, fun hn g hg =>
    (d'.content_setContents_of_ne (hp.2 hn g hg)).trans (h.content hn g hg), h.there⟩, hp⟩

/-- Once the name is gone, and nothing else has changed, the cleanup is done. -/
theorem Touched.remove (h : Touched d d' f) (hr : d'.remove f = some d'')
    (hopen : d.exists? f ∨ .openFile true ∈ calls) : Cleaned d d'' f calls := by
  have hgone := d'.entries_remove hr
  have hc := Folder.changesOnly_remove hr
  have hentries : ∀ g ≠ f, d''.entries g = d'.entries g := by
    intro g hg
    rcases d'.remove_eq_unlink hr with ⟨rfl, -⟩ | rfl
    · rfl
    · exact Function.update_of_ne hg ..
  refine ⟨fun hn => funext fun g => ?_, fun hn g => ?_, fun hno hcalls => ?_, fun _ => hgone⟩
  · by_cases hg : g = f
    · rw [hg, hgone, hn]
    · rw [hentries g hg, h.entries hn g hg]
  · by_cases hg : g = f
    · simp [hg, Folder.content, Folder.inode, hgone, hn]
    · rw [hc.content hg, h.content hn g hg]
  · rcases hopen with hopen | hopen
    · cases hno.symm.trans hopen
    · exact (hcalls hopen).elim

/-- An upload that finds nothing to remove has opened nothing. -/
theorem Kept.absent (h : Kept d d' f calls) (hexists : d'.exists? f = false) :
    Cleaned d d' f calls := by
  rcases h with ⟨hcalls, rfl⟩ | ⟨-, ht⟩
  · refine ⟨fun _ => rfl, fun _ _ => rfl, fun _ _ => rfl, fun h => ?_⟩
    rcases h with h | h
    · cases hexists.symm.trans h
    · exact (hcalls h).elim
  · cases hexists.symm.trans ht.there

theorem Kept.found (h : Kept d d' f calls) (hexists : d'.exists? f) :
    (d.exists? f ∨ .openFile true ∈ calls) ∧ Touched d d' f := by
  rcases h with ⟨-, rfl⟩ | ⟨hcalls, ht⟩
  · exact ⟨Or.inl hexists, touched_refl hexists⟩
  · exact ⟨Or.inr hcalls, ht⟩

theorem Cleaned.append (h : Cleaned d d' f calls) {c : UploadCall} (hc : c ≠ .openFile true) :
    Cleaned d d' f (calls ++ [c]) := by
  have hmem : .openFile true ∈ calls ++ [c] ↔ .openFile true ∈ calls := by simp [hc.symm]
  exact ⟨h.entries, h.content, fun hd hno => h.same hd fun hm => hno (hmem.mpr hm),
    fun hd => h.gone (hd.imp_right hmem.mp)⟩

end Folder

variable {s : Server} {u : Upload} {calls : List UploadCall} {x x' : Server × UploadPc}
  {c : UploadCall}

theorem left_afterTransfer {failed : Bool} {toUpload : UInt64} {received : Bytes} {s' : Server}
    (hl : LetIn s u) (hcalls : .announce none ∉ calls) (hheld : Held s s' u)
    (ht : Kept s.folder s'.folder u.filename calls) :
    Left s u calls (s', afterTransfer failed toUpload received) := by
  unfold afterTransfer
  split_ifs
  · exact ⟨hl, hcalls, hheld, ht⟩
  · trivial

theorem Unopened.append (h : Unopened calls) (ha : c ≠ .announce none) (ho : c ≠ .openFile true) :
    Unopened (calls ++ [c]) := by
  simpa [Unopened, ha.symm, ho.symm] using h

/-- Every call of the upload leaves what is expected where it leads. -/
theorem Left.next (h : Left s u calls x) (hn : alone u x c = some x') :
    Left s u (calls ++ [c]) x' := by
  obtain ⟨s₁, p⟩ := x
  obtain ⟨s', pc⟩ := x'
  unfold Left at h
  have hnot : .announce none ∉ calls → c ≠ .announce none → .announce none ∉ calls ++ [c] := by
    intro h hc
    simpa [h] using hc.symm
  have hin : ∀ {b}, b ∈ calls → b ∈ calls ++ [c] := List.mem_append_left _
  cases next_cases hn with
  | reserve before name fits =>
    obtain rfl : p = .start := before
    obtain ⟨rfl, hcalls⟩ := h
    exact ⟨rfl, hcalls.append (by simp) (by simp), name, (s₁.checkAndReserveSpace_iff _).mpr fits⟩
  | reject before unfit =>
    obtain rfl : p = .start := before
    obtain ⟨rfl, hcalls⟩ := h
    exact ⟨rfl, fun hl => unfit ⟨hl.1, hl.2.1⟩⟩
  | add before fresh =>
    obtain rfl : p = .reserved := before
    obtain ⟨rfl, hcalls, hname, hfits⟩ := h
    exact ⟨⟨hname, hfits, fresh⟩, hcalls.append (by simp) (by simp), ⟨rfl, rfl⟩, rfl⟩
  | taken before mem =>
    obtain rfl : p = .reserved := before
    obtain ⟨rfl, -⟩ := h
    exact ⟨rfl, fun hl => hl.2.2 mem⟩
  | freeTaken before =>
    obtain rfl : p = .nameTaken := before
    obtain ⟨rfl, hl⟩ := h
    exact ⟨by simp [Server.freeSpace], hl⟩
  | freeAnnounce before =>
    obtain rfl : p = .announceFailed := before
    obtain ⟨hl, hcalls, ⟨hused, hfiles⟩, hfolder⟩ := h
    exact ⟨hl, hin hcalls, (congrArg (· - u.fileSize) hused).trans (add_sub_cancel_right _ _),
      hfiles, hfolder⟩
  | free before =>
    obtain rfl : p = .releasing := before
    obtain ⟨hl, hcalls, ⟨hused, hfiles⟩, hfolder⟩ := h
    exact ⟨hl, hnot hcalls (by simp),
      (congrArg (· - u.fileSize) hused).trans (add_sub_cancel_right _ _), hfiles,
      hfolder.append (by simp)⟩
  | forget before =>
    rcases before with before | before
    · obtain rfl : p = .announceReleased := before
      obtain ⟨hl, hcalls, hused, hfiles, hfolder⟩ := h
      exact ⟨hl, hused, (congrArg (SortedSet.erase · u.filename) hfiles).trans
        (SortedSet.erase_insert hl.2.2), Or.inl ⟨hin hcalls, hfolder⟩⟩
    · obtain rfl : p = .forgetting := before
      obtain ⟨hl, hcalls, hused, hfiles, hfolder⟩ := h
      exact ⟨hl, hused, (congrArg (SortedSet.erase · u.filename) hfiles).trans
        (SortedSet.erase_insert hl.2.2),
        Or.inr ⟨hnot hcalls (by simp), hfolder.append (by simp)⟩⟩
  | announce before port =>
    obtain rfl : p = .accepted := before
    exact ⟨h.1, h.2.1.append (by simp) (by simp), h.2.2⟩
  | announceFail before =>
    obtain rfl : p = .accepted := before
    exact ⟨h.1, by simp, h.2.2⟩
  | refuse before ok =>
    obtain rfl : p = .refusing := before
    exact h
  | ready before =>
    obtain rfl : p = .waiting := before
    exact ⟨h.1, h.2.1.append (by simp) (by simp), h.2.2⟩
  | @notReady result before unready =>
    obtain rfl : p = .waiting := before
    obtain ⟨hl, hcalls, hheld, hfolder⟩ := h
    have hcalls := hcalls.append (c := .select result) (by simp) (by simp)
    exact ⟨hl, hcalls.1, hheld, Or.inl ⟨hcalls.2, hfolder⟩⟩
  | accept before ok =>
    obtain rfl : p = .connecting := before
    exact ⟨h.1, h.2.1.append (by simp) (by simp), h.2.2⟩
  | @create failed ino folder before opened =>
    obtain rfl : p = .opening failed := before
    obtain ⟨hl, hcalls, hheld, hfolder⟩ := h
    dsimp only at hfolder
    rw [hfolder] at opened
    exact ⟨hl, ⟨hnot hcalls.1 (by simp), by simp⟩, hheld, touched_openTruncate opened⟩
  | @openFail failed before =>
    obtain rfl : p = .opening failed := before
    obtain ⟨hl, hcalls, hheld, hfolder⟩ := h
    have hcalls := hcalls.append (c := .openFile false) (by simp) (by simp)
    exact ⟨hl, hcalls.1, hheld, Or.inl ⟨hcalls.2, hfolder⟩⟩
  | @piece failed st toUpload received bs before pos le =>
    obtain rfl : p = .receiving failed st toUpload received := before
    obtain ⟨hl, hcalls, hheld, ht, hp⟩ := h
    refine ⟨hl, ⟨hnot hcalls.1 (by simp), hin hcalls.2⟩, hheld, ht, ?_⟩
    rwa [Stream.ino_write]
  | @endOfStream failed st toUpload received before | @readFail failed st toUpload received before =>
    obtain rfl : p = .receiving failed st toUpload received := before
    exact ⟨h.1, ⟨hnot h.2.1.1 (by simp), hin h.2.1.2⟩, h.2.2⟩
  | @flush failed st toUpload received before n =>
    obtain rfl : p = .receiving failed st toUpload received := before
    obtain ⟨hl, hcalls, hheld, ht, hp⟩ := h
    exact ⟨hl, ⟨hnot hcalls.1 (by simp), hin hcalls.2⟩, hheld, ht.setContents hp⟩
  | @spoil failed st toUpload received before n =>
    obtain rfl : p = .receiving failed st toUpload received := before
    exact ⟨h.1, ⟨hnot h.2.1.1 (by simp), hin h.2.1.2⟩, h.2.2⟩
  | @close failed st toUpload received before =>
    obtain rfl : p = .closing failed st toUpload received := before
    obtain ⟨hl, hcalls, hheld, ht, hp⟩ := h
    exact left_afterTransfer hl (hnot hcalls.1 (by simp)) hheld
      (Or.inr ⟨hin hcalls.2, (ht.setContents hp).1⟩)
  | @closeFail failed st toUpload received before =>
    obtain rfl : p = .closing failed st toUpload received := before
    obtain ⟨hl, hcalls, hheld, ht, -⟩ := h
    exact left_afterTransfer hl (hnot hcalls.1 (by simp)) hheld (Or.inr ⟨hin hcalls.2, ht⟩)
  | found before exist =>
    obtain rfl : p = .checking := before
    obtain ⟨hl, hcalls, hheld, hkept⟩ := h
    obtain ⟨hopen, ht⟩ := hkept.found exist
    exact ⟨hl, hnot hcalls (by simp), hheld, hopen.imp_right hin, ht⟩
  | absent before exist =>
    obtain rfl : p = .checking := before
    obtain ⟨hl, hcalls, hheld, hkept⟩ := h
    exact ⟨hl, hnot hcalls (by simp), hheld, (hkept.absent exist).append (by simp)⟩
  | remove before removed =>
    obtain rfl : p = .removing := before
    obtain ⟨hl, hcalls, hheld, hopen, ht⟩ := h
    exact ⟨hl, hnot hcalls (by simp), hheld, (ht.remove removed hopen).append (by simp)⟩
  | existsThrows | removeThrows => trivial

/-- An upload that runs alone and is refused or fails leaves no trace exactly if the server does
not let it in, or its port cannot be announced, or there was nothing under its name, or a link
that leads nowhere and the upload opens no file. -/
theorem unchanged_iff {s' : Server} {pc : UploadPc} (hr : run (alone u) (s, .start) calls =
    some (s', pc)) (hend : pc = .refused ∨ pc = .failed) : s.Unchanged s' ↔
      ¬LetIn s u ∨ .announce none ∈ calls ∨ s.folder.entries u.filename = none ∨
        s.folder.entries u.filename = some .danglingLink ∧ .openFile true ∉ calls := by
  have h0 : Left s u [] (s, .start) := ⟨rfl, List.not_mem_nil, List.not_mem_nil⟩
  have h : Left s u calls (s', pc) :=
    run_induction_all (Left s u) h0 (fun _ _ _ _ _ h hs => h.next hs) hr
  rcases hend with rfl | rfl
  · obtain ⟨rfl, hl⟩ := h
    exact ⟨fun _ => Or.inl hl, fun _ => ⟨rfl, rfl, rfl, fun _ => rfl⟩⟩
  · obtain ⟨hl, hused, hfiles, ⟨hcalls, hfolder⟩ | ⟨hcalls, hc⟩⟩ := h
    · exact ⟨fun _ => Or.inr (Or.inl hcalls),
        fun _ => ⟨hfiles, hused, congrArg _ hfolder, fun g => congrArg (Folder.content · g) hfolder⟩⟩
    · constructor
      · intro h
        refine Or.inr (Or.inr ?_)
        by_cases hgone : s.folder.exists? u.filename ∨ .openFile true ∈ calls
        · exact Or.inl ((congrFun h.entries _).symm.trans (hc.gone hgone))
        · rw [not_or, Bool.not_eq_true, Folder.not_exists_iff] at hgone
          exact hgone.1.imp_right fun hlink => ⟨hlink, hgone.2⟩
      · rintro (hno | hno | hno | ⟨hlink, hno⟩)
        · exact (hno hl).elim
        · exact (hcalls hno).elim
        · exact ⟨hfiles, hused, hc.entries hno, hc.content hno⟩
        · have hsame := hc.same (s.folder.not_exists_iff.mpr (Or.inr hlink)) hno
          exact ⟨hfiles, hused, congrArg _ hsame, fun g => congrArg (Folder.content · g) hsame⟩

/-- An empty directory `d` in the folder. -/
def emptyDirectory : Folder Filename where
  entries f := if f = [100] then some (.directory true) else none
  contents _ := []
  next := 0
  fresh h := by
    split_ifs at h
    cases h

/-- No client connects to the upload. -/
def timesOut : List UploadCall :=
  [.checkAndReserveSpace, .addFileToStorage, .announce (some 5), .select .timeout]

/-- An upload of one byte. -/
def oneByte (f : Filename) : Upload :=
  ⟨⟨1, 1⟩, 1, f, 1, .start⟩

/-- A link `l` in the folder that leads nowhere. -/
def looseLink : Folder Filename where
  entries f := if f = [108] then some .danglingLink else none
  contents _ := []
  next := 0
  fresh h := by
    split_ifs at h
    cases h

/-- A name that is not there and a link that leads nowhere are as before. -/
theorem timesOut_unchanged :
    (∃ s', run (alone (oneByte [97]))
        (Server.generateFilesInStorage 10 emptyDirectory [[100]], .start)
        (timesOut ++ [.fileExists true, .freeSpace, .removeFileFromStorage]) = some (s', .failed) ∧
      (Server.generateFilesInStorage 10 emptyDirectory [[100]]).Unchanged s') ∧
    ∃ s', run (alone (oneByte [108]))
        (Server.generateFilesInStorage 10 looseLink [[108]], .start)
        (timesOut ++ [.fileExists true, .freeSpace, .removeFileFromStorage]) = some (s', .failed) ∧
      (Server.generateFilesInStorage 10 looseLink [[108]]).Unchanged s' := by
  constructor
  · obtain ⟨⟨s', pc⟩, hr, hpc⟩ : ∃ x, run (alone (oneByte [97]))
        (Server.generateFilesInStorage 10 emptyDirectory [[100]], .start)
        (timesOut ++ [.fileExists true, .freeSpace, .removeFileFromStorage]) = some x ∧
        decide (x.2 = .failed) := exists_run_of_any _ (by decide)
    obtain rfl : pc = .failed := of_decide_eq_true hpc
    exact ⟨s', hr, (unchanged_iff hr (Or.inr rfl)).mpr (by decide)⟩
  · obtain ⟨⟨s', pc⟩, hr, hpc⟩ : ∃ x, run (alone (oneByte [108]))
        (Server.generateFilesInStorage 10 looseLink [[108]], .start)
        (timesOut ++ [.fileExists true, .freeSpace, .removeFileFromStorage]) = some x ∧
        decide (x.2 = .failed) := exists_run_of_any _ (by decide)
    obtain rfl : pc = .failed := of_decide_eq_true hpc
    exact ⟨s', hr, (unchanged_iff hr (Or.inr rfl)).mpr (by decide)⟩

/-- The directory is removed by the cleanup of an upload that has not touched it. -/
theorem timesOut_not_unchanged : ∃ s', run (alone (oneByte [100]))
      (Server.generateFilesInStorage 10 emptyDirectory [[100]], .start)
      (timesOut ++ [.fileExists true, .removeFile true, .freeSpace, .removeFileFromStorage]) =
        some (s', .failed) ∧
    ¬(Server.generateFilesInStorage 10 emptyDirectory [[100]]).Unchanged s' := by
  obtain ⟨⟨s', pc⟩, hr, hx⟩ : ∃ x, run (alone (oneByte [100]))
      (Server.generateFilesInStorage 10 emptyDirectory [[100]], .start)
      (timesOut ++ [.fileExists true, .removeFile true, .freeSpace, .removeFileFromStorage]) =
        some x ∧ decide (x.2 = .failed ∧ x.1.folder.entries [100] = none) :=
    exists_run_of_any _ (by decide)
  obtain ⟨rfl, hgone⟩ : pc = .failed ∧ s'.folder.entries [100] = none := of_decide_eq_true hx
  refine ⟨s', hr, fun h => ?_⟩
  rw [h.entries] at hgone
  cases hgone

end Upload

end Netstore
