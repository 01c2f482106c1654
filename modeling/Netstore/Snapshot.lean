import Netstore.Durability
import Netstore.Refinement

/-!
# Files that are open for reading

A download reads the file that its name led to when it opened it, whatever becomes of the
name. In orderly runs no upload writes to that file (`Settled`), for an upload creates its
own, and the bytes of a file that no upload owns are those of an initial file or of an
upload that was kept (`Intact`). So a download that does not fail, and opens its file while
no upload of the name is under way, gives all of such a file (`Download.Gives`).
-/

namespace Netstore

/-- The stream that an upload has open. -/
def UploadPc.stream : UploadPc → Option Stream
  | receiving _ st _ _ | closing _ st _ _ => some st
  | _ => none

/-- What a download has written to the connection. -/
def DownloadPc.sent : DownloadPc → Bytes
  | reading _ _ sent | writing _ _ _ _ sent | ended sent => sent
  | _ => []

namespace World

open Transition

/-- The bytes are those of an initial file of the name, or all that a kept upload of it has
received. -/
def Complete (w₀ w : World) (f : Filename) (bs : Bytes) : Prop :=
  w₀.server.folder.content f = some bs ∨
    ∃ u ∈ w.uploads, u.filename = f ∧ u.pc = .kept bs ∧ bs.length = u.fileSize.toNat

/-- The inode has these bytes, and no upload has it open. -/
structure Settled (w : World) (ino : ℕ) (bs : Bytes) : Prop where
  lt : ino < w.server.folder.next
  contents : w.server.folder.contents ino = bs
  closed : ∀ u ∈ w.uploads, ∀ st, u.pc.stream = some st → st.ino ≠ ino

variable {w₀ w w' : World} {a : Action} {f : Filename} {bs : Bytes} {ino : ℕ}

/-! ## Complete bytes -/

theorem Complete.step (h : Complete w₀ w f bs) (hs : w.step a = some w') :
    Complete w₀ w' f bs := by
  refine h.imp_right fun ⟨u, hu, hf, hpc, hlen⟩ => ?_
  obtain ⟨i, hi⟩ := List.mem_iff_getElem?.mp hu
  obtain ⟨u', hu', rfl | ⟨c, s, pc, -, hn, -⟩⟩ := thread_step hs hi
  · exact ⟨u', List.mem_of_getElem? hu', hf, hpc, hlen⟩
  · rw [Upload.next_of_ended (by rw [hpc]; rfl)] at hn
    cases hn

/-- The upload that owns a name leaves it when it is kept, or takes it out of the index. -/
theorem kept_of_not_owned (hs : w.step a = some w') (hf : w.Owned f) (hf' : ¬w'.Owned f) :
    f ∉ w'.server.filesInStorage ∨
      ∃ (i : ℕ) (u : Upload) (bs : Bytes), w.uploads[i]?.map Upload.pc ≠ some (.kept bs) ∧
        w'.uploads[i]? = some u ∧ u.pc = .kept bs ∧ u.filename = f := by
  cases step_cases hs with
  | @upload i c u s pc thread next terminated =>
    rw [owned_set thread] at hf'
    obtain ⟨howns, hname⟩ := ((owned_self thread).mp hf).resolve_right fun h => hf' (Or.inr h)
    have hleft : ¬pc.owns := fun ho => hf' (Or.inl ⟨ho, hname⟩)
    cases Upload.next_indexEffect next with
    | stay files owns => exact (hleft (owns ▸ howns)).elim
    | insert fresh before after eq =>
      rw [before] at howns
      cases howns
    | erase before owned after eq => exact Or.inl (by simp [eq, hname])
    | keep bs files owned after =>
      refine Or.inr ⟨i, { u with pc := pc }, bs, ?_, ?_, after, hname⟩
      · rw [thread]
        intro hpc
        rw [Option.some.inj hpc] at owned
        cases owned
      · exact (getElem?_set_eq_some thread).mpr (Or.inl ⟨rfl, rfl⟩)
  | spawn idle request =>
    obtain ⟨u, hu, ho⟩ := hf
    exact (hf' ⟨u, List.mem_append_left _ hu, ho⟩).elim
  | erase idle request => exact (hf' hf).elim
  | removal loop next => cases removeNext_cases next <;> exact (hf' hf).elim
  | other call server uploads removal =>
    refine (hf' ?_).elim
    rwa [Owned, uploads]

/-- A file that no upload owns, or that is being removed, is complete. -/
def Intact (w₀ w : World) : Prop :=
  ∀ f bs, ¬w.Owned f ∨ w.loop.target = some f → w.server.folder.content f = some bs →
    Complete w₀ w f bs

/-- No orderly step changes the bytes of such a file, but for its removal. -/
theorem Undisturbed.content_eq (hw : Undisturbed w) (ha : Orderly w a) (hs : w.step a = some w')
    (hf : ¬w.Owned f ∨ w.loop.target = some f) (hbs : w'.server.folder.content f = some bs) :
    w.server.folder.content f = some bs := by
  cases step_cases hs with
  | upload thread next terminated => exact (hw.content_upload thread next ha hf).symm.trans hbs
  | spawn => exact hbs
  | erase => exact hbs
  | @removal c g pc w' loop next =>
    cases removeNext_cases next with
    | remove before removed =>
      rw [w.server.folder.content_remove removed] at hbs
      split_ifs at hbs
      exact hbs
    | _ => exact hbs
  | other call server uploads removal => rwa [server] at hbs

/-- A removal begins only for a name that no upload owns. -/
theorem target_step (ha : NoOverlap w a) (hs : w.step a = some w') (hf : w.Owned f)
    (ht : w'.loop.target = some f) : w.loop.target = some f := by
  cases step_cases hs with
  | upload thread next terminated => exact ht
  | spawn idle request => exact ht
  | @erase d g idle request =>
    have hg : ¬w.Owned g := ha g (Action.removes_receive request)
    unfold start at ht
    dsimp only at ht
    split_ifs at ht
    · obtain rfl : g = f := Option.some.inj ht
      exact (hg hf).elim
    · cases ht
  | @removal c g pc w' loop next =>
    have htarget : w.loop.target = some g := by rw [loop]; rfl
    cases removeNext_cases next with
    | measure before content => exact htarget.trans ht
    | release before => exact htarget.trans ht
    | remove before removed => cases ht
    | fail call => cases ht
  | other call server uploads removal => rwa [Loop.target, removal] at ht

theorem Intact.step (h : Intact w₀ w) (hw : Undisturbed w) (ha : Orderly w a)
    (hs : w.step a = some w') : Intact w₀ w' := by
  intro f bs hf' hbs
  by_cases hf : ¬w.Owned f ∨ w.loop.target = some f
  · exact (h f bs hf (hw.content_eq ha hs hf hbs)).step hs
  · rw [not_or, not_not] at hf
    have ht : w'.loop.target ≠ some f := fun ht => hf.2 (target_step ha.2 hs hf.1 ht)
    rcases kept_of_not_owned hs hf.1 (hf'.resolve_right ht) with
      hindex | ⟨i, u, bs', hbefore, hu, hpc, rfl⟩
    · have hnone := ((hw.step ha hs).absent hindex).resolve_right ht
      rw [Folder.content, hnone] at hbs
      cases hbs
    · obtain ⟨hlen, -, hcont⟩ := hw.ends_kept ha hs hbefore hu hpc
      obtain rfl : bs' = bs := Option.some.inj (hcont.symm.trans hbs)
      exact Or.inr ⟨u, List.mem_of_getElem? hu, rfl, hpc, hlen⟩

theorem intact_self (w : World) : Intact w w :=
  fun _ _ _ hbs => Or.inl hbs

/-! ## Settled inodes -/

/-- A file that no upload owns is open in none. -/
theorem Undisturbed.settled (h : Undisturbed w) (hf : ¬w.Owned f)
    (hino : w.server.folder.inode f = some ino) :
    Settled w ino (w.server.folder.contents ino) where
  lt := w.server.folder.inode_lt hino
  contents := rfl
  closed u hu st hst he := by
    obtain ⟨i, hi⟩ := List.mem_iff_getElem?.mp hu
    have hdisk := h.onDisk hi
    have hlive : u.pc.owns ∧ w.server.folder.Sole u.filename st.ino := by
      unfold Upload.OnDisk at hdisk
      cases hpc : u.pc <;> rw [hpc] at hst <;> cases hst <;> rw [hpc] at hdisk <;>
        exact ⟨rfl, hdisk.sole⟩
    exact hf ⟨u, hu, hlive.1, (hlive.2.2 f (he ▸ hino)).symm⟩

end World

/-- A call of an upload that creates its file leaves the files that it has not open. -/
theorem Upload.settled_next {s s' : Server} {u : Upload} {c : UploadCall} {pc : UploadPc}
    {target : Option Filename} {ino : ℕ} (h : u.next s c = some (s', pc))
    (hu : u.OnDisk s.folder target) (ht : c.touches → target ≠ some u.filename)
    (hlt : ino < s.folder.next) (hst : ∀ st, u.pc.stream = some st → st.ino ≠ ino) :
    (ino < s'.folder.next ∧ s'.folder.contents ino = s.folder.contents ino) ∧
      ∀ st, pc.stream = some st → st.ino ≠ ino := by
  cases next_cases h with
  | @create failed ino' folder before opened =>
    unfold OnDisk at hu
    rw [before] at hu
    obtain ⟨rfl, rfl⟩ := s.folder.openTruncate_of_inode_none (hu.resolve_right (ht rfl)) opened
    refine ⟨⟨Nat.lt_succ_of_lt hlt, s.folder.contents_create_of_lt hlt⟩, fun st he => ?_⟩
    cases he
    exact hlt.ne'
  | @piece failed st toUpload received bs before =>
    refine ⟨⟨hlt, rfl⟩, fun st' he => ?_⟩
    cases he
    rw [Stream.ino_write]
    exact hst st (by rw [before]; rfl)
  | @flush failed st toUpload received before n =>
    have hne : st.ino ≠ ino := hst st (by rw [before]; rfl)
    refine ⟨⟨hlt, s.folder.contents_setContents_of_ne hne.symm⟩, fun st' he => ?_⟩
    cases he
    exact hne
  | @close failed st toUpload received before =>
    have hne : st.ino ≠ ino := hst st (by rw [before]; rfl)
    refine ⟨⟨hlt, s.folder.contents_setContents_of_ne hne.symm⟩, fun st' he => ?_⟩
    unfold afterTransfer at he
    split_ifs at he <;> cases he
  | closeFail before =>
    refine ⟨⟨hlt, rfl⟩, fun st' he => ?_⟩
    unfold afterTransfer at he
    split_ifs at he <;> cases he
  | @endOfStream failed st toUpload received before | @readFail failed st toUpload received before
  | @spoil failed st toUpload received before =>
    refine ⟨⟨hlt, rfl⟩, fun st' he => ?_⟩
    cases he
    exact hst st (by rw [before]; rfl)
  | remove before removed =>
    obtain ⟨hcontents, hnext⟩ := s.folder.contents_remove removed
    exact ⟨⟨hnext ▸ hlt, by rw [hcontents]⟩, fun st he => by cases he⟩
  | _ => exact ⟨⟨hlt, rfl⟩, fun st he => by cases he⟩

namespace World

variable {w₀ w w' : World} {a : Action} {f : Filename} {bs : Bytes} {ino : ℕ}

/-- No orderly step writes to a settled inode. -/
theorem Settled.step (h : Settled w ino bs) (hw : Undisturbed w) (ha : Orderly w a)
    (hs : w.step a = some w') : Settled w' ino bs := by
  obtain ⟨hlt, hcontents, hclosed⟩ := h
  cases step_cases hs with
  | @upload i c u s pc thread next terminated =>
    obtain ⟨⟨hlt', hcontents'⟩, hst⟩ := Upload.settled_next next (hw.onDisk thread)
      (fun ht => ha.2 ht u (by simp [thread])) hlt (hclosed u (List.mem_of_getElem? thread))
    refine ⟨hlt', hcontents'.trans hcontents, fun v hv => ?_⟩
    rcases mem_set_of_getElem? thread hv with rfl | ⟨j, -, hj⟩
    · exact hst
    · exact hclosed v (List.mem_of_getElem? hj)
  | spawn idle request =>
    refine ⟨hlt, hcontents, fun v hv => ?_⟩
    rcases List.mem_append.mp hv with hv | hv
    · exact hclosed v hv
    · rw [List.mem_singleton.mp hv]
      exact fun st he => by cases he
  | erase idle request => exact ⟨hlt, hcontents, hclosed⟩
  | removal loop next =>
    cases removeNext_cases next with
    | remove before removed =>
      obtain ⟨hcontents', hnext⟩ := w.server.folder.contents_remove removed
      exact ⟨hnext.symm ▸ hlt, by rw [hcontents', hcontents], hclosed⟩
    | _ => exact ⟨hlt, hcontents, hclosed⟩
  | other call server uploads removal =>
    exact ⟨server ▸ hlt, server ▸ hcontents, uploads ▸ hclosed⟩

end World

/-! ## Downloads -/

namespace Download

open World

/-- Where a download that does not fail stands in the file that it opened, which is complete. -/
def Gives (w₀ w : World) (u : Download) : Prop :=
  match u.pc with
  | .announcing | .waiting | .connecting | .opening => True
  | .reading ino offset sent =>
    ∃ bs, w₀.Complete w u.filename bs ∧ w.Settled ino bs ∧ sent = bs.take offset
  | .writing ino offset block more sent =>
    ∃ bs, w₀.Complete w u.filename bs ∧ w.Settled ino bs ∧ sent = bs.take offset ∧
      block = (bs.drop offset).take maxBufferSize ∧ more = decide (block.length = maxBufferSize)
  | .ended sent => w₀.Complete w u.filename sent
  | .uncaught _ => False

variable {w₀ w w' : World} {u : Download} {c : DownloadCall} {pc : DownloadPc}

/-- The steps of the server leave it there. -/
theorem Gives.step {a : Action} (h : u.Gives w₀ w) (hw : Undisturbed w) (ha : Orderly w a)
    (hs : w.step a = some w') : u.Gives w₀ w' := by
  unfold Gives at h ⊢
  cases hpc : u.pc with
  | announcing | waiting | connecting | opening => trivial
  | reading ino offset sent =>
    rw [hpc] at h
    obtain ⟨bs, hc, hset, hsent⟩ := h
    exact ⟨bs, hc.step hs, hset.step hw ha hs, hsent⟩
  | writing ino offset block more sent =>
    rw [hpc] at h
    obtain ⟨bs, hc, hset, hsent⟩ := h
    exact ⟨bs, hc.step hs, hset.step hw ha hs, hsent⟩
  | ended sent =>
    rw [hpc] at h
    exact h.step hs
  | uncaught e =>
    rw [hpc] at h
    exact h.elim

/-- So does a call of its own that does not fail, if no upload of the name is under way when
the file is opened. -/
theorem Gives.next (h : u.Gives w₀ w) (hw : Undisturbed w) (hintact : w₀.Intact w)
    (hn : u.next w.server c = some pc) (hc : c.succeeds)
    (hopen : c = .openFile true → ¬w.Owned u.filename) : Gives w₀ w { u with pc := pc } := by
  unfold Gives at h
  cases next_cases hn with
  | announce before port | ready before | accept before => trivial
  | @openFile ino before opened =>
    have hf := hopen rfl
    have hcontent : w.server.folder.content u.filename = some (w.server.folder.contents ino) := by
      rw [Folder.content, opened, Option.map_some]
    exact ⟨_, hintact _ _ (Or.inl hf) hcontent, hw.settled hf opened, List.take_zero.symm⟩
  | readFile before =>
    rw [before] at h
    obtain ⟨bs, hcomplete, hset, hsent⟩ := h
    exact ⟨bs, hcomplete, hset, hsent, by rw [block, hset.contents], rfl⟩
  | write before =>
    rw [before] at h
    obtain ⟨bs, hcomplete, hset, rfl, hblock, -⟩ := h
    exact ⟨bs, hcomplete, hset, Bytes.take_append_block hblock⟩
  | @writeLast ino offset block sent before =>
    rw [before] at h
    obtain ⟨bs, hcomplete, -, rfl, hblock, hmore⟩ := h
    have hlen : block.length ≠ maxBufferSize := by simpa using hmore
    rw [Gives, Bytes.take_append_last hblock hlen]
    exact hcomplete
  | notReady before result => exact (result (by simpa [DownloadCall.succeeds] using hc)).elim
  | announceFail | acceptFail | openFail | readFail | writeFail => cases hc

/-- What is written to the connection is only added to. -/
theorem sent_next {s : Server} (hn : u.next s c = some pc) : u.pc.sent <+: pc.sent := by
  cases next_cases hn with
  | write before | writeLast before | writeFail before =>
    rw [before]
    exact List.prefix_append _ _
  | readFile before | readFail before =>
    rw [before]
    exact List.prefix_rfl
  | announce before | announceFail before | ready before | notReady before | accept before
  | acceptFail before | openFile before | openFail before =>
    rw [before]
    exact List.nil_prefix

end Download

end Netstore
