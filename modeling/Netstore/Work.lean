import Netstore.Escape
import Netstore.Replies

/-!
# The work that requests make

Every request makes a bounded number of calls, whatever the other handlers do meanwhile and
whatever the calls return : an upload at most one for each byte that it declares and a few more,
a download two for each full block of the longest file there can be and a few more. So a server
makes no more calls than its requests account for (`work_of_requests`), and when no more requests
come all its handlers end.

An announcement, with its socket, bind, listen and send, is one call here, and so is a files list
with all its sends. The calls that are not counted are those that write the buffer of a stream to
the disk, of which the library makes any number.
-/

namespace Netstore

open Transition

/-! ## What is left to do -/

namespace UploadPc

/-- The most calls that an upload of `n` bytes has before it. -/
def budget (n : ℕ) : UploadPc → ℕ
  | start => n + 12
  | reserved => n + 11
  | accepted => n + 10
  | waiting => n + 9
  | connecting => n + 8
  | opening _ => n + 7
  | receiving _ _ toUpload _ => toUpload.toNat + 6
  | closing _ _ _ _ => 5
  | checking => 4
  | removing => 3
  | nameTaken | announceFailed | releasing => 2
  | refusing | announceReleased | forgetting => 1
  | refused | failed | kept _ | uncaught _ => 0

end UploadPc

namespace DownloadPc

/-- The most calls that a download has before it when no file is longer than `n` bytes. -/
def budget (n : ℕ) : DownloadPc → ℕ
  | announcing => 2 * (n / maxBufferSize) + 6
  | waiting => 2 * (n / maxBufferSize) + 5
  | connecting => 2 * (n / maxBufferSize) + 4
  | opening => 2 * (n / maxBufferSize) + 3
  | reading _ offset _ => 2 * ((n - offset) / maxBufferSize) + 2
  | writing _ offset _ more _ => if more then 2 * ((n - offset) / maxBufferSize) + 1 else 1
  | ended _ | uncaught _ => 0

end DownloadPc

/-- The calls of a removal that are left. -/
def RemovalPc.budget : RemovalPc → ℕ
  | erased => 3
  | measured _ => 2
  | released => 1

/-- The calls that the loop can make before it waits again. -/
def Loop.budget : Loop → ℕ
  | .idle => 0
  | .discovering _ _ => 1
  | .removing _ pc => pc.budget

/-- The most calls that a request makes. -/
def Request.cost (n : ℕ) : Request → ℕ
  | .discover _ | .filesList _ _ => 1
  | .file _ _ => 2 * (n / maxBufferSize) + 6
  | .remove _ => 3
  | .upload _ _ fileSize => fileSize.toNat + 12

namespace Action

/-- The call is counted. -/
def counted : Action → Bool
  | .receive _ | .receiveFails | .upload _ (.flush _ _) => false
  | _ => true

/-- What the requests of a step cost. -/
def cost (n : ℕ) (a : Action) : ℕ :=
  (a.asks.map fun q => q.2.cost n).sum

/-- An upload that is asked for declares no more than `n` bytes. -/
def Fits (n : ℕ) (a : Action) : Prop :=
  ∀ q ∈ a.asks, match q.2 with
    | .upload _ _ fileSize => fileSize.toNat ≤ n
    | _ => True

instance (n : ℕ) (a : Action) : Decidable (a.Fits n) :=
  @List.decidableBAll _ _ (fun q => by split <;> infer_instance) a.asks

end Action

/-! ## No file is longer -/

/-- What the upload has written and will write is not longer. -/
def Upload.Within (n : ℕ) (u : Upload) : Prop :=
  u.fileSize.toNat ≤ n ∧
    match u.pc with
    | .receiving _ st toUpload _ => st.offset + st.buffer.length + toUpload.toNat ≤ n
    | .closing _ st _ _ => st.offset + st.buffer.length ≤ n
    | _ => True

/-- A full block that the download has read is not past the end. -/
def Download.Within (n : ℕ) (u : Download) : Prop :=
  match u.pc with
  | .writing _ offset block true _ => block.length = maxBufferSize ∧ offset + maxBufferSize ≤ n
  | _ => True

/-- No file of the folder is longer. -/
def Folder.Within (n : ℕ) (d : Folder Filename) : Prop :=
  ∀ ino, (d.contents ino).length ≤ n

namespace Folder.Within

variable {n : ℕ} {d d' : Folder Filename} {f : Filename} {ino : ℕ}

theorem setContents (h : d.Within n) {bs : Bytes} (hbs : bs.length ≤ n) :
    (d.setContents ino bs).Within n := by
  intro i
  by_cases hi : i = ino
  · subst hi
    simpa [Folder.setContents] using hbs
  · rw [d.contents_setContents_of_ne hi]
    exact h i

theorem openTruncate (h : d.Within n) (ho : d.openTruncate f = some (ino, d')) :
    d'.Within n := by
  rcases d.openTruncate_eq ho with ⟨-, rfl, rfl⟩ | ⟨-, rfl⟩
  · intro i
    by_cases hi : i = d.next
    · simp [Folder.create, hi]
    · have he : (d.create f).contents i = d.contents i := Function.update_of_ne hi _ _
      rw [he]
      exact h i
  · exact h.setContents (Nat.zero_le _)

theorem remove (h : d.Within n) (hr : d.remove f = some d') : d'.Within n := by
  intro i
  rw [(d.contents_remove hr).1]
  exact h i

/-- The buffer of a stream that ends before the bound can be written. -/
theorem flush (h : d.Within n) {st : Stream} (hst : st.offset + st.buffer.length ≤ n) (k : ℕ) :
    (st.flush d k).1.Within n := by
  refine h.setContents ?_
  rw [Bytes.length_overwrite, List.length_take]
  have := h st.ino
  omega

end Folder.Within

section Handlers

variable {n : ℕ} {s s' : Server}

/-- No call of an upload makes a file longer. -/
theorem Upload.Within.next {u : Upload} {c : UploadCall} {pc : UploadPc} (h : u.Within n)
    (hn : u.next s c = some (s', pc)) (hd : s.folder.Within n) :
    ({ u with pc := pc } : Upload).Within n ∧ s'.folder.Within n := by
  obtain ⟨hsize, hpc⟩ := h
  cases next_cases hn with
  | create before opened =>
    exact ⟨⟨hsize, by simpa using hsize⟩, hd.openTruncate opened⟩
  | @piece failed st toUpload received bs before pos le =>
    rw [before] at hpc
    refine ⟨⟨hsize, ?_⟩, hd⟩
    have hle : bs.length ≤ toUpload.toNat := le.trans (min_le_right ..)
    have hsub := toNat_sub_ofNat hle
    dsimp only at hpc ⊢
    rw [hsub]
    unfold Stream.write
    split_ifs
    · dsimp only
      rw [List.length_append]
      omega
    · omega
  | endOfStream before | readFail before =>
    rw [before] at hpc
    exact ⟨⟨hsize, Nat.le_of_add_right_le hpc⟩, hd⟩
  | @flush failed st toUpload received before k =>
    rw [before] at hpc
    refine ⟨⟨hsize, ?_⟩, hd.flush (Nat.le_of_add_right_le hpc) k⟩
    simp only [Stream.flush, List.length_take, List.length_drop]
    dsimp only at hpc
    omega
  | @spoil failed st toUpload received before k =>
    rw [before] at hpc
    refine ⟨⟨hsize, ?_⟩, hd⟩
    simp only [Stream.spoil, List.length_nil]
    dsimp only at hpc
    omega
  | close before =>
    rw [before] at hpc
    refine ⟨⟨hsize, ?_⟩, hd.flush hpc _⟩
    unfold afterTransfer
    split_ifs <;> trivial
  | closeFail before =>
    refine ⟨⟨hsize, ?_⟩, hd⟩
    unfold afterTransfer
    split_ifs <;> trivial
  | remove before removed => exact ⟨⟨hsize, trivial⟩, hd.remove removed⟩
  | _ => exact ⟨⟨hsize, trivial⟩, hd⟩

theorem Download.Within.next {u : Download} {c : DownloadCall} {pc : DownloadPc}
    (hn : u.next s c = some pc) (hd : s.folder.Within n) :
    ({ u with pc := pc } : Download).Within n := by
  cases next_cases hn with
  | @readFile ino offset sent before =>
    unfold Within
    dsimp only
    split
    · rename_i hpc
      simp only [DownloadPc.writing.injEq, decide_eq_true_eq] at hpc
      obtain ⟨rfl, rfl, rfl, hfull, rfl⟩ := hpc
      refine ⟨hfull, ?_⟩
      have hlen := hd ino
      have hpos : 0 < maxBufferSize := by decide
      rw [block, List.length_take, List.length_drop] at hfull
      omega
    · trivial
  | _ => trivial

/-- Every call of an upload that is counted leaves it less to do. -/
theorem Upload.budget_next {u : Upload} {c : UploadCall} {pc : UploadPc}
    (hn : u.next s c = some (s', pc)) (i : ℕ) :
    pc.budget u.fileSize.toNat + (Action.upload i c).counted.toNat ≤
      u.pc.budget u.fileSize.toNat := by
  cases next_cases hn with
  | @piece failed st toUpload received bs before pos le =>
    have hle : bs.length ≤ toUpload.toNat := le.trans (min_le_right ..)
    rw [before]
    simp only [UploadPc.budget, Action.counted, toNat_sub_ofNat hle, Bool.toNat_true]
    omega
  | close before | closeFail before =>
    rw [before]
    unfold afterTransfer
    split_ifs <;> simp [UploadPc.budget, Action.counted]
  | forget before => rcases before with before | before <;> rw [before] <;> exact le_rfl
  | _ => simp_all [UploadPc.budget, Action.counted]

theorem Download.budget_next {u : Download} {c : DownloadCall} {pc : DownloadPc}
    (hu : u.Within n) (hn : u.next s c = some pc) : pc.budget n + 1 ≤ u.pc.budget n := by
  cases next_cases hn with
  | @readFile ino offset sent before =>
    rw [before]
    simp only [DownloadPc.budget]
    split_ifs <;> omega
  | @write ino offset bs sent before =>
    unfold Within at hu
    rw [before] at hu ⊢
    obtain ⟨hfull, hle⟩ := hu
    have hpos : 0 < maxBufferSize := by decide
    have hdiv : (n - offset) / maxBufferSize =
        (n - (offset + maxBufferSize)) / maxBufferSize + 1 := by
      rw [← Nat.add_div_right _ hpos]
      congr 1
      omega
    simp only [DownloadPc.budget, hfull, if_true, hdiv]
    omega
  | writeFail before k =>
    rw [before]
    simp only [DownloadPc.budget]
    split_ifs <;> omega
  | _ => simp_all [DownloadPc.budget]

end Handlers

namespace World

/-- No file is longer than `n` bytes, and none will be. -/
structure Within (n : ℕ) (w : World) : Prop where
  folder : w.server.folder.Within n
  uploads : ∀ u ∈ w.uploads, u.Within n
  downloads : ∀ u ∈ w.downloads, u.Within n

/-- The most calls that are left when no more requests come. -/
def budget (n : ℕ) (w : World) : ℕ :=
  w.loop.budget + (w.uploads.map fun u => u.pc.budget u.fileSize.toNat).sum +
    (w.downloads.map fun u => u.pc.budget n).sum + (w.listings.map fun l => (!l.ended).toNat).sum

variable {n : ℕ} {w w' : World} {a : Action}

theorem within_start {source : SockAddr} {r : Request} (h : w.Within n)
    (hr : match r with | .upload _ _ fileSize => fileSize.toNat ≤ n | _ => True) :
    (w.start source r).Within n := by
  cases r with
  | file seq filename =>
    unfold start
    dsimp only
    split_ifs
    · refine ⟨h.folder, h.uploads, fun u hu => ?_⟩
      rcases List.mem_append.mp hu with hu | hu
      · exact h.downloads u hu
      · rw [List.mem_singleton.mp hu]
        trivial
    · exact h
  | upload seq filename fileSize =>
    refine ⟨h.folder, fun u hu => ?_, h.downloads⟩
    rcases List.mem_append.mp hu with hu | hu
    · exact h.uploads u hu
    · rw [List.mem_singleton.mp hu]
      exact ⟨hr, trivial⟩
  | discover | filesList | remove => exact ⟨h.folder, h.uploads, h.downloads⟩

/-- No file becomes longer than the bound. -/
theorem Within.step (h : w.Within n) (ha : a.Fits n) (hs : w.step a = some w') : w'.Within n := by
  cases move_of_step hs with
  | stay call => exact h
  | @start d r idle request =>
    exact within_start h (ha (d.source, r) (by simp [Action.asks, request]))
  | discovered loop => exact ⟨h.folder, h.uploads, h.downloads⟩
  | removal loop next =>
    cases removeNext_cases next with
    | remove before remove => exact ⟨h.folder.remove remove, h.uploads, h.downloads⟩
    | _ => exact ⟨h.folder, h.uploads, h.downloads⟩
  | upload thread next =>
    obtain ⟨hu, hd⟩ := (h.uploads _ (List.mem_of_getElem? thread)).next next h.folder
    refine ⟨hd, fun v hv => ?_, h.downloads⟩
    rcases mem_set_of_getElem? thread hv with rfl | ⟨j, -, hj⟩
    · exact hu
    · exact h.uploads v (List.mem_of_getElem? hj)
  | download thread next =>
    refine ⟨h.folder, h.uploads, fun v hv => ?_⟩
    rcases mem_set_of_getElem? thread hv with rfl | ⟨j, -, hj⟩
    · exact Download.Within.next next h.folder
    · exact h.downloads v (List.mem_of_getElem? hj)
  | list thread running => exact ⟨h.folder, h.uploads, h.downloads⟩

theorem budget_start (source : SockAddr) (r : Request) (hidle : w.loop = .idle) :
    (w.start source r).budget n ≤ w.budget n + r.cost n := by
  cases r with
  | discover seq =>
    simp only [start, budget, hidle, Loop.budget, Request.cost]
    omega
  | filesList seq pattern =>
    simp [start, budget, Request.cost]
    omega
  | file seq filename =>
    unfold start
    dsimp only
    split_ifs
    · simp [budget, Request.cost, DownloadPc.budget]
      omega
    · exact Nat.le_add_right ..
  | remove filename =>
    simp only [start, budget, hidle, Request.cost, Loop.budget]
    split_ifs <;> simp only [RemovalPc.budget] <;> omega
  | upload seq filename fileSize =>
    simp [start, budget, Request.cost, UploadPc.budget]
    omega

/-- A call that is counted leaves less to do, and a request adds no more than it costs. -/
theorem budget_step (h : w.Within n) (hs : w.step a = some w') :
    w'.budget n + a.counted.toNat ≤ w.budget n + a.cost n := by
  cases move_of_step hs with
  | stay call => rcases call with rfl | ⟨d, rfl, -⟩ <;> exact Nat.le_add_right ..
  | @start d r idle request =>
    have hcost : (Action.receive d).cost n = r.cost n := by
      simp [Action.cost, Action.asks, request]
    rw [hcost]
    exact budget_start d.source r idle
  | discovered loop =>
    simp only [budget, loop, Loop.budget, Action.counted, Bool.toNat_true]
    omega
  | removal loop next =>
    cases removeNext_cases next with
    | measure before | release before | remove before =>
      simp only [budget, loop, before, Loop.budget, RemovalPc.budget, Action.counted,
        Bool.toNat_true]
      omega
    | @fail c call =>
      rename_i f pc
      have hpos : 1 ≤ pc.budget := by cases pc <;> simp [RemovalPc.budget]
      simp only [budget, loop, Loop.budget, Action.counted, Bool.toNat_true]
      omega
  | @upload i c u s pc t thread next =>
    have hle := Upload.budget_next next i
    have hsum := sum_map_set (fun u : Upload => u.pc.budget u.fileSize.toNat)
      (b := ({ u with pc := pc } : Upload)) thread
    simp only [budget]
    dsimp only at hsum
    omega
  | @download i c u pc t thread next =>
    have hle := Download.budget_next (h.downloads u (List.mem_of_getElem? thread)) next
    have hsum := sum_map_set (fun u : Download => u.pc.budget n)
      (b := ({ u with pc := pc } : Download)) thread
    simp only [budget, Action.counted, Bool.toNat_true]
    dsimp only at hsum
    omega
  | @list i sends l thread running =>
    have hsum := sum_map_set (fun l : Listing => (!l.ended).toNat)
      (b := ({ l with ended := true } : Listing)) thread
    simp only [budget, Action.counted, Bool.toNat_true]
    simp only [running, Bool.not_true, Bool.not_false, Bool.toNat_true, Bool.toNat_false] at hsum
    omega

theorem within_of_run {s : Server} {as : List Action} (hs : s.folder.Within n)
    (hr : run (initial s) as = some w) (ha : ∀ a ∈ as, a.Fits n) : w.Within n :=
  run_invariant (P := fun _ a => a.Fits n) (Within n) (fun _ _ _ h ha hs => h.step ha hs)
    ⟨hs, fun _ hu => (List.not_mem_nil hu).elim, fun _ hu => (List.not_mem_nil hu).elim⟩ hr
    (along_of_forall _ ha)

theorem work_of_within {as : List Action} (h : w.Within n) (hr : w.run as = some w')
    (ha : ∀ a ∈ as, a.Fits n) :
    as.countP Action.counted + w'.budget n ≤ w.budget n + (as.map (Action.cost n)).sum := by
  obtain ⟨-, hle⟩ := @countP_le_of_potential _ _ World.step (fun _ a => a.Fits n) (Within n)
    Action.counted (budget n) (Action.cost n)
    (fun _ _ _ h ha hs => ⟨h.step ha hs, budget_step h hs⟩) _ _ _ h hr (along_of_forall _ ha)
  omega

/-- In every run from a server with no longer files, the calls that are counted are no more than
what the requests cost. -/
theorem work_of_requests {s : Server} {as : List Action} (hs : s.folder.Within n)
    (hr : run (initial s) as = some w) (ha : ∀ a ∈ as, a.Fits n) :
    as.countP Action.counted + w.budget n ≤ (as.map (Action.cost n)).sum := by
  have hle := work_of_within (@within_of_run n _ s [] hs rfl (by simp)) hr ha
  have hzero : (initial s).budget n = 0 := rfl
  omega

theorem orderlyRun_work : ∃ w, run (started 10) orderlyRun = some w ∧
    orderlyRun.countP Action.counted + w.budget 10 ≤ (orderlyRun.map (Action.cost 10)).sum := by
  obtain ⟨w, hr⟩ := Option.isSome_iff_exists.mp (by decide : (run (started 10) orderlyRun).isSome)
  exact ⟨w, hr, work_of_requests (fun _ => Nat.zero_le _) hr (by decide)⟩

end World

end Netstore
