import Netstore.Restart
import Netstore.Snapshot

/-!
# What is stored is what is given

An upload that is kept has stored its bytes under a name. A download that opens the file of the
name before a removal of it begins gives these bytes and no others, whatever the other handlers
do meanwhile, and also when the name is removed and uploaded again while the download runs; the
server may have been started again in between any number of times (`retrieved_of_lives`).
-/

namespace Netstore

namespace Download

open World

/-- Where a download that has opened a file of these bytes stands. -/
def Copies (w : World) (bs : Bytes) (u : Download) : Prop :=
  match u.pc with
  | .reading ino offset sent => w.Settled ino bs ∧ sent = bs.take offset
  | .writing ino offset block more sent =>
    w.Settled ino bs ∧ sent = bs.take offset ∧ block = (bs.drop offset).take maxBufferSize ∧
      more = decide (block.length = maxBufferSize)
  | .ended sent => sent = bs
  | _ => False

variable {w w' : World} {u : Download} {c : DownloadCall} {pc : DownloadPc} {bs : Bytes}

/-- The steps of the server leave it there. -/
theorem Copies.step {a : Action} (h : u.Copies w bs) (hw : Undisturbed w) (ha : Orderly w a)
    (hs : w.step a = some w') : u.Copies w' bs := by
  unfold Copies at h ⊢
  cases hpc : u.pc <;> rw [hpc] at h
  case reading => exact ⟨h.1.step hw ha hs, h.2⟩
  case writing => exact ⟨h.1.step hw ha hs, h.2⟩
  all_goals exact h

/-- So does a call of its own that does not fail. -/
theorem Copies.next (h : u.Copies w bs) (hn : u.next w.server c = some pc) (hc : c.succeeds) :
    Copies w bs { u with pc := pc } := by
  unfold Copies at h
  cases next_cases hn with
  | readFile before =>
    rw [before] at h
    exact ⟨h.1, h.2, by rw [block, h.1.contents], rfl⟩
  | write before =>
    rw [before] at h
    obtain ⟨hset, rfl, hblock, -⟩ := h
    exact ⟨hset, Bytes.take_append_block hblock⟩
  | @writeLast ino offset block sent before =>
    rw [before] at h
    obtain ⟨-, rfl, hblock, hmore⟩ := h
    have hlen : block.length ≠ maxBufferSize := by simpa using hmore
    exact Bytes.take_append_last hblock hlen
  | announce before | ready before | accept before | openFile before =>
    rw [before] at h
    exact h.elim
  | notReady before result => exact (result (by simpa [DownloadCall.succeeds] using hc)).elim
  | announceFail | acceptFail | openFail | readFail | writeFail => cases hc

end Download

namespace World

open Transition

variable {w w' : World} {j : ℕ} {v : Download} {bs : Bytes}

/-- A call of a download moves it. -/
theorem downloads_step {c : DownloadCall} (hs : w.step (.download j c) = some w')
    (hj : w.downloads[j]? = some v) : ∃ pc, v.next w.server c = some pc ∧
      w'.downloads[j]? = some { v with pc := pc } := by
  unfold step at hs
  rw [ite_eq_iff] at hs
  obtain ⟨-, hs⟩ := hs.resolve_left (by simp)
  obtain ⟨u, hu, hs⟩ := Option.bind_eq_some_iff.mp hs
  obtain ⟨pc, hn, hs⟩ := Option.map_eq_some_iff.mp hs
  obtain rfl : v = u := Option.some.inj (hj.symm.trans hu)
  cases hs
  exact ⟨pc, hn, (getElem?_set_eq_some hu).mpr (Or.inl ⟨rfl, rfl⟩)⟩

/-- A download that opens the file of a stored name is at its start. -/
theorem Undisturbed.copies_open (h : Undisturbed w) (hf : w.Stored v.filename)
    (hbs : w.server.folder.content v.filename = some bs) (hj : w.downloads[j]? = some v)
    (ha : Orderly w (.download j (.openFile true)))
    (hs : w.step (.download j (.openFile true)) = some w') :
    ∃ v', w'.downloads[j]? = some v' ∧ v'.Copies w' bs := by
  obtain ⟨pc, hn, hj'⟩ := downloads_step hs hj
  refine ⟨_, hj', ?_⟩
  cases Download.next_cases hn with
  | @openFile ino before opened =>
    have hcontents : w.server.folder.contents ino = bs := by
      rw [Folder.content, opened] at hbs
      exact Option.some.inj hbs
    have hset := (h.settled hf.2 opened).step h ha hs
    rw [hcontents] at hset
    exact ⟨hset, List.take_zero.symm⟩

/-- A download that does not fail goes on with the bytes that it has opened. -/
theorem copies_of_run {as : List Action} (h : Undisturbed w) (hj : w.downloads[j]? = some v)
    (hv : v.Copies w bs) (hr : run w as = some w') (hP : Along step Orderly w as)
    (hok : ∀ c, .download j c ∈ as → c.succeeds) :
    ∃ v', w'.downloads[j]? = some v' ∧ v'.Copies w' bs := by
  refine (run_induction (fun as w' => Undisturbed w' ∧ ((∀ c, .download j c ∈ as → c.succeeds) →
    ∃ v', w'.downloads[j]? = some v' ∧ v'.Copies w' bs)) ⟨h, fun _ => ⟨v, hj, hv⟩⟩
    (fun as w₁ a w₂ _ hI ha hs => ⟨hI.1.step ha hs, fun hok => ?_⟩) hr hP).2 hok
  obtain ⟨v₁, hj₁, hv₁⟩ := hI.2 fun c hc => hok c (List.mem_append_left _ hc)
  obtain ⟨v₂, hj₂, rfl | ⟨c, pc, rfl, hn, rfl⟩⟩ := download_step hs hj₁
  · exact ⟨v₂, hj₂, hv₁.step hI.1 ha hs⟩
  · exact ⟨_, hj₂, (hv₁.next hn (hok c (by simp))).step hI.1 ha hs⟩

/-- Along the lives from `w₀` : when an upload has ended with these bytes kept, and a download
opens the file of its name before a removal of the name begins, and does not fail, then it has
given the bytes when it has ended. -/
def RetrievedLives (w₀ : World) (as : List LifeAction) : Prop :=
  ∀ pre a mid post w₁ w₂ w₃ w (i j : ℕ) (u : Upload) (v v' : Download) bs sent,
    as = (pre ++ [.step a] ++ mid) ++ (.download j (.openFile true) :: post).map .step →
    Transition.run lifeStep w₀ pre = some w₁ →
    Transition.run lifeStep w₀ (pre ++ [.step a]) = some w₂ →
    Transition.run lifeStep w₀ (pre ++ [.step a] ++ mid) = some w₃ →
    Transition.run lifeStep w₀ as = some w → w₁.uploads[i]?.map Upload.pc ≠ some (.kept bs) →
    w₂.uploads[i]? = some u → u.pc = .kept bs →
    (∀ b ∈ mid, b.beginsRemoval u.filename = false) → w₃.downloads[j]? = some v →
    v.filename = u.filename → (∀ c, .download j c ∈ post → c.succeeds) →
    w.downloads[j]? = some v' → v'.pc = .ended sent → sent = bs

/-- What is stored is what is given. -/
theorem retrieved_of_lives {max : UInt64} {folder : Folder Filename} {listing : List Filename}
    {as : List LifeAction} (hl : Lists listing folder)
    (hlt : ∑ f ∈ (Server.generateFilesInStorage max folder listing).filesInStorage.toFinset,
      folder.size f < 2 ^ 64)
    (hP : Along lifeStep OrderlyLife
      (initial (Server.generateFilesInStorage max folder listing)) as) :
    RetrievedLives (initial (Server.generateFilesInStorage max folder listing)) as := by
  rintro pre a mid post w₁ w₂ w₃ w i j u v v' bs sent rfl hpre hend hmid hr hbefore hu hpc hdel hj
    hname hok hj' hpc'
  -- the upload is kept, and its name is stored until the download opens the file
  have hs : w₁.lifeStep (.step a) = some w₂ := step_of_concat hpre hend
  have h₁ := covered_of_lives (covered_initial hl hlt) hpre
    hP.append_left.append_left.append_left
  have ha : Orderly w₁ a := ((along_concat hpre).mp hP.append_left.append_left).2
  obtain ⟨-, hst, hc⟩ := h₁.undisturbed.ends_kept ha hs hbefore hu hpc
  have hPmid := hP.append_left.append_right hend
  have hmid' := run_of_append hend hmid
  obtain ⟨hst, hc'⟩ := stored_of_lives (h₁.step ha hs) hst hmid' hPmid hdel
  have h₃ := covered_of_lives (h₁.step ha hs) hmid' hPmid
  -- the download runs in one life
  have hPpost := hP.append_right hmid
  have hpost := run_of_append hmid hr
  rw [run_map_step] at hpost
  rw [along_map_step] at hPpost
  obtain ⟨w₄, hopen, hpost⟩ := Option.bind_eq_some_iff.mp hpost
  obtain ⟨hopen', hPpost⟩ := hPpost
  simp only [hopen] at hPpost
  rw [← hname] at hst hc hc'
  obtain ⟨v₄, hj₄, hv₄⟩ := h₃.undisturbed.copies_open hst (hc'.trans hc) hj hopen' hopen
  obtain ⟨v₅, hj₅, hv₅⟩ :=
    copies_of_run (h₃.undisturbed.step hopen' hopen) hj₄ hv₄ hpost hPpost hok
  obtain rfl : v' = v₅ := Option.some.inj (hj'.symm.trans hj₅)
  unfold Download.Copies at hv₅
  rw [hpc'] at hv₅
  exact hv₅

/-- A fetch of the name that is answered and served. -/
def servedFetch : List Action :=
  [.receive (simpleDatagram ⟨2, 2⟩ 3 fileGetRequest [97]), .download 0 (.announce (some 6)),
    .download 0 (.select .ready), .download 0 (.accept true), .download 0 (.openFile true),
    .download 0 (.readFile none), .download 0 (.write none)]

/-- A call of a download that does not fail is orderly. -/
theorem orderly_download (w : World) (j : ℕ) {c : DownloadCall} (hc : c.succeeds) :
    Orderly w (.download j c) := by
  refine ⟨⟨?_, trivial⟩, trivial⟩
  cases c with
  | openFile ok =>
    obtain rfl : ok = true := hc
    simp only [fileCall]
    cases w.downloads[j]? <;> simp
  | _ => trivial

theorem orderly_receive (w : World) {d : Datagram} (hd : (Action.receive d).removes = none) :
    Orderly w (.receive d) := by
  refine ⟨⟨trivial, trivial⟩, ?_⟩
  simp [NoOverlap, hd]

theorem orderly_servedFetch (w : World) : Along step Orderly w servedFetch := by
  refine (along_of_forall (p := fun a => ∀ w, Orderly w a) w ?_).mono fun s a h => h s
  simp only [servedFetch, List.forall_mem_cons, List.not_mem_nil, false_imp_iff, implies_true,
    and_true]
  exact ⟨fun w => orderly_receive w (by decide), fun w => orderly_download w 0 rfl,
    fun w => orderly_download w 0 rfl, fun w => orderly_download w 0 rfl,
    fun w => orderly_download w 0 rfl, fun w => orderly_download w 0 rfl,
    fun w => orderly_download w 0 rfl⟩

/-- The server is started again between the upload and the fetch. -/
theorem servedFetch_retrieved :
    (Transition.run lifeStep (started 10) (keptUpload.map .step ++ [.restart 10 [[97]]] ++
      servedFetch.map .step)).any
        (fun w => w.downloads[0]?.map Download.pc = some (.ended [1, 2])) ∧
    RetrievedLives (started 10) (keptUpload.map .step ++ [.restart 10 [[97]]] ++
      servedFetch.map .step) := by
  refine ⟨by decide, ?_⟩
  obtain ⟨w, hr, ha, -⟩ := keptUpload_run
  have hr' : Transition.run lifeStep (started 10) (keptUpload.map .step ++ [.restart 10 [[97]]]) =
      some (w.restart 10 [[97]]) := by
    rw [run_concat, run_map_step, hr]
    rfl
  refine retrieved_of_lives lists_empty (by decide) ((along_append hr').mpr ⟨?_, ?_⟩)
  · exact along_restart hr (by decide) ha
  · exact along_map_step.mpr (orderly_servedFetch _)

end World

end Netstore
