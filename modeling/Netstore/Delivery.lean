import Netstore.DownloadLoops

/-!
# A download that nothing hinders

`DownloadLoops` follows the two sides of a download when nothing else happens. Here the server goes
on with all its other work : it takes in files, gives others out, and removes them. A client that
connects to a handler of a stored name makes a bounded number of calls with it, if none of these
fails and no removal of the name begins before the handler has opened the file. Until the client
has reported its copy and closed it, there is a call that one of the two can make
(`fetched_of_smooth`).
-/

namespace Netstore

open Transition

/-- The handler has yet to open its file. -/
def DownloadPc.early : DownloadPc → Bool
  | announcing | waiting | connecting | opening => true
  | _ => false

/-- A call of the client or of the handler. -/
def FetchAction.own (i : ℕ) : FetchAction → Bool
  | .server (.download j _) => j = i
  | .server _ => false
  | a => !a.isFlush

theorem DownloadCall.succeeds_of_inLoop {call : DownloadCall} (h : call.inLoop) :
    call.succeeds := by
  cases call with
  | select r => cases r <;> first | rfl | cases h
  | accept ok | openFile ok => cases ok <;> first | rfl | cases h
  | readFile e | write e => cases e <;> first | rfl | cases h
  | announce port => cases h

namespace Download

open World

/-- The file of the download stays as it is : the name is stored, or no upload has the file open. -/
def Secure (w : World) (content : Bytes) (u : Download) : Prop :=
  match u.pc with
  | .announcing | .waiting | .connecting | .opening => w.Stored u.filename
  | .reading ino _ _ | .writing ino _ _ _ _ => w.Settled ino content
  | _ => True

variable {w w' : World} {content : Bytes} {u : Download} {a : Action} {call : DownloadCall}
  {pc : DownloadPc}

/-- The server's other work leaves the file of a download. -/
theorem Secure.step (h : u.Secure w content) (hsends : u.Sends w.server content)
    (hw : Undisturbed w) (ha : Orderly w a)
    (hkeep : u.pc.early → beginsRemoval u.filename a = false) (hs : w.step a = some w') :
    u.Secure w' content ∧ u.Sends w'.server content := by
  unfold Secure Sends at *
  cases hpc : u.pc with
  | announcing => exact (by rw [hpc] at hsends; exact hsends.elim)
  | waiting | connecting | opening =>
    rw [hpc] at h hsends hkeep
    exact ⟨h.step (hkeep rfl) hs, (hw.content_step ha hs h).trans hsends⟩
  | reading ino offset sent =>
    rw [hpc] at h hsends
    have hsettled := h.step hw ha hs
    exact ⟨hsettled, hsettled.contents, hsends.2⟩
  | writing ino offset block more sent =>
    rw [hpc] at h hsends
    have hsettled := h.step hw ha hs
    exact ⟨hsettled, hsettled.contents, hsends.2⟩
  | ended sent =>
    rw [hpc] at hsends
    exact ⟨trivial, hsends⟩
  | uncaught e => exact (by rw [hpc] at hsends; exact hsends.elim)

/-- A file that is opened under a stored name is written by no upload. -/
theorem Secure.next (h : u.Secure w content) (hsends : u.Sends w.server content)
    (hw : Undisturbed w) (hn : u.next w.server call = some pc) :
    Secure w content { u with pc := pc } := by
  unfold Secure Sends at *
  cases next_cases hn with
  | announce before | ready before | accept before =>
    rw [before] at h
    exact h
  | @openFile ino before opened =>
    rw [before] at h hsends
    rw [Folder.content, opened, Option.map_some, Option.some.injEq] at hsends
    exact hsends ▸ hw.settled h.2 opened
  | readFile before | readFail before | write before =>
    rw [before] at h
    exact h
  | _ => trivial

end Download

namespace Fetch

variable (f : Filename) (i : ℕ) (x : Fetch)

/-- No call of the two sides fails, and what else the server does is orderly and leaves the name
until the handler has opened the file. -/
def Smooth : FetchAction → Prop
  | .server a => World.Orderly x.world a ∧
      (FetchAction.own i (.server a) → FetchAction.inLoops i (.server a)) ∧
      ((x.download.any fun u => u.pc.early) → World.beginsRemoval f a = false)
  | .client call => x.world.terminated = false ∧ FetchAction.inLoops i (.client call)

instance (a : FetchAction) : Decidable (x.Smooth f i a) :=
  match a with
  | .server a => inferInstanceAs (Decidable (World.Orderly x.world a ∧
      (FetchAction.own i (.server a) → FetchAction.inLoops i (.server a)) ∧
      ((x.download.any fun u => u.pc.early) → World.beginsRemoval f a = false)))
  | .client call => inferInstanceAs (Decidable (x.world.terminated = false ∧
      FetchAction.inLoops i (.client call)))

/-- The two sides of a download that goes well, at a server that does other work too. -/
structure Fetching (content : Bytes) : Prop where
  undisturbed : x.world.Undisturbed
  handler : x.handler = some i
  sends : ∃ u, x.world.downloads[i]? = some u ∧ u.filename = f ∧
    u.Sends x.world.server content ∧ u.Secure x.world content
  reads : x.Reads f
  looping : x.pc = .opening ∧ x.folder.openable f ∨ (∃ st, x.pc = .reading st) ∨
    .success ∈ x.reports ∧ ((∃ st, x.pc = .closing st) ∨ x.pc = .ended)

variable {f i x} {x' : Fetch} {content : Bytes} {w : World}

/-- While the server is up, the two sides are as `DownloadLoops` has them. -/
theorem Fetching.downloading (h : x.Fetching f i content) (hlive : x.world.terminated = false) :
    x.Downloading f i content := by
  obtain ⟨u, hu, -, hsends, -⟩ := h.sends
  exact ⟨hlive, h.handler, ⟨u, hu, hsends⟩, h.reads, h.looping⟩

theorem Fetching.step_server {a : Action} (h : x.Fetching f i content)
    (ha : x.Smooth f i (.server a)) (hs : x.world.step a = some w) :
    Fetching f i { x with world := w } content ∧
      left content.length { x with world := w } + (FetchAction.own i (.server a)).toNat ≤
        x.left content.length := by
  obtain ⟨horderly, hloop, hkeep⟩ := ha
  obtain ⟨u, hu, hname, hsends, hsecure⟩ := h.sends
  have hdown : x.download = some u := by rw [download, h.handler, Option.bind_some, hu]
  have hkeep' : u.pc.early → World.beginsRemoval u.filename a = false := fun he =>
    hname.symm ▸ hkeep (by rw [hdown]; exact he)
  have hfetching {v : Download} (hv : w.downloads[i]? = some v) (hvname : v.filename = f)
      (hsends' : v.Sends w.server content) (hsecure' : v.Secure w content) :
      Fetching f i { x with world := w } content :=
    ⟨h.undisturbed.step horderly hs, h.handler, ⟨v, hv, hvname, hsends', hsecure'⟩,
      h.reads.server hs, h.looping⟩
  by_cases hown : FetchAction.own i (.server a)
  · -- a call of the handler
    have hin := hloop hown
    obtain ⟨call, rfl, hc⟩ : ∃ call, a = .download i call ∧ call.inLoop := by
      cases a with
      | download j call =>
        obtain ⟨hj, hc⟩ := Bool.and_eq_true_iff.mp hin
        exact ⟨call, by rw [of_decide_eq_true hj], hc⟩
      | _ => cases hin
    have hdownloading := h.downloading (World.live_of_step hs)
    obtain ⟨hdownloading', hle⟩ := hdownloading.server hc hs
    obtain ⟨pc, hn, hset, hserver, -⟩ := World.of_step_download (World.live_of_step hs) hu hs
    obtain ⟨hsends', -⟩ := Download.sends_next hsends hc hn
    obtain ⟨hsecure', hsends''⟩ := (hsecure.next hsends h.undisturbed hn).step hsends'
      h.undisturbed horderly (fun _ => rfl) hs
    rw [hown]
    exact ⟨hfetching hset hname hsends'' hsecure', hle⟩
  · obtain ⟨u', hu', rfl | ⟨c, pc, rfl, -⟩⟩ := World.download_step hs hu
    · obtain ⟨hsecure', hsends'⟩ := hsecure.step hsends h.undisturbed horderly hkeep' hs
      refine ⟨hfetching hu' hname hsends' hsecure', ?_⟩
      have hdown' : download { x with world := w } = some u' := by
        rw [download, h.handler, Option.bind_some, hu']
      rw [left, left, hdown, hdown', Bool.eq_false_iff.mpr hown]
      exact le_rfl
    · exact (hown (decide_eq_true rfl)).elim

/-- Every step of a smooth run keeps the two sides going, and each call of theirs leaves less. -/
theorem Fetching.step {a : FetchAction} (h : x.Fetching f i content) (ha : x.Smooth f i a)
    (hs : x.step f a = some x') :
    x'.Fetching f i content ∧ x'.left content.length + (a.own i).toNat ≤ x.left content.length := by
  cases a with
  | server a =>
    obtain ⟨w, hw, rfl⟩ := Option.map_eq_some_iff.mp hs
    exact h.step_server ha hw
  | client call =>
    obtain ⟨hlive, hin⟩ := ha
    obtain ⟨hd, hle⟩ := (h.downloading hlive).step hin hs
    obtain ⟨-, hn⟩ := Option.ite_none_right_eq_some.mp hs
    have hworld : x'.world = x.world := by cases next_cases hn <;> rfl
    refine ⟨⟨hworld ▸ h.undisturbed, hd.handler, ?_, hd.reads, hd.looping⟩, hle⟩
    rw [hworld]
    exact h.sends

/-- As long as the client has not closed its file, one of the two sides can go on. -/
theorem Fetching.exists_call (h : x.Fetching f i content) (hlive : x.world.terminated = false)
    (hend : x.pc ≠ .ended) : ∃ a x', a.own i ∧ x.Smooth f i a ∧ x.step f a = some x' := by
  have hd := h.downloading hlive
  cases hended : x.download.any fun u => u.pc.hasEnded with
  | false =>
    obtain ⟨call, w, hc, hw⟩ := hd.progress_server hended
    have hin : FetchAction.inLoops i (.server (.download i call)) := by
      simpa [FetchAction.inLoops] using hc
    have horderly : World.Orderly x.world (.download i call) :=
      ⟨World.filesOk_of_succeeds (DownloadCall.succeeds_of_inLoop hc), trivial⟩
    exact ⟨.server (.download i call), _, decide_eq_true rfl,
      ⟨horderly, fun _ => hin, fun _ => rfl⟩, by rw [Fetch.step, hw]; rfl⟩
  | true =>
    obtain ⟨call, x', hin, hflush, hs⟩ := hd.progress_client hended hend
    exact ⟨.client call, x', by simp [FetchAction.own, hflush], ⟨hlive, hin⟩, hs⟩

theorem Fetching.reported (h : x.Fetching f i content) (hend : x.pc = .ended) :
    x.reports = [.success] := by
  rcases h.looping with ⟨hpc, -⟩ | ⟨st, hpc⟩ | ⟨hsuccess, -⟩
  · cases hend.symm.trans hpc
  · cases hend.symm.trans hpc
  · have hreads := h.reads
    unfold Reads at hreads
    rw [hend] at hreads
    exact (hreads hsuccess).1

/-- A fetch of a stored name, from where its client connects on : if no call of the two sides fails
and the name is not removed before the handler has the file, their calls are bounded, and when
neither can make another the client has reported a success and has the file. -/
theorem fetched_of_smooth {max : UInt64} {folder out : Folder Filename} {listing : List Filename}
    {as : List Action} {bs : List FetchAction} {y : Fetch} (hl : World.Lists listing folder)
    (hr : World.run (World.initial (.generateFilesInStorage max folder listing)) as = some w)
    (hP : Along World.step World.Orderly
      (World.initial (.generateFilesInStorage max folder listing)) as)
    (hstored : w.Stored f) (hopen : out.openable f)
    (hconnect : (start w out).step f (.client (.connect (some i))) = some x)
    (hrun : run (step f) x bs = some y) (hsmooth : Along (step f) (Smooth f i) x bs) :
    ∃ content, w.server.folder.content f = some content ∧
      bs.countP (FetchAction.own i) ≤
        content.length + 2 * (content.length / maxBufferSize) + 8 ∧
      (y.world.terminated = false →
        (∀ a : FetchAction, a.own i → y.Smooth f i a → y.step f a = none) →
        y.pc = .ended ∧ y.reports = [.success] ∧ y.folder.content f = some content) := by
  have hundisturbed := World.undisturbed_of_run (World.undisturbed_initial hl) hr hP
  obtain ⟨content, hcontent⟩ := Option.ne_none_iff_exists'.mp
    (mt w.server.folder.content_eq_none_iff.mp (hundisturbed.stored hstored).1)
  refine ⟨content, hcontent, ?_⟩
  have hstart : run (step f) (start w out) [] = some (start w out) := rfl
  have hconnected : x.Connected f i content :=
    connected_of_run hstart trivial hconnect hcontent hopen
  obtain ⟨⟨-, u, hu, hname, hwaiting⟩, hn⟩ := Option.ite_none_right_eq_some.mp hconnect
  have hworld : x.world = w := by cases next_cases hn; rfl
  have hd := hconnected.downloading
  have hfetching : x.Fetching f i content := by
    obtain ⟨v, hv, hsends⟩ := hd.sends
    obtain rfl : u = v := Option.some.inj ((hu.symm.trans (hworld ▸ hv :)))
    refine ⟨hworld ▸ hundisturbed, hd.handler, ⟨u, hv, hname, hsends, ?_⟩, hd.reads, hd.looping⟩
    rw [Download.Secure, hwaiting, hworld, hname]
    exact hstored
  obtain ⟨hfetched, hle⟩ := countP_le_of_potential (left content.length) (fun _ => 0)
    (fun _ _ _ (h : Fetching f i _ content) ha hs => h.step ha hs) hfetching hrun hsmooth
  refine ⟨?_, fun hlive hstuck => ?_⟩
  · have hle : y.left content.length + bs.countP (FetchAction.own i) ≤ x.left content.length := by
      simpa using hle
    rw [hconnected.left_eq, blockSteps, Nat.sub_zero] at hle
    omega
  · have hend : y.pc = .ended := by
      by_contra hend
      obtain ⟨a, y', hown, ha, hs⟩ := hfetched.exists_call hlive hend
      rw [hstuck a hown ha] at hs
      cases hs
    exact ⟨hend, hfetched.reported hend, (hfetched.downloading hlive).content_eq hend⟩

theorem next_of_ended (h : x.pc = .ended) (call : FetchCall) : x.next f call = none := by
  cases call <;> simp [next, h]

/-- Nothing is left to do for a client and a handler that have ended. -/
theorem step_eq_none_of_ended {a : FetchAction} {u : Download} (hpc : x.pc = .ended)
    (hlive : x.world.terminated = false) (hu : x.world.downloads[i]? = some u)
    (hend : u.pc.hasEnded) (ha : a.own i) : x.step f a = none := by
  cases a with
  | server a =>
    cases a with
    | download j call =>
      obtain rfl : j = i := of_decide_eq_true ha
      rw [Fetch.step, World.step_download hlive hu, Download.next_of_ended hend]
      rfl
    | _ => cases ha
  | client call =>
    rw [Fetch.step, next_of_ended hpc, ite_self]

/-- The upload of a file, and a handler for a fetch of it. -/
def uploadThenAsk : List Action :=
  uploadOfTwo ++ [.upload 0 (.closeFile true),
    .receive (simpleDatagram ⟨2, 2⟩ 2 fileGetRequest [97]), .download 0 (.announce (some 6))]

/-- The name is removed when the handler has opened the file. -/
def fetchWhileRemoved : List FetchAction :=
  [.server (.download 0 (.select .ready)), .client (.openFile true),
    .server (.download 0 (.accept true)), .server (.download 0 (.openFile true)),
    .server (.receive (simpleDatagram ⟨1, 1⟩ 3 fileRemoveRequest [97])),
    .server (.download 0 (.readFile none)), .server (.remove (.fileSize true)),
    .server (.remove .freeSpace), .server (.remove (.removeFile true)),
    .server (.download 0 (.write none)), .client (.read (.piece [1])), .client (.flush 1 true),
    .client (.read (.piece [2])), .client (.read .endOfStream), .client (.closeFile true)]

theorem fetchWhileRemoved_fetched : ∃ w x y, World.run (World.started 10) uploadThenAsk = some w ∧
    (start w .empty).step [97] (.client (.connect (some 0))) = some x ∧
    run (step [97]) x fetchWhileRemoved = some y ∧ y.world.server.folder.content [97] = none ∧
    y.pc = .ended ∧ y.reports = [.success] ∧
      y.folder.content [97] = w.server.folder.content [97] := by
  obtain ⟨w, hr, hw⟩ : ∃ w, World.run (World.started 10) uploadThenAsk = some w ∧
      (decide (w.Stored [97]) &&
        ((start w .empty).step [97] (.client (.connect (some 0)))).any fun x =>
        decide (Along (step [97]) (Smooth [97] 0) x fetchWhileRemoved) &&
          (run (step [97]) x fetchWhileRemoved).any fun y =>
            decide (y.world.server.folder.content [97] = none ∧ y.pc = .ended ∧
              y.world.terminated = false ∧
              y.world.downloads[0]?.any fun u => u.pc.hasEnded)) := exists_run_of_any _ (by decide)
  obtain ⟨hstored, hx⟩ := Bool.and_eq_true_iff.mp hw
  obtain ⟨x, hconnect, hx⟩ := (Option.any_eq_true _ _).mp hx
  obtain ⟨hsmooth, hy⟩ := Bool.and_eq_true_iff.mp hx
  obtain ⟨y, hrun, hy⟩ := exists_run_of_any _ hy
  obtain ⟨hremoved, hpc, hlive, hu⟩ := of_decide_eq_true hy
  obtain ⟨u, hu, hend⟩ := (Option.any_eq_true _ _).mp hu
  obtain ⟨content, hcontent, -, hfetched⟩ := fetched_of_smooth World.lists_empty hr (by decide)
    (of_decide_eq_true hstored) (by decide) hconnect hrun (of_decide_eq_true hsmooth)
  obtain ⟨-, hreports, hcopy⟩ := hfetched hlive fun a ha _ =>
    step_eq_none_of_ended hpc hlive hu hend ha
  exact ⟨w, x, y, hr, hconnect, hrun, hremoved, hpc, hreports, hcopy.trans hcontent.symm⟩

end Fetch

end Netstore
