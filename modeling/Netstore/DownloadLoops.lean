import Netstore.Fetch

/-!
# The loops of a download

The handler of a download reads blocks of its file until a read is short, so the last
block may be empty, and writes each to the connection. The client reads pieces of what
has been written, with no regard to the blocks, until the stream ends.

`Fetch.Downloading` relates the places of the two sides to the file, from where the client
connects on (`Fetch.connected_of_run`). If no call fails, the client's file is the
handler's, and both loops end : each step but a write of the stream to the file leaves less
to do, and some step can be taken until both have ended (`Fetch.Connected.delivers`).
-/

namespace Netstore

open Transition

/-- A block of what is left of a file, and the file before and after it. -/
theorem take_block (content : Bytes) (offset : ℕ) :
    content.take offset ++ (content.drop offset).take maxBufferSize =
      content.take (offset + ((content.drop offset).take maxBufferSize).length) :=
  (Bytes.take_add_of_prefix (List.take_prefix ..)).symm

/-- The steps of a loop that sends what is left of a file of `n` bytes. -/
def blockSteps (n offset : ℕ) : ℕ :=
  2 * ((n - offset) / maxBufferSize + 1)

/-! ## The handler -/

/-- The calls that take the connection, open the file and send it. -/
def DownloadCall.inLoop (call : DownloadCall) : Bool :=
  call = .select .ready || call = .accept true || call = .openFile true ||
    call = .readFile none || call = .write none

/-- The steps that are left of a handler of a file of `n` bytes. -/
def DownloadPc.left (n : ℕ) : DownloadPc → ℕ
  | waiting => blockSteps n 0 + 3
  | connecting => blockSteps n 0 + 2
  | opening => blockSteps n 0 + 1
  | reading _ offset _ => blockSteps n offset
  | writing _ offset block more _ => if more then blockSteps n (offset + block.length) + 1 else 1
  | _ => 0

namespace Download

/-- The handler has written the blocks of the file before the offset. -/
def Sends (s : Server) (content : Bytes) (u : Download) : Prop :=
  match u.pc with
  | .waiting | .connecting | .opening => s.folder.content u.filename = some content
  | .reading ino offset sent =>
    s.folder.contents ino = content ∧ sent = content.take offset ∧ offset ≤ content.length
  | .writing ino offset block more sent =>
    s.folder.contents ino = content ∧ sent = content.take offset ∧ offset ≤ content.length ∧
      block = (content.drop offset).take maxBufferSize ∧
      more = decide (block.length = maxBufferSize)
  | .ended sent => sent = content
  | _ => False

variable {s : Server} {content : Bytes} {u : Download} {pc : DownloadPc}

theorem Sends.begins (h : u.Sends s content) : u.pc.sent <+: content := by
  unfold Sends at h
  cases hpc : u.pc with
  | waiting | connecting | opening => exact List.nil_prefix
  | reading ino offset sent =>
    rw [hpc] at h
    obtain ⟨-, rfl, -⟩ := h
    exact List.take_prefix _ _
  | writing ino offset block more sent =>
    rw [hpc] at h
    obtain ⟨-, rfl, -⟩ := h
    exact List.take_prefix _ _
  | ended sent =>
    rw [hpc] at h
    rw [DownloadPc.sent, h]
  | _ =>
    rw [hpc] at h
    exact h.elim

theorem Sends.sent_of_hasEnded (h : u.Sends s content) (hend : u.pc.hasEnded) :
    u.pc.sent = content := by
  unfold Sends at h
  cases hpc : u.pc with
  | ended sent =>
    rw [hpc] at h
    exact h
  | _ =>
    rw [hpc] at hend
    cases hend

theorem Sends.ne_uncaught (h : u.Sends s content) (e : Exn) : u.pc ≠ .uncaught e := by
  intro hpc
  unfold Sends at h
  rw [hpc] at h
  exact h

/-- A handler that has not ended can go on. -/
theorem Sends.exists_next (h : u.Sends s content) (hend : u.pc.hasEnded = false) :
    ∃ call pc, call.inLoop ∧ u.next s call = some pc := by
  unfold Sends at h
  cases hpc : u.pc with
  | waiting => exact ⟨.select .ready, .connecting, rfl, by simp [next, hpc]⟩
  | connecting => exact ⟨.accept true, .opening, rfl, by simp [next, hpc]⟩
  | opening =>
    rw [hpc] at h
    obtain ⟨ino, hino, -⟩ := Option.map_eq_some_iff.mp h
    exact ⟨.openFile true, .reading ino 0 [], rfl, by simp [next, hpc, hino]⟩
  | reading ino offset sent => exact ⟨.readFile none, _, rfl, by simp [next, hpc]; rfl⟩
  | writing ino offset block more sent => exact ⟨.write none, _, rfl, by simp [next, hpc]; rfl⟩
  | ended sent =>
    rw [hpc] at hend
    cases hend
  | _ =>
    rw [hpc] at h
    exact h.elim

/-- Each call of the loop of a handler moves it on. -/
theorem sends_next {call : DownloadCall} (h : u.Sends s content) (hc : call.inLoop)
    (hn : u.next s call = some pc) :
    Sends s content { u with pc := pc } ∧
      pc.left content.length + 1 ≤ u.pc.left content.length := by
  have hmax : maxBufferSize = 65536 := rfl
  unfold Sends at h
  cases next_cases hn with
  | announce | announceFail | acceptFail | openFail | readFail | writeFail => cases hc
  | @notReady r before result =>
    cases r with
    | ready => exact (result rfl).elim
    | timeout | failure => cases hc
  | ready before | accept before =>
    rw [before] at h ⊢
    exact ⟨h, le_rfl⟩
  | @openFile ino before opened =>
    rw [before] at h ⊢
    rw [Folder.content, opened, Option.map_some, Option.some.injEq] at h
    exact ⟨⟨h, rfl, Nat.zero_le _⟩, le_rfl⟩
  | @readFile ino offset sent before =>
    rw [before] at h ⊢
    obtain ⟨rfl, rfl, hle⟩ := h
    refine ⟨⟨rfl, rfl, hle, rfl, rfl⟩, ?_⟩
    simp only [DownloadPc.left, blockSteps, block, List.length_take, List.length_drop,
      decide_eq_true_eq, hmax]
    split_ifs <;> omega
  | @write ino offset bs sent before =>
    rw [before] at h ⊢
    obtain ⟨rfl, rfl, hle, rfl, hmore⟩ := h
    refine ⟨⟨rfl, take_block _ _, ?_⟩, by simp [DownloadPc.left]⟩
    rw [List.length_take, List.length_drop]
    omega
  | @writeLast ino offset bs sent before =>
    rw [before] at h ⊢
    obtain ⟨rfl, rfl, hle, rfl, hmore⟩ := h
    refine ⟨?_, by simp [DownloadPc.left]⟩
    have hshort := of_decide_eq_false hmore.symm
    rw [List.length_take, List.length_drop] at hshort
    rw [Sends]
    dsimp only
    rw [take_block, List.take_of_length_le]
    rw [List.length_take, List.length_drop]
    omega

end Download

/-! ## The two sides -/

/-- A step of a download handler of a server that is up. -/
theorem World.step_download {w : World} {i : ℕ} {u : Download} (hlive : w.terminated = false)
    (hu : w.downloads[i]? = some u) (call : DownloadCall) :
    w.step (.download i call) = (u.next w.server call).map fun pc =>
      { w with
        downloads := w.downloads.set i { u with pc := pc }
        terminated := match pc with | .uncaught _ => true | _ => false } := by
  rw [step, if_neg (by simp [hlive]), hu]
  rfl

/-- What a step of a download handler does, if no exception leaves its thread. -/
theorem World.of_step_download {w w' : World} {i : ℕ} {u : Download} {call : DownloadCall}
    (hlive : w.terminated = false) (hu : w.downloads[i]? = some u)
    (hs : w.step (.download i call) = some w') :
    ∃ pc, u.next w.server call = some pc ∧ w'.downloads[i]? = some { u with pc := pc } ∧
      w'.server = w.server ∧ ((∀ e, pc ≠ .uncaught e) → w'.terminated = false) := by
  rw [step_download hlive hu] at hs
  obtain ⟨pc, hn, rfl⟩ := Option.map_eq_some_iff.mp hs
  refine ⟨pc, hn, (getElem?_set_eq_some hu).mpr (Or.inl ⟨rfl, rfl⟩), rfl, fun hpc => ?_⟩
  cases pc with
  | uncaught e => exact (hpc e rfl).elim
  | _ => rfl

/-- The steps that are left of the client's loop, of a file of `n` bytes. -/
def FetchPc.left (n taken : ℕ) : FetchPc → ℕ
  | .opening => n - taken + 3
  | .reading _ => n - taken + 2
  | .closing _ => 1
  | _ => 0

namespace FetchAction

/-- A call of one of the two sides that does not fail. -/
def inLoops (i : ℕ) : FetchAction → Bool
  | .server (.download j call) => j = i && call.inLoop
  | .client (.read r) => r ≠ .failure
  | .client (.openFile ok) | .client (.flush _ ok) | .client (.closeFile ok) => ok
  | _ => false

/-- The step is no call of a loop : the stream writes to the file. -/
def isFlush : FetchAction → Bool
  | .client (.flush _ _) => true
  | _ => false

end FetchAction

namespace Fetch

variable {f : Filename} {i : ℕ} {content : Bytes} {x x' : Fetch}

/-- The client has just connected to a handler whose file is there. -/
structure Connected (f : Filename) (i : ℕ) (content : Bytes) (x : Fetch) : Prop where
  live : x.world.terminated = false
  handler : x.handler = some i
  sender : ∃ u, x.world.downloads[i]? = some u ∧ u.pc = .waiting ∧
    x.world.server.folder.content u.filename = some content
  receiver : x.pc = .opening
  openable : x.folder.openable f
  taken : x.taken = 0
  reports : x.reports = []

/-- The two sides of a download of which no call has failed. -/
structure Downloading (f : Filename) (i : ℕ) (content : Bytes) (x : Fetch) : Prop where
  live : x.world.terminated = false
  handler : x.handler = some i
  sends : ∃ u, x.world.downloads[i]? = some u ∧ u.Sends x.world.server content
  reads : x.Reads f
  looping : x.pc = .opening ∧ x.folder.openable f ∨ (∃ st, x.pc = .reading st) ∨
    .success ∈ x.reports ∧ ((∃ st, x.pc = .closing st) ∨ x.pc = .ended)

/-- The steps that are left of the two sides of a file of `n` bytes. -/
def left (n : ℕ) (x : Fetch) : ℕ :=
  (x.download.elim 0 fun u => u.pc.left n) + x.pc.left n x.taken

theorem left_client {n k : ℕ} (hdown : x'.download = x.download)
    (hle : x'.pc.left n x'.taken + k ≤ x.pc.left n x.taken) : x'.left n + k ≤ x.left n := by
  rw [left, left, hdown]
  omega

theorem Connected.downloading (h : x.Connected f i content) : x.Downloading f i content := by
  obtain ⟨u, hu, hupc, hcontent⟩ := h.sender
  refine ⟨h.live, h.handler, ⟨u, hu, ?_⟩, ?_, Or.inl ⟨h.receiver, h.openable⟩⟩
  · unfold Download.Sends
    rw [hupc]
    exact hcontent
  · unfold Reads
    rw [h.receiver]
    exact ⟨h.taken, h.reports⟩

namespace Downloading

theorem download (h : x.Downloading f i content) :
    ∃ u, x.download = some u ∧ x.world.downloads[i]? = some u ∧
      u.Sends x.world.server content ∧ x.sent = u.pc.sent := by
  obtain ⟨u, hu, hsends⟩ := h.sends
  have hdown : x.download = some u := by rw [Fetch.download, h.handler, Option.bind_some, hu]
  exact ⟨u, hdown, hu, hsends, by rw [Fetch.sent, hdown]; rfl⟩

/-- A call of the handler. -/
theorem server (h : x.Downloading f i content) {call : DownloadCall} (hc : call.inLoop) {w : World}
    (hs : x.world.step (.download i call) = some w) :
    Downloading f i content { x with world := w } ∧
      left content.length { x with world := w } + 1 ≤ x.left content.length := by
  obtain ⟨u, hdown, hu, hsends, -⟩ := h.download
  obtain ⟨pc, hn, hset, hserver, hlive⟩ := World.of_step_download h.live hu hs
  obtain ⟨hsends', hleft⟩ := Download.sends_next hsends hc hn
  have hdown' : Fetch.download { x with world := w } = some { u with pc := pc } := by
    rw [Fetch.download, h.handler]
    exact hset
  refine ⟨⟨hlive hsends'.ne_uncaught, h.handler, ⟨_, hset, hserver ▸ hsends'⟩, h.reads.server hs,
    h.looping⟩, ?_⟩
  rw [left, left, hdown, hdown', Option.elim_some, Option.elim_some]
  dsimp only
  omega

/-- A call of the client. -/
theorem client (h : x.Downloading f i content) {call : FetchCall}
    (hc : FetchAction.inLoops i (.client call)) (hoff : x.offers f call)
    (hn : x.next f call = some x') :
    x'.Downloading f i content ∧
      x'.left content.length + (!FetchAction.isFlush (.client call)).toNat ≤
        x.left content.length := by
  have hok : x.WritesOk (.client call) := by
    cases call <;> trivial
  have hreads := h.reads.client hok hoff hn
  obtain ⟨u, -, -, hsends, hsent⟩ := h.download
  have hle : x.sent.length ≤ content.length := hsent ▸ hsends.begins.length_le
  cases next_cases hn with
  | connect | connectFail | openFail | readFail | spoil | closeFail => cases hc
  | openFile before =>
    refine ⟨⟨h.live, h.handler, h.sends, hreads, Or.inr (Or.inl ⟨_, rfl⟩)⟩, left_client rfl ?_⟩
    rw [before]
    rfl
  | @piece st bs before =>
    refine ⟨⟨h.live, h.handler, h.sends, hreads, Or.inr (Or.inl ⟨_, rfl⟩)⟩, left_client rfl ?_⟩
    have hpos : 0 < bs.length := by
      simp only [next, before] at hn
      split_ifs at hn with hlen
      exact hlen.1
    have htaken : x.taken + bs.length ≤ x.sent.length := hreads.1
    rw [before]
    simp only [FetchPc.left, FetchAction.isFlush, Bool.not_false, Bool.toNat_true]
    omega
  | @endOfStream st before =>
    refine ⟨⟨h.live, h.handler, h.sends, hreads, Or.inr (Or.inr ⟨by simp, Or.inl ⟨st, rfl⟩⟩)⟩,
      left_client rfl ?_⟩
    rw [before]
    simp only [FetchPc.left, FetchAction.isFlush, Bool.not_false, Bool.toNat_true]
    omega
  | @flush st before n =>
    refine ⟨⟨h.live, h.handler, h.sends, hreads, Or.inr (Or.inl ⟨_, rfl⟩)⟩, left_client rfl ?_⟩
    rw [before]
    rfl
  | @close st before =>
    have hsuccess : .success ∈ x.reports := by
      rcases h.looping with ⟨hpc, -⟩ | ⟨st', hpc⟩ | ⟨hsuccess, -⟩
      · cases before.symm.trans hpc
      · cases before.symm.trans hpc
      · exact hsuccess
    refine ⟨⟨h.live, h.handler, h.sends, hreads, Or.inr (Or.inr ⟨hsuccess, Or.inr rfl⟩)⟩,
      left_client rfl ?_⟩
    rw [before]
    rfl

/-- Each call keeps the places of the two sides related, and leaves less to do. -/
theorem step (h : x.Downloading f i content) {a : FetchAction} (ha : a.inLoops i)
    (hs : x.step f a = some x') :
    x'.Downloading f i content ∧
      x'.left content.length + (!a.isFlush).toNat ≤ x.left content.length := by
  cases a with
  | server a =>
    obtain ⟨w, hw, rfl⟩ := Option.map_eq_some_iff.mp hs
    cases a with
    | download j call =>
      obtain ⟨hj, hc⟩ := Bool.and_eq_true_iff.mp ha
      obtain rfl : j = i := of_decide_eq_true hj
      exact h.server hc hw
    | _ => cases ha
  | client call =>
    obtain ⟨hoff, hn⟩ := Option.ite_none_right_eq_some.mp hs
    exact h.client ha hoff hn

/-- A handler that has not ended can go on. -/
theorem progress_server (h : x.Downloading f i content)
    (hend : (x.download.any fun u => u.pc.hasEnded) = false) :
    ∃ call w, call.inLoop ∧ x.world.step (.download i call) = some w := by
  obtain ⟨u, hdown, hu, hsends, -⟩ := h.download
  rw [hdown] at hend
  obtain ⟨call, pc, hc, hn⟩ := hsends.exists_next (by simpa using hend)
  exact ⟨call, _, hc, by rw [World.step_download h.live hu, hn]; rfl⟩

/-- A client whose handler has ended can go on until it has ended itself. -/
theorem progress_client (h : x.Downloading f i content)
    (hend : x.download.any fun u => u.pc.hasEnded) (hpc : x.pc ≠ .ended) :
    ∃ call x', FetchAction.inLoops i (.client call) ∧ FetchAction.isFlush (.client call) = false ∧
      x.step f (.client call) = some x' := by
  have hstep : ∀ call, x.offers f call → (∃ x', x.next f call = some x') →
      ∃ x', x.step f (.client call) = some x' := fun call hoff ⟨x', hn⟩ =>
    ⟨x', by rw [Fetch.step, if_pos hoff, hn]⟩
  rcases h.looping with ⟨hopening, hopen⟩ | ⟨st, hst⟩ | ⟨-, ⟨st, hst⟩ | hended⟩
  · obtain ⟨⟨ino, folder⟩, hopened⟩ := Option.isSome_iff_exists.mp hopen
    obtain ⟨x', hs⟩ := hstep (.openFile true) trivial (by simp [next, hopening, hopened])
    exact ⟨_, x', rfl, rfl, hs⟩
  · by_cases hall : x.sent.length ≤ x.taken
    · obtain ⟨x', hs⟩ := hstep (.read .endOfStream)
        ⟨hall, by rw [closed, hend, Bool.or_true]⟩ (by simp [next, hst])
      exact ⟨_, x', rfl, rfl, hs⟩
    · -- a read may give as little as one byte
      have hlen : ((x.sent.drop x.taken).take 1).length = 1 := by
        rw [List.length_take, List.length_drop]
        omega
      obtain ⟨x', hs⟩ := hstep (.read (.piece ((x.sent.drop x.taken).take 1)))
        (List.take_prefix ..) (by simp [next, hst, hlen, maxBufferSize])
      exact ⟨_, x', rfl, rfl, hs⟩
  · obtain ⟨x', hs⟩ := hstep (.closeFile true) trivial (by simp [next, hst])
    exact ⟨_, x', rfl, rfl, hs⟩
  · exact (hpc hended).elim

/-- The client's file, when its loop has ended. -/
theorem content_eq (h : x.Downloading f i content) (hend : x.pc = .ended) :
    x.folder.content f = some content := by
  obtain ⟨u, hdown, -, hsends, hsent⟩ := h.download
  rcases h.looping with ⟨hpc, -⟩ | ⟨st, hpc⟩ | ⟨hsuccess, -⟩
  · cases hend.symm.trans hpc
  · cases hend.symm.trans hpc
  · have hreads := h.reads
    unfold Reads at hreads
    rw [hend] at hreads
    obtain ⟨-, hclosed, hcontent⟩ := hreads hsuccess
    rw [closed, h.live, hdown, Option.any_some, Bool.false_or] at hclosed
    rw [hcontent, hsent, hsends.sent_of_hasEnded hclosed]

end Downloading

/-- What the two sides have come to after the actions. -/
structure Delivers (f : Filename) (i : ℕ) (content : Bytes) (as : List FetchAction) (x : Fetch) :
    Prop where
  sent : ∀ u ∈ x.download, u.pc.hasEnded → u.pc.sent = content
  same : x.pc = .ended → x.folder.content f = some content
  bounded : as.countP (fun a => !a.isFlush) ≤
    (blockSteps content.length 0 + 3) + (content.length + 3)
  goesOn : x.pc = .ended ∧ (x.download.any fun u => u.pc.hasEnded) ∨
    ∃ a x', a.inLoops i ∧ a.isFlush = false ∧ x.step f a = some x'

theorem Connected.left_eq (h : x.Connected f i content) : x.left content.length =
    (blockSteps content.length 0 + 3) + (content.length + 3) := by
  obtain ⟨u, hu, hupc, -⟩ := h.sender
  rw [left, download, h.handler, Option.bind_some, hu, Option.elim_some, hupc, h.receiver, h.taken]
  rfl

theorem Connected.delivers {as : List FetchAction} (h : x.Connected f i content)
    (has : ∀ a ∈ as, a.inLoops i) (hr : run (step f) x as = some x') :
    x'.Delivers f i content as := by
  obtain ⟨hd, hle⟩ := countP_le_of_decreasing (left content.length)
    (fun y a y' (hy : y.Downloading f i content) (ha : a.inLoops i) hs => hy.step ha hs)
    h.downloading has hr
  rw [h.left_eq] at hle
  refine ⟨fun u hu hend => ?_, hd.content_eq, le_of_add_le_right hle, ?_⟩
  · obtain ⟨v, hv, -, hsends, -⟩ := hd.download
    obtain rfl : v = u := Option.some.inj (hv.symm.trans hu)
    exact hsends.sent_of_hasEnded hend
  · cases hend : x'.download.any fun u => u.pc.hasEnded with
    | false =>
      obtain ⟨call, w, hc, hw⟩ := hd.progress_server hend
      refine Or.inr ⟨.server (.download i call), _, ?_, rfl, by rw [step, hw]; rfl⟩
      simpa [FetchAction.inLoops] using hc
    | true =>
      by_cases hpc : x'.pc = .ended
      · exact Or.inl ⟨hpc, rfl⟩
      · obtain ⟨call, y, hc, hflush, hs⟩ := hd.progress_client hend hpc
        exact Or.inr ⟨_, y, hc, hflush, hs⟩

/-! ## The connection -/

/-- The loops start when the client connects, if the file is there. -/
theorem connected_of_run {w : World} {out : Folder Filename} {as : List FetchAction}
    (hr : run (step f) (start w out) as = some x) (hok : Along (step f) WritesOk (start w out) as)
    (hs : x.step f (.client (.connect (some i))) = some x')
    (hcontent : x.world.server.folder.content f = some content) (hopen : x.folder.openable f) :
    x'.Connected f i content := by
  have hreads : x.Reads f := run_invariant (Reads f) (fun _ _ _ h ha hs => h.step ha hs)
    (by exact ⟨rfl, rfl⟩) hr hok
  obtain ⟨⟨hlive, u, hu, hname, hwaiting⟩, hn⟩ := Option.ite_none_right_eq_some.mp hs
  cases next_cases hn with
  | connect before i =>
    unfold Reads at hreads
    rw [before] at hreads
    exact ⟨hlive, rfl, ⟨u, hu, hwaiting, hname ▸ hcontent⟩, rfl, hopen, hreads.1, hreads.2⟩

end Fetch

end Netstore
