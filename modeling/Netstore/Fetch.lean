import Netstore.Snapshot

/-!
# A client that fetches a file

`Client::fetch_file_via_tcp` connects to the port that a download handler has announced,
opens its local file and writes what it reads until the stream ends. The stream has no
length : to the client, a handler that has written the whole file, one that could not open
it and one that has failed half-way end alike, and a handler may read a file that is still
being uploaded.

So a success says that the local file holds what the handler has written to the connection,
if the client could open and write it. This is a complete file that the server stored if
the handler did not fail, and opened its file while no upload of the name was under way
(`reported_whole`).
-/

namespace Netstore

open Transition

/-! ## The client -/

/-- What the client shows of a fetch. -/
inductive Report where
  | success
  | failure
  deriving DecidableEq

/-- Where the client stands. -/
inductive FetchPc where
  /-- Before `connect`. -/
  | connecting
  /-- Before the local file is opened. -/
  | opening
  /-- Before the next read. -/
  | reading (stream : Stream)
  /-- After the report, before the stream is closed. -/
  | closing (stream : Stream)
  | ended
  deriving DecidableEq

/-- The calls of the client with their answers. -/
inductive FetchCall where
  /-- The client connects to the port of a download handler, or fails to connect. -/
  | connect (handler : Option ℕ)
  | openFile (ok : Bool)
  | read (r : ReadResult)
  /-- Some of the buffer of the stream reaches the file, or fails to. -/
  | flush (n : ℕ) (ok : Bool)
  | closeFile (ok : Bool)
  deriving DecidableEq

/-- A server and a client that fetches a file from it. -/
structure Fetch where
  world : World
  /-- The client's output folder. -/
  folder : Folder Filename
  pc : FetchPc
  reports : List Report
  /-- The handler that the client is connected to. -/
  handler : Option ℕ
  /-- How much of what the handler has written the client has read. -/
  taken : ℕ

/-- The client has made its report. -/
def FetchPc.reported : FetchPc → Bool
  | closing _ | ended => true
  | _ => false

/-- A step of the server or a call of the client. -/
inductive FetchAction where
  | server (a : Action)
  | client (call : FetchCall)
  deriving DecidableEq

namespace Fetch

/-- Before the client connects. -/
def start (w : World) (folder : Folder Filename) : Fetch :=
  ⟨w, folder, .connecting, [], none, 0⟩

variable (f : Filename) (x : Fetch)

/-- The download that the client is connected to. -/
def download : Option Download :=
  x.handler.bind fun i => x.world.downloads[i]?

/-- What has been written to the connection. -/
def sent : Bytes :=
  x.download.elim [] fun u => u.pc.sent

/-- The handler has ended, or the server has. -/
def closed : Bool :=
  x.world.terminated || x.download.any fun u => u.pc.hasEnded

/-- One call of the client. -/
def next : FetchCall → Option Fetch
  | .connect handler =>
    match x.pc with
    | .connecting =>
      if handler.isSome then some { x with pc := .opening, handler }
      else some { x with pc := .ended, reports := x.reports ++ [.failure] }
    | _ => none
  | .openFile ok =>
    match x.pc with
    | .opening =>
      if ok then (x.folder.openTruncate f).map fun (ino, folder) =>
        { x with folder, pc := .reading ⟨ino, 0, [], true⟩ }
      -- nothing returns after the report of the failure
      else some { x with pc := .ended, reports := x.reports ++ [.failure, .success] }
    | _ => none
  | .read r =>
    match x.pc, r with
    | .reading st, .piece bs =>
      if 0 < bs.length ∧ bs.length ≤ maxBufferSize then
        some { x with pc := .reading (st.write bs), taken := x.taken + bs.length }
      else none
    | .reading st, .endOfStream =>
      some { x with pc := .closing st, reports := x.reports ++ [.success] }
    | .reading st, .failure =>
      some { x with pc := .closing st, reports := x.reports ++ [.failure] }
    | _, _ => none
  | .flush n ok =>
    match x.pc with
    | .reading st =>
      if ok then some { x with
        folder := (st.flush x.folder n).1, pc := .reading (st.flush x.folder n).2 }
      else some { x with pc := .reading st.spoil }
    | _ => none
  | .closeFile ok =>
    match x.pc with
    | .closing st =>
      if ok then some { x with
        folder := (st.flush x.folder st.buffer.length).1, pc := .ended }
      else some { x with pc := .ended }
    | _ => none

/-- What the handler and the connection can give to a call of the client. -/
def offers : FetchCall → Prop
  | .connect (some i) => x.world.terminated = false ∧
    ∃ u ∈ x.world.downloads[i]?, u.filename = f ∧ u.pc = .waiting
  | .read (.piece bs) => bs <+: x.sent.drop x.taken
  | .read .endOfStream => x.sent.length ≤ x.taken ∧ x.closed
  | _ => True

instance (call : FetchCall) : Decidable (x.offers f call) := by
  unfold offers
  split <;> infer_instance

/-- A call of the client takes what its handler has written. -/
def step (f : Filename) (x : Fetch) : FetchAction → Option Fetch
  | .server a => (x.world.step a).map fun world => { x with world }
  | .client call => if x.offers f call then x.next f call else none

/-- The client opens and writes its local file. -/
def WritesOk (_ : Fetch) : FetchAction → Prop
  | .client (.openFile ok) | .client (.flush _ ok) | .client (.closeFile ok) => ok
  | _ => True

/-- The server's steps are orderly, for all names and not only for `f`, no call of the client's
handler fails and it opens its file while no upload of `f` is under way, and the server is up when
the stream ends. -/
def Faultless : FetchAction → Prop
  | .server a => World.Orderly x.world a ∧
    match a with
    | .download i call =>
      x.handler = some i → call.succeeds ∧ (call = .openFile true → ¬x.world.Owned f)
    | _ => True
  | .client (.read .endOfStream) => x.world.terminated = false
  | _ => True

instance (b : FetchAction) : Decidable (x.WritesOk b) := by
  unfold WritesOk
  split <;> infer_instance

instance (b : FetchAction) : Decidable (x.Faultless f b) := by
  unfold Faultless
  split
  · exact @instDecidableAnd _ _ _ (by split <;> infer_instance)
  all_goals infer_instance

/-- A reported download is a whole file that the server stored. -/
def Whole (w₀ : World) : Prop :=
  .success ∈ x.reports → x.pc = .ended →
    ∃ bs, x.folder.content f = some bs ∧ w₀.Complete x.world f bs

variable {f x} {x' : Fetch}

/-- The calls of the client. -/
inductive NextCase (f : Filename) (x : Fetch) : FetchCall → Fetch → Prop
  | connect (before : x.pc = .connecting) (i : ℕ) :
      NextCase f x (.connect (some i)) { x with pc := .opening, handler := some i }
  | connectFail (before : x.pc = .connecting) :
      NextCase f x (.connect none)
        { x with pc := .ended, reports := x.reports ++ [.failure] }
  | openFile {ino folder} (before : x.pc = .opening)
      (opened : x.folder.openTruncate f = some (ino, folder)) :
      NextCase f x (.openFile true) { x with folder, pc := .reading ⟨ino, 0, [], true⟩ }
  | openFail (before : x.pc = .opening) :
      NextCase f x (.openFile false)
        { x with pc := .ended, reports := x.reports ++ [.failure, .success] }
  | piece {st bs} (before : x.pc = .reading st) :
      NextCase f x (.read (.piece bs))
        { x with pc := .reading (st.write bs), taken := x.taken + bs.length }
  | endOfStream {st} (before : x.pc = .reading st) :
      NextCase f x (.read .endOfStream)
        { x with pc := .closing st, reports := x.reports ++ [.success] }
  | readFail {st} (before : x.pc = .reading st) :
      NextCase f x (.read .failure)
        { x with pc := .closing st, reports := x.reports ++ [.failure] }
  | flush {st} (before : x.pc = .reading st) (n : ℕ) :
      NextCase f x (.flush n true)
        { x with folder := (st.flush x.folder n).1, pc := .reading (st.flush x.folder n).2 }
  | spoil {st} (before : x.pc = .reading st) (n : ℕ) :
      NextCase f x (.flush n false) { x with pc := .reading st.spoil }
  | close {st} (before : x.pc = .closing st) :
      NextCase f x (.closeFile true)
        { x with folder := (st.flush x.folder st.buffer.length).1, pc := .ended }
  | closeFail {st} (before : x.pc = .closing st) :
      NextCase f x (.closeFile false) { x with pc := .ended }

theorem next_cases {call : FetchCall} (h : x.next f call = some x') : NextCase f x call x' := by
  cases call with
  | connect handler =>
    simp only [next] at h
    split at h
    case h_1 before =>
      cases handler <;> cases h
      · exact .connectFail before
      · exact .connect before _
    case h_2 => cases h
  | openFile ok =>
    simp only [next] at h
    split at h
    case h_1 before =>
      cases ok
      · cases h
        exact .openFail before
      · obtain ⟨⟨ino, folder⟩, opened, rfl⟩ := Option.map_eq_some_iff.mp h
        exact .openFile before opened
    case h_2 => cases h
  | read r =>
    simp only [next] at h
    split at h
    case h_1 before =>
      split_ifs at h
      cases h
      exact .piece before
    case h_2 before =>
      cases h
      exact .endOfStream before
    case h_3 before =>
      cases h
      exact .readFail before
    case h_4 => cases h
  | flush n ok =>
    simp only [next] at h
    split at h
    case h_1 before =>
      cases ok <;> cases h
      · exact .spoil before n
      · exact .flush before n
    case h_2 => cases h
  | closeFile ok =>
    simp only [next] at h
    split at h
    case h_1 before =>
      cases ok <;> cases h
      · exact .closeFail before
      · exact .close before
    case h_2 => cases h

/-! ## The local file -/

/-- The stream has the file open, and the file and the buffer hold what was read. -/
structure Holds (d : Folder Filename) (f : Filename) (st : Stream) (received : Bytes) : Prop where
  inode : d.inode f = some st.ino
  good : st.good
  offset : st.offset = (d.contents st.ino).length
  received : received = d.contents st.ino ++ st.buffer

section Holds

variable {d d' : Folder Filename} {f : Filename} {st : Stream} {received bs : Bytes} {ino : ℕ}

theorem holds_openTruncate (h : d.openTruncate f = some (ino, d')) :
    Holds d' f ⟨ino, 0, [], true⟩ [] := by
  have hnil := d.inode_openTruncate h
  exact ⟨hnil.1, rfl, by simp [hnil.2], by simp [hnil.2]⟩

theorem Holds.write (h : Holds d f st received) (bs : Bytes) :
    Holds d f (st.write bs) (received ++ bs) := by
  rw [Stream.write, if_pos h.good]
  exact ⟨h.inode, h.good, h.offset, by rw [h.received, List.append_assoc]⟩

theorem Holds.flush (h : Holds d f st received) (n : ℕ) :
    Holds (st.flush d n).1 f (st.flush d n).2 received := by
  have hcontents : (st.flush d n).1.contents st.ino = d.contents st.ino ++ st.buffer.take n := by
    rw [Stream.flush, Folder.write, h.offset, Bytes.overwrite_length_self]
    exact Function.update_self ..
  refine ⟨h.inode, h.good, ?_, ?_⟩
  · rw [Stream.flush] at hcontents ⊢
    rw [hcontents, List.length_append, h.offset]
  · rw [Stream.flush] at hcontents ⊢
    rw [hcontents, List.append_assoc, List.take_append_drop, h.received]

/-- A file that is closed holds what was read. -/
theorem Holds.content_close (h : Holds d f st received) :
    (st.flush d st.buffer.length).1.content f = some received := by
  obtain ⟨hinode, -, -, hreceived⟩ := h.flush st.buffer.length
  have hempty : (st.flush d st.buffer.length).2.buffer = [] := List.drop_length ..
  rw [hempty, List.append_nil] at hreceived
  rw [Folder.content, hinode, Option.map_some, hreceived]

/-- What changes under another name leaves the file. -/
theorem Holds.of_changesOnly {g : Filename} (h : Holds d f st received) (hc : d.ChangesOnly d' g)
    (hg : f ≠ g) : Holds d' f st received := by
  have hcontents : d'.contents st.ino = d.contents st.ino := by
    have hcontent := hc.content hg
    rw [Folder.content, Folder.content, hc.inode hg, h.inode] at hcontent
    simpa using hcontent
  exact ⟨(hc.inode hg).trans h.inode, h.good, by rw [hcontents]; exact h.offset,
    by rw [hcontents]; exact h.received⟩

end Holds

/-! ## The connection -/

variable {w₀ w' : World} {a : Action}

/-- A step of the server adds to what is written, and to nothing when the handler or the
server has ended. -/
theorem sent_step (hs : x.world.step a = some w') : x.sent <+: sent { x with world := w' } ∧
    (x.closed → sent { x with world := w' } = x.sent ∧ closed { x with world := w' }) := by
  have hup := World.live_of_step hs
  cases hdown : x.download with
  | none =>
    have hsent : x.sent = [] := by rw [sent, hdown]; rfl
    rw [hsent]
    refine ⟨List.nil_prefix, fun hclosed => ?_⟩
    simp [closed, hup, hdown] at hclosed
  | some u =>
    obtain ⟨i, hi, hu⟩ := Option.bind_eq_some_iff.mp hdown
    obtain ⟨u', hu', hcase⟩ := World.download_step hs hu
    have hdown' : download { x with world := w' } = some u' :=
      Option.bind_eq_some_iff.mpr ⟨i, hi, hu'⟩
    have hsent : x.sent = u.pc.sent := by rw [sent, hdown]; rfl
    have hsent' : sent { x with world := w' } = u'.pc.sent := by rw [sent, hdown']; rfl
    rw [hsent, hsent']
    rcases hcase with rfl | ⟨c, pc, -, hn, rfl⟩
    · refine ⟨List.prefix_rfl, fun hclosed => ⟨rfl, ?_⟩⟩
      simp only [closed, hup, hdown, Bool.false_or] at hclosed
      rw [closed, hdown', hclosed, Bool.or_true]
    · refine ⟨Download.sent_next hn, fun hclosed => ?_⟩
      have hended : u.pc.hasEnded := by simpa [closed, hup, hdown] using hclosed
      rw [Download.next_of_ended hended] at hn
      cases hn

/-- What the client has of the connection, where it stands, while it can open and write its
file. -/
def Reads (f : Filename) (x : Fetch) : Prop :=
  match x.pc with
  | .connecting | .opening => x.taken = 0 ∧ x.reports = []
  | .reading st => x.taken ≤ x.sent.length ∧ x.reports = [] ∧
      Holds x.folder f st (x.sent.take x.taken)
  | .closing st => .success ∈ x.reports →
      x.reports = [.success] ∧ x.closed ∧ Holds x.folder f st x.sent
  | .ended => .success ∈ x.reports →
      x.reports = [.success] ∧ x.closed ∧ x.folder.content f = some x.sent

theorem Reads.server (h : x.Reads f) (hs : x.world.step a = some w') :
    Reads f { x with world := w' } := by
  obtain ⟨hpre, hclosed⟩ := sent_step hs
  unfold Reads at h ⊢
  cases hpc : x.pc with
  | connecting | opening =>
    rw [hpc] at h
    exact h
  | reading st =>
    rw [hpc] at h
    obtain ⟨hle, hreports, hholds⟩ := h
    have htake : (sent { x with world := w' }).take x.taken = x.sent.take x.taken := by
      obtain ⟨rest, hrest⟩ := hpre
      rw [← hrest, List.take_append_of_le_length hle]
    exact ⟨hle.trans hpre.length_le, hreports, htake.symm ▸ hholds⟩
  | closing st =>
    rw [hpc] at h
    intro hsuccess
    obtain ⟨hreports, hc, hholds⟩ := h hsuccess
    obtain ⟨hsent, hc'⟩ := hclosed hc
    exact ⟨hreports, hc', hsent.symm ▸ hholds⟩
  | ended =>
    rw [hpc] at h
    intro hsuccess
    obtain ⟨hreports, hc, hcontent⟩ := h hsuccess
    obtain ⟨hsent, hc'⟩ := hclosed hc
    exact ⟨hreports, hc', hsent.symm ▸ hcontent⟩

theorem Reads.client (h : x.Reads f) {call : FetchCall} (hok : x.WritesOk (.client call))
    (hoff : x.offers f call) (hn : x.next f call = some x') : x'.Reads f := by
  unfold Reads at h
  cases next_cases hn with
  | connect before i =>
    rw [before] at h
    exact h
  | connectFail before =>
    rw [before] at h
    intro hsuccess
    simp [h.2] at hsuccess
  | openFile before opened =>
    rw [before] at h
    refine ⟨?_, h.2, ?_⟩
    · rw [h.1]
      exact Nat.zero_le _
    · rw [h.1, List.take_zero]
      exact holds_openTruncate opened
  | openFail | spoil | closeFail => exact absurd hok (by simp [WritesOk])
  | @piece st bs before =>
    rw [before] at h
    obtain ⟨hle, hreports, hholds⟩ := h
    have hpiece : bs <+: x.sent.drop x.taken := hoff
    refine ⟨Bytes.add_length_le_of_prefix hpiece hle, hreports, ?_⟩
    have hwrite := hholds.write bs
    rwa [← Bytes.take_add_of_prefix hpiece] at hwrite
  | endOfStream before =>
    rw [before] at h
    obtain ⟨hle, hreports, hholds⟩ := h
    obtain ⟨hall, hclosed⟩ : x.sent.length ≤ x.taken ∧ x.closed := hoff
    rw [List.take_of_length_le hall] at hholds
    exact fun _ => ⟨by simp [hreports], hclosed, hholds⟩
  | readFail before =>
    rw [before] at h
    intro hsuccess
    simp [h.2.1] at hsuccess
  | flush before n =>
    rw [before] at h
    exact ⟨h.1, h.2.1, h.2.2.flush n⟩
  | close before =>
    rw [before] at h
    intro hsuccess
    obtain ⟨hreports, hclosed, hholds⟩ := h hsuccess
    exact ⟨hreports, hclosed, hholds.content_close⟩

theorem Reads.step {b : FetchAction} (h : x.Reads f) (hok : x.WritesOk b)
    (hs : x.step f b = some x') : x'.Reads f := by
  cases b with
  | server a =>
    obtain ⟨w', hstep, rfl⟩ := Option.map_eq_some_iff.mp hs
    exact h.server hstep
  | client call =>
    obtain ⟨hoff, hn⟩ := Option.ite_none_right_eq_some.mp hs
    exact h.client hok hoff hn

/-! ## The handler -/

/-- The handler gives a complete file, and the stream ends when it has ended. -/
structure Serves (w₀ : World) (f : Filename) (x : Fetch) : Prop where
  undisturbed : x.world.Undisturbed
  intact : w₀.Intact x.world
  handler : ∀ i, x.handler = some i →
    ∃ u, x.world.downloads[i]? = some u ∧ u.filename = f ∧ u.Gives w₀ x.world
  unreported : x.pc.reported = false → x.reports = []
  ended : x.reports = [.success] → x.download.any fun u => u.pc.hasEnded

theorem serves_start {s : Server} (h : World.Undisturbed (World.initial s))
    (folder : Folder Filename) :
    Serves (World.initial s) f (start (World.initial s) folder) where
  undisturbed := h
  intact := World.intact_self _
  handler _ hi := by cases hi
  unreported _ := rfl
  ended hr := by cases hr

theorem Serves.server (h : Serves w₀ f x) (ha : x.Faultless f (.server a))
    (hs : x.world.step a = some w') : Serves w₀ f { x with world := w' } := by
  obtain ⟨ha, hcall⟩ := ha
  refine ⟨h.undisturbed.step ha hs, h.intact.step h.undisturbed ha hs, fun i hi => ?_,
    h.unreported, fun hr => ?_⟩
  · obtain ⟨u, hu, hname, hgives⟩ := h.handler i hi
    obtain ⟨u', hu', rfl | ⟨c, pc, rfl, hn, rfl⟩⟩ := World.download_step hs hu
    · exact ⟨u', hu', hname, hgives.step h.undisturbed ha hs⟩
    · obtain ⟨hc, hopen⟩ := hcall hi
      have hgives' := hgives.next h.undisturbed h.intact hn hc fun he => hname.symm ▸ hopen he
      exact ⟨_, hu', hname, hgives'.step h.undisturbed ha hs⟩
  · have hended := h.ended hr
    cases hdown : x.download with
    | none =>
      rw [hdown] at hended
      cases hended
    | some u =>
      rw [hdown] at hended
      obtain ⟨i, hi, hu⟩ := Option.bind_eq_some_iff.mp hdown
      obtain ⟨u', hu', rfl | ⟨c, pc, rfl, hn, rfl⟩⟩ := World.download_step hs hu
      · have hdown' : download { x with world := w' } = some u' :=
          Option.bind_eq_some_iff.mpr ⟨i, hi, hu'⟩
        rw [hdown']
        exact hended
      · rw [Download.next_of_ended (by simpa using hended)] at hn
        cases hn

theorem Serves.client (h : Serves w₀ f x) {call : FetchCall} (hup : x.Faultless f (.client call))
    (hoff : x.offers f call) (hn : x.next f call = some x') : Serves w₀ f x' := by
  cases next_cases hn with
  | connect before i =>
    have hreports := h.unreported (by rw [before]; rfl)
    obtain ⟨-, u, hu, hname, hwaiting⟩ := hoff
    refine ⟨h.undisturbed, h.intact, fun j hj => ?_, fun _ => hreports, fun hr => ?_⟩
    · obtain rfl : i = j := Option.some.inj hj
      refine ⟨u, hu, hname, ?_⟩
      rw [Download.Gives, hwaiting]
      trivial
    · simp [hreports] at hr
  | connectFail before | openFail before | readFail before =>
    have hreports := h.unreported (by rw [before]; rfl)
    refine ⟨h.undisturbed, h.intact, h.handler, fun hp => (by cases hp), fun hr => ?_⟩
    simp [hreports] at hr
  | openFile before | piece before | flush before | spoil before =>
    have hreports := h.unreported (by rw [before]; rfl)
    exact ⟨h.undisturbed, h.intact, h.handler, fun _ => hreports, h.ended⟩
  | endOfStream before =>
    have hclosed : x.closed := hoff.2
    have hup : x.world.terminated = false := hup
    rw [closed, hup, Bool.false_or] at hclosed
    exact ⟨h.undisturbed, h.intact, h.handler, fun hp => (by cases hp), fun _ => hclosed⟩
  | close before | closeFail before =>
    exact ⟨h.undisturbed, h.intact, h.handler, fun hp => (by cases hp), h.ended⟩

theorem Serves.step {b : FetchAction} (h : Serves w₀ f x) (hb : x.Faultless f b)
    (hs : x.step f b = some x') : Serves w₀ f x' := by
  cases b with
  | server a =>
    obtain ⟨w', hstep, rfl⟩ := Option.map_eq_some_iff.mp hs
    exact h.server hb hstep
  | client call =>
    obtain ⟨hoff, hn⟩ := Option.ite_none_right_eq_some.mp hs
    exact h.client hb hoff hn

/-- What the handler has given when the stream has ended is a complete file. -/
theorem Serves.complete (h : Serves w₀ f x) (hr : x.reports = [.success]) :
    w₀.Complete x.world f x.sent := by
  have hended := h.ended hr
  cases hdown : x.download with
  | none =>
    rw [hdown] at hended
    cases hended
  | some u =>
    rw [hdown] at hended
    obtain ⟨i, hi, hu⟩ := Option.bind_eq_some_iff.mp hdown
    obtain ⟨v, hv, hname, hgives⟩ := h.handler i hi
    obtain rfl : u = v := Option.some.inj (hu.symm.trans hv)
    have hsent : x.sent = u.pc.sent := by rw [sent, hdown]; rfl
    rw [hsent]
    unfold Download.Gives at hgives
    cases hpc : u.pc with
    | ended sent =>
      rw [hpc, hname] at hgives
      exact hgives
    | _ => simp [hpc, DownloadPc.hasEnded] at hended

/-- A reported download holds what the handler has written, if the client can open and write
its file, and that is a complete file, if the handler does not fail either. -/
theorem reported_whole {max : UInt64} {folder out : Folder Filename} {listing : List Filename}
    {as : List FetchAction} (hl : World.Lists listing folder)
    (hr : run (step f) (start (World.initial (.generateFilesInStorage max folder listing)) out) as =
      some x)
    (hok : Along (step f) WritesOk
      (start (World.initial (.generateFilesInStorage max folder listing)) out) as)
    (hsuccess : .success ∈ x.reports) (hended : x.pc = .ended) :
    x.folder.content f = some x.sent ∧
      (Along (step f) (Faultless f)
          (start (World.initial (.generateFilesInStorage max folder listing)) out) as →
        World.Complete (World.initial (.generateFilesInStorage max folder listing)) x.world f
          x.sent) := by
  have hreads : x.Reads f := run_invariant (Reads f) (fun _ _ _ h ha hs => h.step ha hs)
    (by exact ⟨rfl, rfl⟩) hr hok
  unfold Reads at hreads
  rw [hended] at hreads
  obtain ⟨hreports, -, hcontent⟩ := hreads hsuccess
  refine ⟨hcontent, fun hP => ?_⟩
  have hserves := run_invariant (Serves (World.initial (.generateFilesInStorage max folder listing)) f)
    (fun _ _ _ h ha hs => h.step ha hs) (serves_start (World.undisturbed_initial hl) out) hr hP
  exact hserves.complete hreports

/-! ## Runs -/

/-- An upload of two bytes, up to its last read. -/
def uploadOfTwo : List Action :=
  [.receive (addDatagram ⟨1, 1⟩ 1 [97] 2), .upload 0 .checkAndReserveSpace,
    .upload 0 .addFileToStorage, .upload 0 (.announce (some 5)), .upload 0 (.select .ready),
    .upload 0 (.accept true), .upload 0 (.openFile true), .upload 0 (.read (.piece [1, 2])),
    .upload 0 (.flush 1 true), .upload 0 (.read .endOfStream)]

/-- A fetch of the name; the handler reads one block, and its write may fail. -/
def fetchOf (error : Option ℕ) (bs : Bytes) : List FetchAction :=
  [.server (.receive (simpleDatagram ⟨2, 2⟩ 2 fileGetRequest [97])),
    .server (.download 0 (.announce (some 6))), .client (.connect (some 0)),
    .server (.download 0 (.select .ready)), .client (.openFile true),
    .server (.download 0 (.accept true)), .server (.download 0 (.openFile true)),
    .server (.download 0 (.readFile none)), .server (.download 0 (.write error)),
    .client (.read (.piece bs)), .client (.read .endOfStream), .client (.closeFile true)]

/-- The upload is kept, and then the name is fetched. -/
def fetchAfterUpload (error : Option ℕ) (bs : Bytes) : List FetchAction :=
  uploadOfTwo.map .server ++ .server (.upload 0 (.closeFile true)) :: fetchOf error bs

/-- The name is fetched before the upload closes its file. -/
def fetchDuringUpload : List FetchAction :=
  uploadOfTwo.map .server ++ fetchOf none [1] ++ [.server (.upload 0 (.closeFile true))]

theorem keptUpload_whole :
    ∃ x, run (step [97]) (start (World.started 10) .empty) (fetchAfterUpload none [1, 2]) = some x ∧
      x.folder.content [97] = some [1, 2] ∧
      World.Complete (World.started 10) x.world [97] [1, 2] := by
  obtain ⟨x, hr, hx⟩ : ∃ x, run (step [97]) (start (World.started 10) .empty)
      (fetchAfterUpload none [1, 2]) = some x ∧
      decide (.success ∈ x.reports ∧ x.pc = .ended ∧ x.sent = [1, 2]) :=
    exists_run_of_any _ (by decide)
  obtain ⟨hsuccess, hended, hsent⟩ := of_decide_eq_true hx
  obtain ⟨hcontent, hcomplete⟩ :=
    reported_whole World.lists_empty hr (by decide) hsuccess hended
  rw [hsent] at hcontent hcomplete
  exact ⟨x, hr, hcontent, hcomplete (by decide)⟩

/-- What no kept upload has received, and no initial file of the name held, is not whole. -/
theorem not_whole {bs : Bytes} (hsuccess : .success ∈ x.reports) (hended : x.pc = .ended)
    (hcontent : x.folder.content f = some bs) (hinitial : w₀.server.folder.content f = none)
    (hkept : ∀ u ∈ x.world.uploads, u.pc ≠ .kept bs) : ¬x.Whole f w₀ := by
  intro h
  obtain ⟨bs', hbs, hinitial' | ⟨u, hu, -, hpc, -⟩⟩ := h hsuccess hended
  · rw [hinitial] at hinitial'
    cases hinitial'
  · obtain rfl : bs' = bs := Option.some.inj (hbs.symm.trans hcontent)
    exact hkept u hu hpc

/-- A run that reports one byte, which is no kept upload. -/
theorem exists_not_whole {as : List FetchAction}
    (h : (run (step [97]) (start (World.started 10) .empty) as).any fun x =>
      decide (.success ∈ x.reports ∧ x.pc = .ended ∧ x.folder.content [97] = some [1] ∧
        ∀ u ∈ x.world.uploads, u.pc ≠ .kept [1])) :
    ∃ x, run (step [97]) (start (World.started 10) .empty) as = some x ∧
      ¬x.Whole [97] (World.started 10) := by
  obtain ⟨x, hr, hx⟩ := exists_run_of_any _ h
  obtain ⟨hsuccess, hended, hcontent, hkept⟩ := of_decide_eq_true hx
  exact ⟨x, hr, not_whole hsuccess hended hcontent rfl hkept⟩

/-- A success is reported when the handler could write one byte of two, and when the file
was still being uploaded. -/
theorem cutShort_not_whole :
    (∃ x, run (step [97]) (start (World.started 10) .empty) (fetchAfterUpload (some 1) [1]) =
      some x ∧ ¬x.Whole [97] (World.started 10)) ∧
    ∃ x, run (step [97]) (start (World.started 10) .empty) fetchDuringUpload = some x ∧
      ¬x.Whole [97] (World.started 10) := by
  constructor
  · exact exists_not_whole (by decide)
  · exact exists_not_whole (by decide)

end Fetch

end Netstore
