import Netstore.Fetch

/-!
# Fetches at the same time

The client runs every fetch in a thread of its own. The threads fetch from any number of servers,
and write to one output folder. Fetches of different names write to different files, so a fetch
that is reported has in its file what its handler has written, whatever the other threads and the
servers do meanwhile, as long as no other fetch of the name has the file open when it opens it, or
opens it from then on (`reported_apart`).
-/

namespace Netstore

open Transition

/-! ## The client -/

/-- A fetch in its thread. -/
structure FetchThread where
  filename : Filename
  /-- The server that the file is fetched from. -/
  site : ℕ
  pc : FetchPc
  reports : List Report
  handler : Option ℕ
  taken : ℕ

/-- Servers and a client that fetches files from them. -/
structure Fetches where
  worlds : List World
  /-- The client's output folder. -/
  folder : Folder Filename
  threads : List FetchThread

/-- A step of a server, the start of a fetch or a call of one. -/
inductive FetchesAction where
  | server (k : ℕ) (a : Action)
  /-- The command loop starts a fetch. -/
  | fetch (filename : Filename) (site : ℕ)
  | client (i : ℕ) (call : FetchCall)
  deriving DecidableEq

/-- The call does not fail to open or write the local file. -/
def FetchCall.fileOk : FetchCall → Bool
  | openFile ok | flush _ ok | closeFile ok => ok
  | _ => true

namespace FetchPc

/-- The stream that a fetch has open. -/
def stream : FetchPc → Option Stream
  | reading st | closing st => some st
  | _ => none

end FetchPc

namespace FetchThread

variable (t : FetchThread)

/-- The fetch with its server and the output folder. -/
def fetch (w : World) (folder : Folder Filename) : Fetch :=
  ⟨w, folder, t.pc, t.reports, t.handler, t.taken⟩

/-- The thread after a call of its fetch. -/
def after (x : Fetch) : FetchThread :=
  { t with pc := x.pc, reports := x.reports, handler := x.handler, taken := x.taken }

/-- The fetch has its file open, or has ended with a success. -/
def writes : Bool :=
  match t.pc with
  | .connecting | .opening => false
  | .reading _ | .closing _ => true
  | .ended => .success ∈ t.reports

end FetchThread

namespace Fetches

/-- Before the first fetch. -/
def start (worlds : List World) (folder : Folder Filename) : Fetches :=
  ⟨worlds, folder, []⟩

/-- Each fetch has its server, and all write into one folder. -/
def step (x : Fetches) : FetchesAction → Option Fetches
  | .server k a => (stepAt World.step x.worlds k a).map fun worlds => { x with worlds }
  | .fetch filename site =>
    some { x with threads := x.threads ++ [⟨filename, site, .connecting, [], none, 0⟩] }
  | .client i call =>
    x.threads[i]?.bind fun t => x.worlds[t.site]?.bind fun w =>
      ((t.fetch w x.folder).step t.filename (.client call)).map fun y =>
        { x with folder := y.folder, threads := x.threads.set i (t.after y) }

variable (i k : ℕ) (x : Fetches)

/-- The `i`-th fetch opens and writes its file, when no other fetch of the name has it open, and
none opens it from then on. -/
def Apart : FetchesAction → Prop
  | .client j call => ∀ t ∈ x.threads[i]?,
    if j = i then
      call.fileOk ∧ (call = .openFile true →
        ∀ u ∈ x.threads.eraseIdx i, u.filename = t.filename → u.pc.stream = none)
    else call = .openFile true → t.writes → ∀ u ∈ x.threads[j]?, u.filename ≠ t.filename
  | _ => True

/-- The `k`-th server's steps are orderly, and it serves the `i`-th fetch without a failure. -/
def Faultless : FetchesAction → Prop
  | .server j a => j = k → ∀ w ∈ x.worlds[k]?, World.Orderly w a ∧
    ∀ t ∈ x.threads[i]?, (t.fetch w x.folder).Faultless t.filename (.server a)
  | .client j call => j = i → ∀ w ∈ x.worlds[k]?,
    ∀ t ∈ x.threads[i]?, (t.fetch w x.folder).Faultless t.filename (.client call)
  | _ => True

instance (a : FetchesAction) : Decidable (Apart i x a) := by
  unfold Apart
  split
  · infer_instance
  · infer_instance

instance (a : FetchesAction) : Decidable (Faultless i k x a) := by
  unfold Faultless
  split <;> infer_instance

end Fetches

/-! ## The output folder -/

namespace Fetch

variable {f : Filename} {x x' : Fetch} {call : FetchCall}

/-- What a call of a fetch does to the output folder. -/
structure Touches (f : Filename) (x : Fetch) (call : FetchCall) (x' : Fetch) : Prop where
  /-- It writes to the file of its name only, which it opens or has open. -/
  changes : x'.folder = x.folder ∨
    x.folder.ChangesOnly x'.folder f ∧ (call = .openFile true ∨ x.pc.stream.isSome)
  keeps : ∀ {ino}, x.folder.inode f = some ino → x'.folder.inode f = some ino
  stream : ∀ st, x'.pc.stream = some st → x'.folder.inode f = some st.ino

theorem touches_next (hd : x.folder.Unlinked)
    (hst : ∀ st, x.pc.stream = some st → x.folder.inode f = some st.ino)
    (h : x.next f call = some x') : Touches f x call x' := by
  cases next_cases h with
  | connect | connectFail | openFail => exact ⟨Or.inl rfl, fun hi => hi, fun st hs => by cases hs⟩
  | openFile before opened =>
    obtain ⟨hc, hi, hkeep⟩ := hd.openTruncate opened
    exact ⟨Or.inr ⟨hc, Or.inl rfl⟩, hkeep, fun st hs => by cases hs; exact hi⟩
  | @piece st bs before =>
    have hi := hst st (by rw [before]; rfl)
    exact ⟨Or.inl rfl, fun hi => hi, fun st' hs => by cases hs; simpa using hi⟩
  | @endOfStream st before | @readFail st before =>
    have hi := hst st (by rw [before]; rfl)
    exact ⟨Or.inl rfl, fun hi => hi, fun st' hs => by cases hs; exact hi⟩
  | @flush st before n =>
    have hi := hst st (by rw [before]; rfl)
    exact ⟨Or.inr ⟨(hd.sole hi).changesOnly_setContents, Or.inr (by rw [before]; rfl)⟩,
      fun hi => hi, fun st' hs => by cases hs; exact hi⟩
  | @spoil st before n =>
    have hi := hst st (by rw [before]; rfl)
    exact ⟨Or.inl rfl, fun hi => hi, fun st' hs => by cases hs; exact hi⟩
  | @close st before =>
    have hi := hst st (by rw [before]; rfl)
    exact ⟨Or.inr ⟨(hd.sole hi).changesOnly_setContents, Or.inr (by rw [before]; rfl)⟩,
      fun hi => hi, fun st' hs => by cases hs⟩
  | closeFail => exact ⟨Or.inl rfl, fun hi => hi, fun st' hs => by cases hs⟩

/-- A fetch opens a file with the call that opens it. -/
theorem stream_next (h : x.next f call = some x') (hst : x.pc.stream = none)
    (hcall : call ≠ .openFile true) : x'.pc.stream = none := by
  cases next_cases h with
  | openFile => exact (hcall rfl).elim
  | connect | connectFail | openFail | close | closeFail => rfl
  | piece before | endOfStream before | readFail before | flush before | spoil before =>
    rw [before] at hst
    cases hst

theorem world_next (h : x.next f call = some x') : x'.world = x.world := by
  cases next_cases h <;> rfl

end Fetch

namespace Fetches

variable {x x' : Fetches} {i j k : ℕ} {t u : FetchThread} {call : FetchCall}

/-- A call of a fetch. -/
theorem client_cases (h : x.step (.client i call) = some x') : ∃ t w y,
    x.threads[i]? = some t ∧ x.worlds[t.site]? = some w ∧
      (t.fetch w x.folder).step t.filename (.client call) = some y ∧
      x' = { x with folder := y.folder, threads := x.threads.set i (t.after y) } := by
  obtain ⟨t, ht, h⟩ := Option.bind_eq_some_iff.mp h
  obtain ⟨w, hw, h⟩ := Option.bind_eq_some_iff.mp h
  obtain ⟨y, hy, rfl⟩ := Option.map_eq_some_iff.mp h
  exact ⟨t, w, y, ht, hw, hy, rfl⟩

/-- No file of the output folder has two names, and a thread writes to the file of its name. -/
structure Tidy (x : Fetches) : Prop where
  unlinked : x.folder.Unlinked
  streams : ∀ t ∈ x.threads, ∀ st, t.pc.stream = some st → x.folder.inode t.filename = some st.ino

theorem Tidy.touches (h : x.Tidy) (ht : x.threads[i]? = some t) {w : World} {y : Fetch}
    (hs : (t.fetch w x.folder).step t.filename (.client call) = some y) :
    Fetch.Touches t.filename (t.fetch w x.folder) call y := by
  obtain ⟨-, hn⟩ := Option.ite_none_right_eq_some.mp hs
  exact Fetch.touches_next h.unlinked (h.streams t (List.mem_of_getElem? ht)) hn

theorem Tidy.step {a : FetchesAction} (h : x.Tidy) (hs : x.step a = some x') : x'.Tidy := by
  cases a with
  | server k a =>
    obtain ⟨worlds, -, rfl⟩ := Option.map_eq_some_iff.mp hs
    exact ⟨h.unlinked, h.streams⟩
  | fetch f site =>
    cases hs
    refine ⟨h.unlinked, fun t ht st hst => ?_⟩
    rcases List.mem_append.mp ht with ht | ht
    · exact h.streams t ht st hst
    · rw [List.mem_singleton.mp ht] at hst
      cases hst
  | client i call =>
    obtain ⟨t, w, y, ht, hw, hy, rfl⟩ := client_cases hs
    have htouch := h.touches ht hy
    rcases htouch.changes with hfolder | ⟨hc, -⟩
    · have hfolder : y.folder = x.folder := hfolder
      refine ⟨hfolder ▸ h.unlinked, fun v hv st hst => ?_⟩
      rcases mem_set_of_getElem? ht hv with rfl | ⟨j, -, hj⟩
      · exact htouch.stream st hst
      · exact hfolder ▸ h.streams v (List.mem_of_getElem? hj) st hst
    · refine ⟨h.unlinked.of_changesOnly hc, fun v hv st hst => ?_⟩
      rcases mem_set_of_getElem? ht hv with rfl | ⟨j, -, hj⟩
      · exact htouch.stream st hst
      · have hi := h.streams v (List.mem_of_getElem? hj) st hst
        by_cases hv : v.filename = t.filename
        · rw [hv] at hi ⊢
          exact htouch.keeps hi
        · exact (hc.inode hv).trans hi

/-! ## One of the fetches -/

/-- What a fetch writes is in its file, if what changes in the folder is under other names. -/
theorem reads_of_changesOnly {w : World} {d d' : Folder Filename} {g : Filename}
    (h : (t.fetch w d).Reads t.filename) (hc : d.ChangesOnly d' g)
    (hg : t.writes → t.filename ≠ g) : (t.fetch w d').Reads t.filename := by
  unfold Fetch.Reads at h ⊢
  simp only [FetchThread.fetch] at h ⊢
  cases hpc : t.pc with
  | connecting | opening =>
    rw [hpc] at h
    exact h
  | reading st =>
    rw [hpc] at h
    exact ⟨h.1, h.2.1, h.2.2.of_changesOnly hc (hg (by rw [FetchThread.writes, hpc]))⟩
  | closing st =>
    rw [hpc] at h
    intro hsuccess
    obtain ⟨hreports, hclosed, hholds⟩ := h hsuccess
    exact ⟨hreports, hclosed, hholds.of_changesOnly hc (hg (by rw [FetchThread.writes, hpc]))⟩
  | ended =>
    rw [hpc] at h
    intro hsuccess
    obtain ⟨hreports, hclosed, hcontent⟩ := h hsuccess
    have hname := hg (by rw [FetchThread.writes, hpc]; exact decide_eq_true hsuccess)
    exact ⟨hreports, hclosed, (hc.content hname).trans hcontent⟩

theorem fetch_after {w : World} {y : Fetch} (hy : y.world = w) :
    (t.after y).fetch w y.folder = y := by
  subst hy
  rfl

/-- A fetch comes to write its file with the call that opens it. -/
theorem opens_of_writes {w : World} {d : Folder Filename} {y : Fetch}
    (h : (t.fetch w d).Reads t.filename) (hok : call.fileOk)
    (hn : (t.fetch w d).next t.filename call = some y) (hbefore : t.writes = false)
    (hafter : (t.after y).writes) : call = .openFile true := by
  unfold Fetch.Reads at h
  cases Fetch.next_cases hn with
  | openFile => rfl
  | openFail => cases hok
  | connect => cases hafter
  | connectFail before =>
    rw [before] at h
    have hsuccess : .success ∈ (t.fetch w d).reports ++ [.failure] := of_decide_eq_true hafter
    simp [h.2] at hsuccess
  | piece before | endOfStream before | readFail before | flush before | spoil before
  | close before | closeFail before =>
    have hpc : t.pc = _ := before
    rw [FetchThread.writes, hpc] at hbefore
    cases hbefore

/-- The `i`-th fetch is the only one that writes to the file of its name, which holds what it has
read. -/
structure Alone (i : ℕ) (x : Fetches) : Prop where
  only : ∀ t, x.threads[i]? = some t → t.writes →
    ∀ u ∈ x.threads.eraseIdx i, u.filename = t.filename → u.pc.stream = none
  reads : ∀ t w, x.threads[i]? = some t → x.worlds[t.site]? = some w →
    (t.fetch w x.folder).Reads t.filename

theorem Alone.server {a : Action} (h : x.Alone i) (hs : x.step (.server k a) = some x') :
    x'.Alone i := by
  obtain ⟨worlds, hworlds, rfl⟩ := Option.map_eq_some_iff.mp hs
  obtain ⟨v, v', hv, hstep, rfl⟩ := stepAt_eq_some hworlds
  refine ⟨h.only, fun t w ht hw => ?_⟩
  rcases (getElem?_set_eq_some hv).mp hw with ⟨hsite, rfl⟩ | ⟨-, hw⟩
  · exact (h.reads t v ht (hsite ▸ hv)).server hstep
  · exact h.reads t w ht hw

theorem Alone.fetch {f : Filename} (h : x.Alone i) (hs : x.step (.fetch f k) = some x') :
    x'.Alone i := by
  cases hs
  refine ⟨fun t ht hwrites u hu hname => ?_, fun t w ht hw => ?_⟩
  · rcases getElem?_concat_eq_some.mp ht with ht | ⟨-, rfl⟩
    · obtain ⟨j, hj, hu⟩ := List.mem_eraseIdx_iff_getElem?.mp hu
      rcases getElem?_concat_eq_some.mp hu with hu | ⟨-, rfl⟩
      · exact h.only t ht hwrites u (List.mem_eraseIdx_iff_getElem?.mpr ⟨j, hj, hu⟩) hname
      · rfl
    · cases hwrites
  · rcases getElem?_concat_eq_some.mp ht with ht | ⟨-, rfl⟩
    · exact h.reads t w ht hw
    · exact ⟨rfl, rfl⟩

/-- A call of the fetch itself. -/
theorem Alone.own (h : x.Alone i) (ha : x.Apart i (.client i call))
    (hs : x.step (.client i call) = some x') : x'.Alone i := by
  obtain ⟨t, w, y, ht, hw, hy, rfl⟩ := client_cases hs
  obtain ⟨hoff, hn⟩ := Option.ite_none_right_eq_some.mp hy
  have hapart := ha t ht
  rw [if_pos rfl] at hapart
  obtain ⟨hok, halone⟩ := hapart
  have hreads := h.reads t w ht hw
  have hok' : (t.fetch w x.folder).WritesOk (.client call) := by
    cases call <;> first | exact hok | trivial
  refine ⟨fun v hv hwrites u hu hname => ?_, fun v w' hv hw' => ?_⟩
  · rw [List.eraseIdx_set_eq] at hu
    obtain ⟨-, rfl⟩ | ⟨hne, -⟩ := (getElem?_set_eq_some ht).mp hv
    · by_cases hbefore : t.writes
      · exact h.only t ht hbefore u hu hname
      · exact halone (opens_of_writes hreads hok hn (by simpa using hbefore) hwrites) u hu hname
    · exact (hne rfl).elim
  · obtain ⟨-, rfl⟩ | ⟨hne, -⟩ := (getElem?_set_eq_some ht).mp hv
    · obtain rfl : w = w' := Option.some.inj (hw.symm.trans hw')
      rw [fetch_after (w := w) (Fetch.world_next hn)]
      exact hreads.client hok' hoff hn
    · exact (hne rfl).elim

/-- A call of another fetch. -/
theorem Alone.other (h : x.Alone i) (hd : x.Tidy) (hij : j ≠ i) (ha : x.Apart i (.client j call))
    (hs : x.step (.client j call) = some x') : x'.Alone i := by
  obtain ⟨u, w, y, hu, hw, hy, rfl⟩ := client_cases hs
  have htouch := hd.touches hu hy
  obtain ⟨-, hn⟩ := Option.ite_none_right_eq_some.mp hy
  have hmem : u ∈ x.threads.eraseIdx i := List.mem_eraseIdx_iff_getElem?.mpr ⟨j, hij, hu⟩
  -- a fetch of the name neither has the file open nor opens it
  have hopen : ∀ t, x.threads[i]? = some t → t.writes → u.filename = t.filename →
      u.pc.stream = none ∧ call ≠ .openFile true := by
    intro t ht hwrites hname
    have hapart := ha t ht
    rw [if_neg hij] at hapart
    exact ⟨h.only t ht hwrites u hmem hname, fun hcall => hapart hcall hwrites u hu hname⟩
  refine ⟨fun t ht hwrites v hv hname => ?_, fun t w' ht hw' => ?_⟩
  · obtain ⟨hji, -⟩ | ⟨-, ht⟩ := (getElem?_set_eq_some hu).mp ht
    · exact (hij hji.symm).elim
    · obtain ⟨l, hl, hv⟩ := List.mem_eraseIdx_iff_getElem?.mp hv
      obtain ⟨-, rfl⟩ | ⟨-, hv⟩ := (getElem?_set_eq_some hu).mp hv
      · obtain ⟨hst, hcall⟩ := hopen t ht hwrites hname
        exact Fetch.stream_next hn hst hcall
      · exact h.only t ht hwrites v (List.mem_eraseIdx_iff_getElem?.mpr ⟨l, hl, hv⟩) hname
  · obtain ⟨hji, -⟩ | ⟨-, ht⟩ := (getElem?_set_eq_some hu).mp ht
    · exact (hij hji.symm).elim
    · have hreads := h.reads t w' ht hw'
      rcases htouch.changes with hfolder | ⟨hc, hcase⟩
      · have hfolder : y.folder = x.folder := hfolder
        exact hfolder ▸ hreads
      · refine reads_of_changesOnly hreads hc fun hwrites hname => ?_
        obtain ⟨hst, hcall⟩ := hopen t ht hwrites hname.symm
        rcases hcase with hcase | hcase
        · exact hcall hcase
        · rw [FetchThread.fetch, hst] at hcase
          cases hcase

theorem Alone.step {a : FetchesAction} (h : x.Alone i) (hd : x.Tidy) (ha : x.Apart i a)
    (hs : x.step a = some x') : x'.Alone i := by
  cases a with
  | server k a => exact h.server hs
  | fetch f k => exact h.fetch hs
  | client j call =>
    by_cases hij : j = i
    · subst hij
      exact h.own ha hs
    · exact h.other hd hij ha hs

/-! ## Its server -/

variable {w₀ : World}

/-- The `k`-th server's files are complete, and so is what it gives the `i`-th fetch. -/
structure Serving (w₀ : World) (i k : ℕ) (x : Fetches) : Prop where
  world : ∀ w, x.worlds[k]? = some w → w.Undisturbed ∧ w₀.Intact w
  serves : ∀ t w, x.threads[i]? = some t → t.site = k → x.worlds[k]? = some w →
    (t.fetch w x.folder).Serves w₀ t.filename

theorem Serving.server {a : Action} (h : x.Serving w₀ i k) (ha : x.Faultless i k (.server j a))
    (hs : x.step (.server j a) = some x') : x'.Serving w₀ i k := by
  obtain ⟨worlds, hworlds, rfl⟩ := Option.map_eq_some_iff.mp hs
  obtain ⟨v, v', hv, hstep, rfl⟩ := stepAt_eq_some hworlds
  refine ⟨fun w hw => ?_, fun t w ht hsite hw => ?_⟩
  · obtain ⟨rfl, rfl⟩ | ⟨-, hw⟩ := (getElem?_set_eq_some hv).mp hw
    · obtain ⟨hundisturbed, hintact⟩ := h.world v hv
      obtain ⟨horderly, -⟩ := ha rfl v hv
      exact ⟨hundisturbed.step horderly hstep, hintact.step hundisturbed horderly hstep⟩
    · exact h.world w hw
  · obtain ⟨rfl, rfl⟩ | ⟨-, hw⟩ := (getElem?_set_eq_some hv).mp hw
    · exact (h.serves t v ht hsite hv).server ((ha rfl v hv).2 t ht) hstep
    · exact h.serves t w ht hsite hw

theorem Serving.fetch {f : Filename} (h : x.Serving w₀ i k) (hs : x.step (.fetch f j) = some x') :
    x'.Serving w₀ i k := by
  cases hs
  refine ⟨h.world, fun t w ht hsite hw => ?_⟩
  obtain ht | ⟨-, rfl⟩ := getElem?_concat_eq_some.mp ht
  · exact h.serves t w ht hsite hw
  · obtain ⟨hundisturbed, hintact⟩ := h.world w hw
    exact ⟨hundisturbed, hintact, fun j hj => (by cases hj), fun _ => rfl, fun hr => (by cases hr)⟩

theorem Serving.client (h : x.Serving w₀ i k) (ha : x.Faultless i k (.client j call))
    (hs : x.step (.client j call) = some x') : x'.Serving w₀ i k := by
  obtain ⟨u, v, y, hu, hv, hy, rfl⟩ := client_cases hs
  obtain ⟨hoff, hn⟩ := Option.ite_none_right_eq_some.mp hy
  refine ⟨h.world, fun t w ht hsite hw => ?_⟩
  obtain ⟨rfl, rfl⟩ | ⟨-, ht⟩ := (getElem?_set_eq_some hu).mp ht
  · have hsite : u.site = k := hsite
    obtain rfl : v = w := Option.some.inj ((hsite ▸ hv).symm.trans hw)
    rw [fetch_after (w := v) (Fetch.world_next hn)]
    exact (h.serves u v hu hsite hw).client (ha rfl v hw u hu) hoff hn
  · obtain ⟨hundisturbed, hintact, hhandler, hunreported, hended⟩ := h.serves t w ht hsite hw
    exact ⟨hundisturbed, hintact, hhandler, hunreported, hended⟩

theorem Serving.step {a : FetchesAction} (h : x.Serving w₀ i k) (ha : x.Faultless i k a)
    (hs : x.step a = some x') : x'.Serving w₀ i k := by
  cases a with
  | server j a => exact h.server ha hs
  | fetch f j => exact h.fetch hs
  | client j call => exact h.client ha hs

/-- What a reported fetch has in its file is what its handler has written, whatever the other
fetches and the servers do, and that is a complete file of its server, if the server is orderly and
serves it without a failure. -/
theorem reported_apart {worlds : List World} {out : Folder Filename} {as : List FetchesAction}
    {w : World} (hout : out.Unlinked) (hr : run step (start worlds out) as = some x)
    (hP : Along step (Apart i) (start worlds out) as) (ht : x.threads[i]? = some t)
    (hw : x.worlds[t.site]? = some w) (hsuccess : .success ∈ t.reports) (hended : t.pc = .ended) :
    x.folder.content t.filename = some (t.fetch w x.folder).sent ∧
      (∀ w₀, worlds[t.site]? = some w₀ → w₀.Undisturbed →
        Along step (Faultless i t.site) (start worlds out) as →
          w₀.Complete w t.filename (t.fetch w x.folder).sent) := by
  have halone : x.Tidy ∧ x.Alone i := by
    refine run_invariant (fun x => x.Tidy ∧ x.Alone i)
      (fun x a x' h ha hs => ⟨h.1.step hs, h.2.step h.1 ha hs⟩) ?_ hr hP
    exact ⟨⟨hout, fun t ht => by cases ht⟩, fun t ht => (by cases ht), fun t w ht => (by cases ht)⟩
  have hreads := halone.2.reads t w ht hw
  unfold Fetch.Reads at hreads
  simp only [FetchThread.fetch, hended] at hreads
  obtain ⟨hreports, -, hcontent⟩ := hreads hsuccess
  refine ⟨hcontent, fun w₀ hw₀ hundisturbed hfaultless => ?_⟩
  have hserving : x.Serving w₀ i t.site := by
    refine run_invariant (Serving w₀ i t.site) (fun x a x' h ha hs => h.step ha hs) ?_ hr hfaultless
    refine ⟨fun w hw => ?_, fun t w ht => (by cases ht)⟩
    obtain rfl : w₀ = w := Option.some.inj (hw₀.symm.trans hw)
    exact ⟨hundisturbed, World.intact_self _⟩
  exact (hserving.serves t w ht rfl hw).complete hreports

/-- An upload that is kept. -/
def uploadOf (filename bs : Bytes) : List Action :=
  [.receive (addDatagram ⟨1, 1⟩ 1 filename 2), .upload 0 .checkAndReserveSpace,
    .upload 0 .addFileToStorage, .upload 0 (.announce (some 5)), .upload 0 (.select .ready),
    .upload 0 (.accept true), .upload 0 (.openFile true), .upload 0 (.read (.piece bs)),
    .upload 0 (.read .endOfStream), .upload 0 (.closeFile true)]

/-- A download that is asked for and served. -/
def downloadOf (filename : Bytes) : List Action :=
  [.receive (simpleDatagram ⟨2, 2⟩ 2 fileGetRequest filename), .download 0 (.announce (some 6)),
    .download 0 (.select .ready), .download 0 (.accept true), .download 0 (.openFile true),
    .download 0 (.readFile none), .download 0 (.write none)]

/-- Two servers keep a file each, and the client fetches both at once. -/
def twoFetches : List FetchesAction :=
  List.flatten [(uploadOf [97] [1, 2]).map (FetchesAction.server 0),
    (uploadOf [98] [3, 4]).map (FetchesAction.server 1), [.fetch [97] 0, .fetch [98] 1],
    ((downloadOf [97]).take 2).map (FetchesAction.server 0),
    ((downloadOf [98]).take 2).map (FetchesAction.server 1),
    [.client 0 (.connect (some 0)), .client 1 (.connect (some 0))],
    ((downloadOf [98]).drop 2).map (FetchesAction.server 1),
    ((downloadOf [97]).drop 2).map (FetchesAction.server 0),
    [.client 0 (.openFile true), .client 1 (.openFile true), .client 1 (.read (.piece [3, 4])),
      .client 0 (.read (.piece [1])), .client 1 (.flush 1 true), .client 0 (.flush 1 true),
      .client 0 (.read (.piece [2])), .client 0 (.read .endOfStream), .client 1 (.flush 1 true),
      .client 1 (.read .endOfStream), .client 0 (.closeFile true), .client 1 (.closeFile true)]]

theorem twoFetches_apart : ∃ x w,
    run step (start [World.started 10, World.started 10] .empty) twoFetches = some x ∧
      x.folder.content [97] = some [1, 2] ∧ (World.started 10).Complete w [97] [1, 2] := by
  obtain ⟨x, hr, hx⟩ : ∃ x : Fetches, run step (start [World.started 10, World.started 10] .empty)
      twoFetches = some x ∧ decide (∃ t : FetchThread, t ∈ x.threads[0]? ∧ ∃ w : World,
        w ∈ x.worlds[t.site]? ∧ t.filename = [97] ∧ t.site = 0 ∧ Report.success ∈ t.reports ∧
          t.pc = .ended ∧ (t.fetch w x.folder).sent = [1, 2]) := exists_run_of_any _ (by decide)
  obtain ⟨t, ht, w, hw, hname, hsite, hsuccess, hended, hsent⟩ := of_decide_eq_true hx
  obtain ⟨hcontent, hcomplete⟩ :=
    reported_apart Folder.unlinked_empty hr (by decide) ht hw hsuccess hended
  rw [hname, hsent] at hcontent hcomplete
  refine ⟨x, w, hr, hcontent, hcomplete (World.started 10) (by rw [hsite]; rfl)
    (World.undisturbed_initial World.lists_empty) ?_⟩
  rw [hsite]
  decide

end Fetches

end Netstore
