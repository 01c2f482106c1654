import Netstore.Exchange

/-!
# The report of an upload

The protocol has no acknowledgement after the transfer, so the client reports what it
has written and not what the server keeps (`lostReport_not_stored`). If nothing fails at
the handler and the name is not removed, a reported upload is stored as soon as its
handler has ended, and its handler can go on to its end (`reported_stored`).
-/

namespace Netstore

open Transition

/-! ## The rest of a handler -/

/-- What is left for the handler of an upload that goes well. -/
def Upload.remaining (u : Upload) : ℕ :=
  match u.pc with
  | .waiting => u.fileSize.toNat + 5
  | .connecting => u.fileSize.toNat + 4
  | .opening _ => u.fileSize.toNat + 3
  | .receiving _ _ toUpload _ => toUpload.toNat + 2
  | .closing .. => 1
  | _ => 0

/-- No call of an upload puts anything in the way of a name. -/
theorem Upload.openable_next {s s' : Server} {u : Upload} {call : UploadCall} {pc : UploadPc}
    {f : Filename} (h : s.folder.openable f) (hn : u.next s call = some (s', pc)) :
    s'.folder.openable f := by
  cases next_cases hn with
  | create before opened => exact Folder.openable_openTruncate _ h opened
  | remove before removed => exact Folder.openable_remove _ h removed
  | flush | close => exact Folder.openable_setContents _ h
  | _ => exact h

theorem World.openable_step {w w' : World} {a : Action} {f : Filename}
    (h : w.server.folder.openable f) (hs : w.step a = some w') :
    w'.server.folder.openable f := by
  cases step_cases hs with
  | upload thread next => exact Upload.openable_next h next
  | spawn | erase => exact h
  | removal loop next =>
    cases removeNext_cases next with
    | remove before remove => exact Folder.openable_remove _ h remove
    | _ => exact h
  | other call server => rwa [server]

namespace Exchange

variable {c : Client} {x x' : Exchange}

/-- When the client has reported a success, its handler waits for it, takes its bytes or
has kept them. -/
theorem InStep.handling_of_reported (h : InStep c x) (hrep : x.pc.reported) :
    x.sent = c.content ∧ ∃ pc, x.world.uploads = [c.handler pc] ∧ x.Handles c pc ∧ x.connected := by
  obtain ⟨closed, hpc⟩ : ∃ closed, x.pc = .succeeded closed := by
    cases hpc : x.pc with
    | succeeded closed => exact ⟨closed, rfl⟩
    | _ => rw [hpc] at hrep; cases hrep
  have hw := h.wrote
  rw [hpc] at hw
  obtain ⟨pc, he, hh⟩ := h.handling.resolve_left fun he => by
    rw [he.2.2.1] at hw
    cases hw.1
  exact ⟨hw.2, pc, he, hh, hw.1⟩

/-- A reported upload whose handler has ended is kept. -/
theorem InStep.keeps (h : InStep c x) (hrep : x.pc.reported)
    (hend : ∀ u ∈ x.world.uploads, u.pc.ended) : x.Keeps c := by
  obtain ⟨hsent, pc, he, hh, hconn⟩ := h.handling_of_reported hrep
  have htook := hh.took
  have hpc : pc.ended := hend (c.handler pc) (by simp [he])
  unfold Took at htook
  cases pc with
  | refused => simp [Client.handler, hconn] at htook
  | failed =>
    rw [show x.pc = .failed true from htook] at hrep
    cases hrep
  | kept received =>
    obtain ⟨hrec, hle, hlen⟩ := htook
    have hall : x.taken = c.content.length := by
      have hsize : received.length = c.content.length := hlen.trans c.toNat_fileSize
      rw [hrec, List.length_take, hsent] at hsize
      rw [hsent] at hle
      omega
    have hbytes : received = c.content := by rw [hrec, hsent, hall, List.take_length]
    exact ⟨(hh.kept rfl).1, hbytes ▸ (hh.kept rfl).2⟩
  | _ => cases hpc

/-- A step of the two sides is a step of the server, or leaves it as it is. -/
theorem world_step {a : ExchangeAction} (hs : x.step c a = some x') :
    x'.world = x.world ∨ ∃ b, x.world.step b = some x'.world := by
  cases a with
  | deliver =>
    simp only [step] at hs
    split_ifs at hs
    obtain ⟨payload, -, hs⟩ := Option.bind_eq_some_iff.mp hs
    obtain ⟨w, hw, rfl⟩ := Option.map_eq_some_iff.mp hs
    exact Or.inr ⟨_, hw⟩
  | handler call =>
    simp only [step] at hs
    obtain ⟨u, -, hs⟩ := Option.bind_eq_some_iff.mp hs
    split_ifs at hs
    obtain ⟨w, hw, rfl⟩ := Option.map_eq_some_iff.mp hs
    exact Or.inr ⟨_, hw⟩
  | server a =>
    simp only [step] at hs
    split_ifs at hs
    obtain ⟨w, hw, rfl⟩ := Option.map_eq_some_iff.mp hs
    exact Or.inr ⟨a, hw⟩
  | client call =>
    simp only [step] at hs
    split_ifs at hs
    obtain ⟨pc, -, rfl⟩ := Option.map_eq_some_iff.mp hs
    exact Or.inl rfl

theorem openable_step {a : ExchangeAction} {f : Filename}
    (h : x.world.server.folder.openable f) (hs : x.step c a = some x') :
    x'.world.server.folder.openable f := by
  rcases world_step hs with he | ⟨b, hb⟩
  · rwa [he]
  · exact World.openable_step h hb

/-- What is left for the handlers. -/
def remaining (x : Exchange) : ℕ :=
  (x.world.uploads.map Upload.remaining).sum

theorem step_handler {u : Upload} {call : UploadCall} {s : Server} {pc : UploadPc}
    (hlive : x.world.terminated = false) (hup : x.world.uploads = [u]) (hoff : x.offers u call)
    (hn : u.next x.world.server call = some (s, pc)) :
    ∃ x', x.step c (.handler call) = some x' ∧ x'.pc = x.pc ∧
      x'.remaining = Upload.remaining { u with pc := pc } := by
  obtain ⟨w, hw, hup'⟩ : ∃ w, x.world.step (.upload 0 call) = some w ∧
      w.uploads = [{ u with pc := pc }] := by
    simp [World.step, hlive, hup, hn]
  refine ⟨{ x with
    world := w, answers := x.answers ++ u.answers call, port := call.announced.or x.port
    taken := x.taken + call.readLength }, ?_, rfl, by simp [remaining, hup']⟩
  simp only [step, hup, List.getElem?_cons_zero, Option.bind_some, if_pos hoff, hw, Option.map_some]

/-- While the handler of a reported upload has not ended, it can make a call that goes
well and leaves it less to do. -/
theorem InStep.progress (h : InStep c x) (hrep : x.pc.reported)
    (hfree : x.world.server.folder.openable c.filename)
    (hend : ¬∀ u ∈ x.world.uploads, u.pc.ended) :
    ∃ call x', call.goesWell ∧ x.step c (.handler call) = some x' ∧ x'.pc = x.pc ∧
      x'.remaining < x.remaining := by
  obtain ⟨hsent, pc, hup, hh, hconn⟩ := h.handling_of_reported hrep
  have hleft : x.remaining = (c.handler pc).remaining := by simp [remaining, hup]
  have hcall : ∀ {call : UploadCall} {s : Server} {pc' : UploadPc},
      (c.handler pc).next x.world.server call = some (s, pc') → call.goesWell →
      x.offers (c.handler pc) call →
      (c.handler pc').remaining < (c.handler pc).remaining →
      ∃ call x', call.goesWell ∧ x.step c (.handler call) = some x' ∧ x'.pc = x.pc ∧
        x'.remaining < x.remaining := by
    intro call s pc' hn hg hoff hlt
    obtain ⟨x', hs, hpc, hrem⟩ := step_handler (c := c) h.live hup hoff hn
    exact ⟨call, x', hg, hs, hpc, by rw [hrem, hleft]; exact hlt⟩
  have htook := hh.took
  have hdisk := hh.onDisk
  unfold Took at htook
  cases pc with
  | start | reserved | nameTaken | refusing | accepted => simp [Client.handler, hconn] at htook
  | waiting =>
    refine @hcall (.select .ready) _ _ rfl rfl hconn ?_
    simp [Upload.remaining, Client.handler]
  | connecting =>
    refine @hcall (.accept true) _ _ rfl rfl hconn ?_
    simp [Upload.remaining, Client.handler]
  | opening failed =>
    obtain ⟨⟨ino, folder⟩, ho⟩ := Option.isSome_iff_exists.mp hfree
    have hn : (c.handler (.opening failed)).next x.world.server (.openFile true) =
        some ({ x.world.server with folder := folder },
          .receiving failed ⟨ino, 0, [], true⟩ c.fileSize []) := by
      simp [Upload.next, Client.handler, ho]
    refine hcall hn rfl trivial ?_
    simp [Upload.remaining, Client.handler]
  | receiving failed st toUpload received =>
    obtain ⟨-, hrec, hle⟩ := htook
    have hsize : toUpload.toNat + received.length = c.content.length :=
      hdisk.left.trans c.toNat_fileSize
    by_cases hzero : toUpload = 0
    · refine @hcall (.read .endOfStream) _ _ rfl rfl (Or.inl hzero) ?_
      simp [Upload.remaining, Client.handler]
    · -- the next piece is as much of what is sent as the read asks for
      set bs := (x.sent.drop x.taken).take (Upload.readLimit toUpload) with hbs
      have hpos : 0 < toUpload.toNat := by
        rw [Nat.pos_iff_ne_zero]
        exact fun he => hzero (UInt64.toNat_inj.mp he)
      have hlen : bs.length = Upload.readLimit toUpload := by
        rw [hrec, List.length_take, hsent] at hsize
        rw [hsent] at hle
        rw [hbs, List.length_take, List.length_drop, hsent, Upload.readLimit]
        omega
      have hlimit : 0 < Upload.readLimit toUpload ∧ Upload.readLimit toUpload ≤ toUpload.toNat := by
        have : maxBufferSize = 65536 := rfl
        unfold Upload.readLimit
        omega
      have hn : (c.handler (.receiving failed st toUpload received)).next x.world.server
          (.read (.piece bs)) = some (x.world.server, .receiving failed (st.write bs)
            (toUpload - UInt64.ofNat bs.length) (received ++ bs)) := by
        simp only [Upload.next, Client.handler]
        rw [if_pos (by omega)]
      refine hcall hn rfl (List.take_prefix _ _) ?_
      simp only [Upload.remaining, Client.handler]
      rw [toNat_sub_ofNat (by omega)]
      omega
  | closing failed st toUpload received =>
    refine @hcall (.closeFile true) _ _ rfl rfl trivial ?_
    simp only [Upload.remaining, Client.handler, Upload.afterTransfer]
    split_ifs <;> simp
  | refused | kept received =>
    exact (hend fun u hu => by rw [hup, List.mem_singleton] at hu; rw [hu]; rfl).elim
  | checking | removing | releasing | forgetting | failed =>
    rw [show x.pc = .failed true from htook] at hrep
    cases hrep
  | _ => exact htook.elim

/-- If nothing fails at the handler of a client's upload and its name is not removed, the
server keeps the file of a client that has reported a success as soon as the handler has
ended. The handler has been started, and unless the name leads to something that is no
regular file it can go on to its end. -/
theorem reported_stored {max : UInt64} {folder : Folder Filename} {listing : List Filename}
    {as : List ExchangeAction} (hl : World.Lists listing folder)
    (hr : run (step c) (start (World.initial (Server.generateFilesInStorage max folder listing)))
      as = some x)
    (hP : Along (step c) (fun x a => x.GoesWell a ∧ x.NotRemoved c a)
      (start (World.initial (Server.generateFilesInStorage max folder listing))) as)
    (hrep : x.pc.reported) :
    (∃ u, x.world.uploads = [u] ∧ (u.pc.ended → x.Keeps c)) ∧
      (folder.openable c.filename → ∃ calls : List UploadCall, ∃ x',
        (∀ call ∈ calls, call.goesWell) ∧
          run (fun y call => y.step c (.handler call)) x calls = some x' ∧
          (∀ u ∈ x'.world.uploads, u.pc.ended) ∧ x'.Keeps c) := by
  have hin : InStep c x := run_invariant (InStep c)
    (fun _ _ _ h ha hs => h.step ha.1 ha.2 hs) (inStep_start hl) hr hP
  refine ⟨?_, fun hfree => ?_⟩
  · obtain ⟨-, pc, hup, -⟩ := hin.handling_of_reported hrep
    exact ⟨_, hup, fun hend => hin.keeps hrep (by simpa [hup] using hend)⟩
  · have hfree : x.world.server.folder.openable c.filename :=
      run_invariant (fun x => x.world.server.folder.openable c.filename)
        (fun _ _ _ h _ hs => openable_step h hs) (by simpa [start, World.initial] using hfree) hr hP
    have hprogress : ∀ y : Exchange,
        (InStep c y ∧ y.pc.reported ∧ y.world.server.folder.openable c.filename) →
        (¬∀ u ∈ y.world.uploads, u.pc.ended) → ∃ call y', call.goesWell ∧
          y.step c (.handler call) = some y' ∧
          (InStep c y' ∧ y'.pc.reported ∧ y'.world.server.folder.openable c.filename) ∧
          y'.remaining < y.remaining := by
      rintro y ⟨hin, hrep, hfree⟩ hend
      obtain ⟨call, y', hg, hs, hpc, hlt⟩ := hin.progress hrep hfree hend
      exact ⟨call, y', hg, hs, ⟨hin.handler hg hs, hpc ▸ hrep, openable_step hfree hs⟩, hlt⟩
    obtain ⟨calls, x', hcalls, hrun, ⟨hin', hrep', -⟩, hend⟩ :=
      exists_run_of_decreasing remaining hprogress ⟨hin, hrep, hfree⟩
    exact ⟨calls, x', hcalls, hrun, hend, hin'.keeps hrep' hend⟩

/-- A client with three bytes. -/
def threeBytes : Client where
  source := ⟨1, 1⟩
  messageSeq := 1
  filename := [97]
  content := [1, 2, 3]
  zero_not_mem := by decide
  filename_length_le := by decide
  content_length_lt := by decide

/-- The client reports a success before the server has accepted the connection. -/
def earlyReport : List ExchangeAction :=
  [.deliver, .handler .checkAndReserveSpace, .handler .addFileToStorage,
    .handler (.announce (some 5)), .client (.answer (complexMessage 1 fileAddAcceptance [] 5)),
    .client (.connect true), .handler (.select .ready), .client (.openFile true),
    .client (.readFile none), .client (.write none), .handler (.accept true)]

theorem earlyReport_stored : ∃ x,
    run (step threeBytes) (start (World.started 10)) earlyReport = some x ∧
      (∃ u, x.world.uploads = [u] ∧ (u.pc.ended → x.Keeps threeBytes)) ∧
      (Folder.empty.openable threeBytes.filename → ∃ calls : List UploadCall, ∃ x',
        (∀ call ∈ calls, call.goesWell) ∧
          run (fun y call => y.step threeBytes (.handler call)) x calls = some x' ∧
          (∀ u ∈ x'.world.uploads, u.pc.ended) ∧ x'.Keeps threeBytes) := by
  obtain ⟨x, hr, hrep⟩ : ∃ x, run (step threeBytes) (start (World.started 10)) earlyReport = some x ∧
      x.pc.reported := exists_run_of_any _ (by decide)
  exact ⟨x, hr, reported_stored World.lists_empty hr (by decide) hrep⟩

/-- The server cannot open the file. -/
def lostReport : List ExchangeAction :=
  earlyReport ++ [.handler (.openFile false), .handler (.fileExists true), .handler .freeSpace,
    .handler .removeFileFromStorage]

theorem lostReport_not_stored : ∃ x,
    run (step threeBytes) (start (World.started 10)) lostReport = some x ∧
      Along (step threeBytes) (fun x a => x.NotRemoved threeBytes a) (start (World.started 10))
        lostReport ∧
      x.pc.reported ∧ (∀ u ∈ x.world.uploads, u.pc.ended) ∧ ¬x.Keeps threeBytes := by
  obtain ⟨x, hr, hx⟩ : ∃ x, run (step threeBytes) (start (World.started 10)) lostReport = some x ∧
      decide (x.pc.reported ∧ (∀ u ∈ x.world.uploads, u.pc.ended) ∧
        threeBytes.filename ∉ x.world.server.filesInStorage) := exists_run_of_any _ (by decide)
  obtain ⟨hrep, hend, hmem⟩ := of_decide_eq_true hx
  exact ⟨x, hr, by decide, hrep, hend, fun hk => hmem hk.1⟩

end Exchange

end Netstore
