import Netstore.Discovery
import Netstore.Fetch

/-!
# What a transfer command reports

A fetch and an upload run in threads of their own, and what they print is all that the
user learns of them. `FetchCommand` and `UploadRun` have the answers of all the calls they
make; `fetch` and `upload` give what is printed, which is what the clients of `Fetch` and
`Exchange` report (`FetchCommand.reports_calls`, `Client.afterReport_transferCalls`).

Each prints one outcome, but in these cases (`oneOutcome_iff`) :

* a fetch that cannot open its local file reports this, and then a success;
* an upload whose socket is not created, after a server was found to have room, reports
  nothing;
* an upload reports nothing when a question to the file system throws : nothing catches
  the exception, and the program ends;
* an upload reports nothing when it writes to a connection that the server has closed :
  the client does not ignore the signal that this raises, as the server does, and the
  program ends.
-/

namespace Netstore

open Transition

/-- The outcomes that are printed. -/
inductive Outcome where
  /-- `file_fetch_success` or `file_upload_success`. -/
  | success
  /-- `file_fetch_failure` or `file_upload_failure`. -/
  | failure (reason : String)
  | tooBig
  | notExist
  deriving DecidableEq

/-- One outcome is printed, and no success after another outcome. -/
structure OneOutcome (printed : List Outcome) : Prop where
  one : printed.length = 1
  unpreceded : printed.Pairwise fun o o' => o ≠ .success → o' ≠ .success

theorem oneOutcome_singleton (o : Outcome) : OneOutcome [o] :=
  ⟨rfl, List.pairwise_singleton _ _⟩

theorem not_oneOutcome_nil : ¬OneOutcome [] :=
  fun h => by cases h.one

/-! ## Fetch -/

/-- A client that fetches a file, and what happens to it. An exception is the text that it
carries. -/
structure FetchCommand where
  messageSeq : UInt64
  filename : Bytes
  /-- The socket is not created, or the request is not sent. -/
  socketError : Option String
  /-- The datagrams that the client receives, in order. -/
  received : List Datagram
  connectError : Option String
  /-- The local file is opened. -/
  isOpen : Bool
  /-- What the reads return, before the stream ends or a read throws. -/
  pieces : List Bytes
  readError : Option String

/-- What a fetch does. -/
structure FetchRun where
  /-- The path that is opened for writing. -/
  filePath : Option Bytes
  written : Bytes
  printed : List Outcome

/-- The first valid reply gives the port. -/
def receiveFetchFileResponse (expectedMessageSeq : UInt64) (expectedFilename : Bytes) :
    List Datagram → UInt16
  | [] => 0
  | d :: received =>
    let (message, messageLength) := recvfrom d.payload
    match complexMessageValidation message expectedMessageSeq fileGetResponse messageLength
      expectedFilename with
    | .ok _ => message.param.toUInt16
    | .error _ => receiveFetchFileResponse expectedMessageSeq expectedFilename received

namespace FetchCommand

variable (c : FetchCommand)

/-- The socket of the request and its send. -/
def sendRequest : Except String Bytes :=
  match c.socketError with
  | some e => .error e
  | none =>
    match simpleRequest c.messageSeq fileGetRequest c.filename with
    | some payload => .ok payload
    | none => .error "sendto"

/-- `Client::fetch_file_via_tcp`. After a file that does not open the success is reported too. -/
def fetchFileViaTcp (outFolder : Bytes) : FetchRun :=
  match c.connectError with
  | some e => ⟨none, [], [.failure e]⟩
  | none =>
    let filePath := outFolder ++ c.filename
    if c.isOpen then
      match c.readError with
      | some e => ⟨some filePath, c.pieces.flatten, [.failure e]⟩
      | none => ⟨some filePath, c.pieces.flatten, [.success]⟩
    else
      -- nothing returns after the report of the failure
      ⟨some filePath, [], [.failure "file opening failed", .success]⟩

/-- `Client::fetch` : what it writes and what it prints. -/
def fetch (outFolder : Bytes) : FetchRun :=
  match c.sendRequest with
  | .error e => ⟨none, [], [.failure e]⟩
  | .ok _ =>
    if receiveFetchFileResponse c.messageSeq c.filename c.received = 0 then
      ⟨none, [], [.failure "timeout"]⟩
    else c.fetchFileViaTcp outFolder

/-- The datagram is a reply to the request. -/
def isReply (d : Datagram) : Bool :=
  (complexMessageValidation (recvfrom d.payload).1 c.messageSeq fileGetResponse
    (recvfrom d.payload).2 c.filename).isOk

/-- The request is sent, the first reply has a port, and the client connects to it. -/
structure Connects : Prop where
  socket : c.socketError = none
  sent : (simpleRequest c.messageSeq fileGetRequest c.filename).isSome
  port : ∃ d, c.received.find? c.isReply = some d ∧ (recvfrom d.payload).1.param.toUInt16 ≠ 0
  connected : c.connectError = none

variable {c}

theorem isReply_iff {d : Datagram} : c.isReply d ↔
    complexMessageValidation (recvfrom d.payload).1 c.messageSeq fileGetResponse
      (recvfrom d.payload).2 c.filename = .ok () := by
  rw [isReply]
  rcases complexMessageValidation (recvfrom d.payload).1 c.messageSeq fileGetResponse
    (recvfrom d.payload).2 c.filename with e | _ <;> simp [Except.isOk, Except.toBool]

theorem receiveFetchFileResponse_eq (received : List Datagram) :
    receiveFetchFileResponse c.messageSeq c.filename received =
      (received.find? c.isReply).elim 0 fun d => (recvfrom d.payload).1.param.toUInt16 := by
  induction received with
  | nil => rfl
  | cons d received ih =>
    rw [receiveFetchFileResponse, List.find?_cons, isReply]
    dsimp only
    rcases complexMessageValidation (recvfrom d.payload).1 c.messageSeq fileGetResponse
      (recvfrom d.payload).2 c.filename with e | _
    · exact ih
    · rfl

/-- A client that connects opens its local file. -/
theorem fetch_of_connects (h : c.Connects) (outFolder : Bytes) :
    c.fetch outFolder = c.fetchFileViaTcp outFolder := by
  obtain ⟨payload, hsent⟩ := Option.isSome_iff_exists.mp h.sent
  obtain ⟨d, hd, hport⟩ := h.port
  rw [fetch, sendRequest, h.socket, hsent]
  dsimp only
  rw [receiveFetchFileResponse_eq, hd, Option.elim_some, if_neg hport]

/-- A client that does not connect opens nothing, and reports why. -/
theorem fetch_of_not_connects (h : ¬c.Connects) (outFolder : Bytes) :
    ∃ e, c.fetch outFolder = ⟨none, [], [.failure e]⟩ := by
  rw [fetch, sendRequest]
  cases hsocket : c.socketError with
  | some e => exact ⟨e, rfl⟩
  | none =>
    cases hsent : simpleRequest c.messageSeq fileGetRequest c.filename with
    | none => exact ⟨_, rfl⟩
    | some payload =>
      dsimp only
      split_ifs with hport
      · exact ⟨_, rfl⟩
      · rw [fetchFileViaTcp]
        cases hconnect : c.connectError with
        | some e => exact ⟨e, rfl⟩
        | none =>
          rw [receiveFetchFileResponse_eq] at hport
          cases hd : c.received.find? c.isReply with
          | none => exact (hport (by rw [hd]; rfl)).elim
          | some d =>
            rw [hd] at hport
            exact (h ⟨hsocket, by simp [hsent], ⟨d, hd, hport⟩, hconnect⟩).elim

/-- A client that connects opens the file of the name in its output folder. -/
theorem filePath_fetch (h : c.Connects) (outFolder : Bytes) :
    (c.fetch outFolder).filePath = some (outFolder ++ c.filename) := by
  rw [fetch_of_connects h, fetchFileViaTcp, h.connected]
  dsimp only
  split_ifs
  · cases c.readError <;> rfl
  · rfl

/-- A fetch has one outcome, unless it connects and cannot open its local file. -/
theorem oneOutcome_fetch_iff (outFolder : Bytes) :
    OneOutcome (c.fetch outFolder).printed ↔ ¬(c.Connects ∧ c.isOpen = false) := by
  by_cases hconnects : c.Connects
  · rw [fetch_of_connects hconnects, fetchFileViaTcp, hconnects.connected]
    dsimp only
    cases hopen : c.isOpen with
    | false =>
      refine iff_of_false (fun h => ?_) (not_not_intro ⟨hconnects, rfl⟩)
      cases h.one
    | true =>
      refine iff_of_true ?_ fun h => by cases h.2
      cases c.readError <;> exact oneOutcome_singleton _
  · obtain ⟨e, he⟩ := fetch_of_not_connects hconnects outFolder
    rw [he]
    exact iff_of_true (oneOutcome_singleton _) fun h => hconnects h.1

/-- The calls that the command makes from the connection on. -/
def calls (c : FetchCommand) (handler : ℕ) : List FetchCall :=
  match c.connectError with
  | some _ => [.connect none]
  | none => .connect (some handler) :: .openFile c.isOpen ::
    if c.isOpen then
      c.pieces.map (fun bs => .read (.piece bs)) ++ match c.readError with
        | some _ => [.read .failure, .closeFile true]
        | none => [.read .endOfStream, .closeFile true]
    else []

theorem run_pieces {f : Filename} {x x' : Fetch} {st : Stream} (before : x.pc = .reading st)
    {pieces : List Bytes}
    (hr : run (Fetch.next f) x (pieces.map fun bs => .read (.piece bs)) = some x') :
    x'.reports = x.reports ∧ ∃ st', x'.pc = .reading st' := by
  induction pieces generalizing x st with
  | nil =>
    cases hr
    exact ⟨rfl, st, before⟩
  | cons bs pieces ih =>
    rw [List.map_cons, run_cons] at hr
    obtain ⟨y, hy, hr⟩ := Option.bind_eq_some_iff.mp hr
    obtain ⟨hreports, st', hst'⟩ : y.reports = x.reports ∧ ∃ st', y.pc = .reading st' := by
      cases Fetch.next_cases hy with
      | piece => exact ⟨rfl, _, rfl⟩
    exact hreports ▸ ih hst' hr

/-- The read that ends the loop decides what is reported, before the file is closed. -/
theorem run_lastRead {f : Filename} {x x' : Fetch} {r : ReadResult} {report : Report}
    (h : r = .failure ∧ report = .failure ∨ r = .endOfStream ∧ report = .success)
    (hr : run (Fetch.next f) x [.read r, .closeFile true] = some x') :
    x'.pc = .ended ∧ x'.reports = x.reports ++ [report] := by
  obtain ⟨y, hy, hr⟩ := Option.bind_eq_some_iff.mp hr
  obtain ⟨z, hz, hr⟩ := Option.bind_eq_some_iff.mp hr
  cases hr
  have hy : (∃ st, y.pc = .closing st) ∧ y.reports = x.reports ++ [report] := by
    rcases h with ⟨rfl, rfl⟩ | ⟨rfl, rfl⟩
    · cases Fetch.next_cases hy with
      | readFail => exact ⟨⟨_, rfl⟩, rfl⟩
    · cases Fetch.next_cases hy with
      | endOfStream => exact ⟨⟨_, rfl⟩, rfl⟩
  cases Fetch.next_cases hz with
  | close => exact ⟨rfl, hy.2⟩

/-- The client of a fetch that makes these calls reports what the command prints. -/
theorem reports_calls {f : Filename} {x x' : Fetch} {handler : ℕ}
    (hr : run (Fetch.next f) x (c.calls handler) = some x') (outFolder : Bytes) :
    x'.pc = .ended ∧ x'.reports = x.reports ++
      (c.fetchFileViaTcp outFolder).printed.map fun o =>
        if o = .success then .success else .failure := by
  rw [calls] at hr
  rw [fetchFileViaTcp]
  cases hconnect : c.connectError with
  | some e =>
    rw [hconnect] at hr
    obtain ⟨y, hy, hr⟩ := Option.bind_eq_some_iff.mp hr
    cases hr
    cases Fetch.next_cases hy with
    | connectFail => exact ⟨rfl, rfl⟩
  | none =>
    rw [hconnect] at hr
    obtain ⟨y, hy, hr⟩ := Option.bind_eq_some_iff.mp hr
    obtain ⟨hy, hyreports⟩ : y.pc = .opening ∧ y.reports = x.reports := by
      cases Fetch.next_cases hy with
      | connect => exact ⟨rfl, rfl⟩
    obtain ⟨z, hz, hr⟩ := Option.bind_eq_some_iff.mp hr
    rw [← hyreports]
    cases hopen : c.isOpen with
    | false =>
      rw [hopen] at hz hr
      cases hr
      cases Fetch.next_cases hz with
      | openFail => exact ⟨rfl, rfl⟩
    | true =>
      rw [hopen] at hz hr
      obtain ⟨hzreports, st, hst⟩ : z.reports = y.reports ∧ ∃ st, z.pc = .reading st := by
        cases Fetch.next_cases hz with
        | openFile => exact ⟨rfl, _, rfl⟩
      rw [if_pos rfl, run_append] at hr
      obtain ⟨u, hu, hr⟩ := Option.bind_eq_some_iff.mp hr
      obtain ⟨hureports, -⟩ := run_pieces hst hu
      rw [← hzreports, ← hureports]
      cases hread : c.readError with
      | some e =>
        rw [hread] at hr
        exact run_lastRead (Or.inl ⟨rfl, rfl⟩) hr
      | none =>
        rw [hread] at hr
        exact run_lastRead (Or.inr ⟨rfl, rfl⟩) hr

end FetchCommand

/-! ## Upload -/

/-- A write that does not succeed. -/
inductive WriteError where
  /-- It throws, with this text. -/
  | throws (text : String)
  /-- The server has closed the connection. Only the server ignores `SIGPIPE`, which ends
  the client before `::write` returns. -/
  | brokenPipe
  deriving DecidableEq

/-- What happens to a transfer to a server that accepts. -/
structure TransferRun where
  connectError : Option String
  /-- The file is opened. -/
  isOpen : Bool
  /-- The blocks that are read until the stream is no longer good, and what becomes of the
  write of each. -/
  blocks : List (Bytes × Option WriteError)

/-- What is left to upload after the blocks. -/
def uploadBlocks (toUpload : UInt64) : List (Bytes × Option WriteError) → Except WriteError UInt64
  | [] => .ok toUpload
  | (block, writeError) :: blocks =>
    match writeError with
    | some e => .error e
    | none => uploadBlocks (toUpload - UInt64.ofNat block.length) blocks

/-- What is printed of a transfer. -/
def TransferRun.uploadFileViaTcp (t : TransferRun) (fileSize : UInt64) : List Outcome :=
  match t.connectError with
  | some e => [.failure e]
  | none =>
    if t.isOpen then
      match uploadBlocks fileSize t.blocks with
      | .error (.throws e) => [.failure e]
      -- the program ends before anything is printed
      | .error .brokenPipe => []
      | .ok toUpload => if toUpload ≠ 0 then [.failure "partial upload"] else [.success]
    else [.failure "file opening failed"]

/-- The transfer comes to write to a connection that the server has closed. -/
def TransferRun.MeetsClosed (t : TransferRun) : Prop :=
  t.connectError = none ∧ t.isOpen ∧ t.blocks.findSome? Prod.snd = some .brokenPipe

namespace Client

variable (c : Client)

/-- The next block of the file, which may fail after some bytes. -/
def block (offset : ℕ) (readError : Option ℕ) : Bytes :=
  let whole := (c.content.drop offset).take maxBufferSize
  readError.elim whole whole.take

/-- The blocks from an offset on, with the answers of the file and of the connection. -/
def blocks (offset : ℕ) :
    List (Option ℕ × Option (ℕ × WriteError)) → List (Bytes × Option WriteError)
  | [] => []
  | (readError, writeError) :: answers =>
    (c.block offset readError, writeError.map Prod.snd) ::
      blocks (offset + (c.block offset readError).length) answers

/-- The calls that read and write the blocks. -/
def blockCalls (answers : List (Option ℕ × Option (ℕ × WriteError))) : List ClientCall :=
  answers.flatMap fun (readError, writeError) =>
    [.readFile readError, .write (writeError.map Prod.fst)]

/-- The calls of a transfer. -/
def transferCalls (connectError : Option String) (isOpen : Bool)
    (answers : List (Option ℕ × Option (ℕ × WriteError))) : List ClientCall :=
  match connectError with
  | some _ => [.connect false]
  | none => .connect true :: .openFile isOpen :: if isOpen then blockCalls answers else []

/-- A client that has reported, before it closes its socket. -/
def afterReport (success : Bool) : ClientPc :=
  if success then .succeeded false else .failed false

variable {c} {answers : List (Option ℕ × Option (ℕ × WriteError))} {success : Bool}

theorem next_readFile (toUpload : UInt64) (offset : ℕ) (readError : Option ℕ) :
    ∃ more, c.next (.reading toUpload offset) (.readFile readError) =
      some (.writing (toUpload - UInt64.ofNat (c.block offset readError).length) offset
        (c.block offset readError) more) := by
  cases readError with
  | none => exact ⟨_, rfl⟩
  | some n => exact ⟨_, rfl⟩

/-- A client that has reported reads no other block. -/
theorem eq_of_run_afterReport {success' : Bool}
    (hr : run c.next (afterReport success') (blockCalls answers) = some (afterReport success)) :
    answers = [] ∧ success' = success := by
  cases answers with
  | nil => cases success <;> cases success' <;> first | exact ⟨rfl, rfl⟩ | cases hr
  | cons answer answers =>
    obtain ⟨pc, hn, -⟩ := Option.bind_eq_some_iff.mp hr
    cases success' <;> cases hn

/-- A client reports a success exactly if nothing is left to upload after the blocks. -/
theorem afterReport_blocks {toUpload : UInt64} {offset : ℕ}
    (hr : run c.next (.reading toUpload offset) (blockCalls answers) =
      some (afterReport success)) :
    (uploadBlocks toUpload (c.blocks offset answers)).toOption = some 0 ↔ success := by
  induction answers generalizing toUpload offset with
  | nil => cases success <;> cases hr
  | cons answer answers ih =>
    obtain ⟨readError, writeError⟩ := answer
    obtain ⟨pc, hread, hr⟩ := Option.bind_eq_some_iff.mp hr
    obtain ⟨pc', hwrite, hr⟩ := Option.bind_eq_some_iff.mp hr
    obtain ⟨more, hblock⟩ := c.next_readFile toUpload offset readError
    obtain rfl := Option.some.inj (hread.symm.trans hblock)
    cases writeError with
    | some e =>
      obtain rfl : afterReport false = pc' := Option.some.inj hwrite
      obtain ⟨-, rfl⟩ := eq_of_run_afterReport hr
      exact iff_of_false (fun h => by cases h) (by simp)
    | none =>
      cases more with
      | true =>
        obtain rfl := Option.some.inj hwrite
        exact ih hr
      | false =>
        set left := toUpload - UInt64.ofNat (c.block offset readError).length with hleft
        obtain rfl : afterReport (left = 0) = pc' := by
          rw [← Option.some.inj hwrite]
          by_cases h : left = 0 <;> simp [afterReport, h]
        obtain ⟨rfl, rfl⟩ := eq_of_run_afterReport hr
        simp [blocks, uploadBlocks, ← hleft, Except.toOption]

/-- The state machine of a client reports a success exactly if the function prints one. -/
theorem afterReport_transferCalls {port : UInt16} {connectError : Option String} {isOpen : Bool}
    (hr : run c.next (.connecting port) (transferCalls connectError isOpen answers) =
      some (afterReport success)) :
    TransferRun.uploadFileViaTcp ⟨connectError, isOpen, c.blocks 0 answers⟩ c.fileSize =
      [.success] ↔ success := by
  rw [TransferRun.uploadFileViaTcp]
  cases connectError with
  | some e =>
    obtain rfl : success = false := by cases success <;> first | rfl | cases hr
    exact iff_of_false (fun h => by cases h) (by simp)
  | none =>
    obtain ⟨pc, hconnect, hr⟩ := Option.bind_eq_some_iff.mp hr
    obtain rfl := Option.some.inj hconnect
    obtain ⟨pc, hopen, hr⟩ := Option.bind_eq_some_iff.mp hr
    obtain rfl := Option.some.inj hopen
    cases isOpen with
    | false =>
      obtain rfl : success = false := by cases success <;> first | rfl | cases hr
      exact iff_of_false (fun h => by cases h) (by simp)
    | true =>
      rw [← afterReport_blocks hr]
      dsimp only
      rcases uploadBlocks c.fileSize (c.blocks 0 answers) with e | left
      · cases e <;> simp [Except.toOption]
      · by_cases h : left = 0 <;> simp [h, Except.toOption]

end Client

/-- A client that uploads a file, and what happens to it. A question to the file system is
answered, or it throws. -/
structure UploadRun where
  command : UploadCommand
  fileExists : Option Bool
  isRegularFile : Option Bool
  /-- The first `fs::file_size` gives the size of the command, or throws. -/
  sizeKnown : Bool
  /-- The second `fs::file_size`, after the socket is created. -/
  fileSize : Option UInt64
  transfer : TransferRun

namespace UploadRun

variable (r : UploadRun) (m : Static)

/-- What is printed. An exception that is not caught leaves nothing to print. -/
def upload : List Outcome :=
  match r.fileExists with
  | none => []
  | some false => [.notExist]
  | some true =>
    match r.isRegularFile with
    | none => []
    | some false => [.notExist]
    | some true =>
      let (m, servers) := r.command.silentDiscover m
      if r.sizeKnown then
        if atLeastOneServerHasSpace servers r.command.fileSize then
          if r.command.socketCreated then
            match r.fileSize with
            | none => []
            | some fileSize =>
              if (r.command.askServers m 0 servers).2 then r.transfer.uploadFileViaTcp fileSize
              else [.tooBig]
          -- the exception is caught, for a log that is switched off
          else []
        else [.tooBig]
      else []

/-- The file is there. -/
def IsThere : Prop :=
  r.fileExists = some true ∧ r.isRegularFile = some true

/-- A question to the file system that the client comes to ask throws. -/
def Throws : Prop :=
  r.fileExists = none ∨ r.fileExists = some true ∧ r.isRegularFile = none ∨
    r.IsThere ∧ (r.sizeKnown = false ∨
      r.command.FirstHasRoom ∧ r.command.socketCreated ∧ r.fileSize = none)

/-- A server has room, and the socket for the request is not created. -/
def LosesSocket : Prop :=
  r.IsThere ∧ r.sizeKnown ∧ r.command.FirstHasRoom ∧ r.command.socketCreated = false

/-- A server accepts, and closes the connection before a write to it. -/
def BreaksPipe : Prop :=
  r.IsThere ∧ r.sizeKnown ∧ r.command.FirstHasRoom ∧ r.command.socketCreated ∧
    r.fileSize.isSome ∧ (∃ i < r.command.goodDays.length, r.command.approved i) ∧
      r.transfer.MeetsClosed

variable {r}

theorem uploadBlocks_eq_error_iff {toUpload : UInt64} {blocks : List (Bytes × Option WriteError)}
    {e : WriteError} :
    uploadBlocks toUpload blocks = .error e ↔ blocks.findSome? Prod.snd = some e := by
  induction blocks generalizing toUpload with
  | nil => exact iff_of_false (fun h => by cases h) fun h => by cases h
  | cons b blocks ih =>
    obtain ⟨block, writeError⟩ := b
    cases writeError with
    | none => exact ih
    | some e' => simp [uploadBlocks]

theorem oneOutcome_uploadFileViaTcp (t : TransferRun) (fileSize : UInt64) :
    OneOutcome (t.uploadFileViaTcp fileSize) ↔ ¬t.MeetsClosed := by
  rw [TransferRun.uploadFileViaTcp, TransferRun.MeetsClosed]
  split
  next e hconnect => exact iff_of_true (oneOutcome_singleton _) (by simp [hconnect])
  next hconnect =>
    by_cases hopen : t.isOpen
    · rw [if_pos hopen, ← @uploadBlocks_eq_error_iff fileSize]
      split
      next hblocks => exact iff_of_true (oneOutcome_singleton _) (by simp [hblocks])
      next hblocks =>
        exact iff_of_false not_oneOutcome_nil (not_not_intro ⟨hconnect, hopen, hblocks⟩)
      next hblocks =>
        refine iff_of_true ?_ (by simp [hblocks])
        split_ifs <;> exact oneOutcome_singleton _
    · rw [if_neg hopen]
      exact iff_of_true (oneOutcome_singleton _) fun h => hopen h.2.1

/-- An upload of a file that is there has an outcome if its size is known and, with a server
that has room, the socket is created and the size is known again, and no server that accepts
closes the connection under it. -/
theorem oneOutcome_upload_of_isThere (h : r.IsThere) (m : Static) :
    OneOutcome (r.upload m) ↔ r.sizeKnown ∧
      (r.command.FirstHasRoom → r.command.socketCreated ∧ r.fileSize.isSome ∧
        ¬((∃ i < r.command.goodDays.length, r.command.approved i) ∧ r.transfer.MeetsClosed)) := by
  rw [upload, UploadCommand.silentDiscover_eq, h.1, h.2]
  dsimp only
  by_cases hsize : r.sizeKnown
  · rw [if_pos hsize]
    by_cases hroom : r.command.FirstHasRoom
    · rw [if_pos (UploadCommand.atLeastOneServerHasSpace_iff.mpr hroom)]
      by_cases hsocket : r.command.socketCreated
      · rw [if_pos hsocket]
        cases hagain : r.fileSize with
        | none => exact iff_of_false not_oneOutcome_nil fun h => by cases (h.2 hroom).2.1
        | some fileSize =>
          have happroved := UploadCommand.askServers_snd (c := r.command)
            (m := m.after r.command.discovered) 0
            (r.command.goodDays.map fun d => ⟨.inetNtoaBuffer, d.announcedSpace⟩)
          simp only [Nat.zero_le, true_and, Nat.zero_add, List.length_map] at happroved
          dsimp only
          simp only [hsize, hroom, hsocket, forall_const, Option.isSome_some, true_and]
          rw [← happroved]
          split_ifs with hask
          · simp only [hask, true_and]
            exact oneOutcome_uploadFileViaTcp _ _
          · exact iff_of_true (oneOutcome_singleton _) fun h => hask h.1
      · rw [if_neg hsocket]
        exact iff_of_false not_oneOutcome_nil fun h => hsocket (h.2 hroom).1
    · rw [if_neg fun h => hroom (UploadCommand.atLeastOneServerHasSpace_iff.mp h)]
      exact iff_of_true (oneOutcome_singleton _) ⟨hsize, fun h => (hroom h).elim⟩
  · rw [if_neg hsize]
    exact iff_of_false not_oneOutcome_nil fun h => hsize h.1

/-- An upload of a file that is not there has an outcome if the file system answers. -/
theorem oneOutcome_upload_of_not_isThere (h : ¬r.IsThere) (m : Static) :
    OneOutcome (r.upload m) ↔
      r.fileExists.isSome ∧ (r.fileExists = some true → r.isRegularFile.isSome) := by
  rw [upload]
  split
  next hexists => exact iff_of_false not_oneOutcome_nil (by simp [hexists])
  next hexists => exact iff_of_true (oneOutcome_singleton _) (by simp [hexists])
  next hexists =>
    split
    next hregular => exact iff_of_false not_oneOutcome_nil (by simp [hexists, hregular])
    next hregular => exact iff_of_true (oneOutcome_singleton _) (by simp [hexists, hregular])
    next hregular => exact (h ⟨hexists, hregular⟩).elim

/-- An upload has one outcome, unless a question to the file system throws, it cannot create
the socket for its request, or it writes to a connection that is closed. -/
theorem oneOutcome_upload_iff (m : Static) :
    OneOutcome (r.upload m) ↔ ¬r.Throws ∧ ¬r.LosesSocket ∧ ¬r.BreaksPipe := by
  by_cases h : r.IsThere
  · rw [oneOutcome_upload_of_isThere h, Throws, LosesSocket, BreaksPipe, h.1, h.2]
    cases r.sizeKnown <;> cases r.command.socketCreated <;> cases r.fileSize <;> simp [h]
  · rw [oneOutcome_upload_of_not_isThere h, Throws, LosesSocket, BreaksPipe]
    cases r.fileExists <;> cases r.isRegularFile <;> simp [h]

end UploadRun

/-- A transfer command has one outcome exactly if it is none of the cases named above. -/
theorem oneOutcome_iff (c : FetchCommand) (outFolder : Bytes) (r : UploadRun) (m : Static) :
    (OneOutcome (c.fetch outFolder).printed ↔ ¬(c.Connects ∧ c.isOpen = false)) ∧
      (OneOutcome (r.upload m) ↔ ¬r.Throws ∧ ¬r.LosesSocket ∧ ¬r.BreaksPipe) :=
  ⟨FetchCommand.oneOutcome_fetch_iff outFolder, UploadRun.oneOutcome_upload_iff m⟩

/-- A fetch that is sent a port and connects, and cannot open its local file. -/
def unopenedFetch : FetchCommand where
  messageSeq := 1
  filename := [97]
  socketError := none
  received := [⟨⟨9, 9⟩, complexMessage 1 fileGetResponse [97] 5⟩]
  connectError := none
  isOpen := false
  pieces := []
  readError := none

/-- An upload to a server that has room, whose socket is not created. -/
def socketlessUpload : UploadRun where
  command := { UploadCommand.twoServers 8 8 7 with socketCreated := false }
  fileExists := some true
  isRegularFile := some true
  sizeKnown := true
  fileSize := some 7
  transfer := ⟨none, true, []⟩

/-- An upload to a server that accepts and closes the connection before the second block. -/
def brokenUpload : UploadRun where
  command := { UploadCommand.twoServers 8 8 7 with
    attempt := fun _ => ⟨2, true, [⟨⟨1, 1⟩, complexMessage 2 fileAddAcceptance [] 5⟩]⟩ }
  fileExists := some true
  isRegularFile := some true
  sizeKnown := true
  fileSize := some 7
  transfer := ⟨none, true, [([97], none), ([98], some .brokenPipe)]⟩

/-- The fetch reports a failure and then a success, the uploads report nothing. -/
theorem unopenedFetch_not_oneOutcome :
    ¬OneOutcome (unopenedFetch.fetch []).printed ∧ ¬OneOutcome (socketlessUpload.upload ⟨0⟩) ∧
      ¬OneOutcome (brokenUpload.upload ⟨0⟩) := by
  have hfetch : (unopenedFetch.fetch []).printed = [.failure "file opening failed", .success] := by
    decide
  have hupload : socketlessUpload.upload ⟨0⟩ = [] ∧ brokenUpload.upload ⟨0⟩ = [] := by decide
  rw [hfetch, hupload.1, hupload.2]
  exact ⟨fun h => (by cases h.one), not_oneOutcome_nil, not_oneOutcome_nil⟩

end Netstore
