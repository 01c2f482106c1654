import Netstore.Protocol

/-!
# The client's upload

`Client::upload` of a file to one server as a state machine, in the manner of the
server's handlers : it sends the request, waits for an answer, connects to the port it is
given and writes the file to the connection. It reports a success when every block was
written and the blocks add up to the size of the file; nothing comes back from the
server after the answer.
-/

namespace Netstore

/-- What the client makes of a message that may answer an upload request : the port, and
whether the server accepts. Anything else is skipped. -/
def receiveUploadFileResponse (expectedMessageSeq : UInt64) (expectedFilename payload : Bytes) :
    Option (UInt16 × Bool) :=
  let (message, messageLength) := recvfrom payload
  if isExpectedCommand message.command fileAddAcceptance then
    match complexMessageValidation message expectedMessageSeq fileAddAcceptance messageLength []
    with
    | .ok _ => some (message.param.toUInt16, true)
    | .error _ => none
  else
    match simpleMessageValidation message expectedMessageSeq fileAddRefusal messageLength
      expectedFilename with
    | .ok _ => some (message.param.toUInt16, false)
    | .error _ => none

/-- A client that uploads a file. -/
structure Client where
  source : SockAddr
  messageSeq : UInt64
  filename : Bytes
  /-- The bytes of the file. -/
  content : Bytes
  zero_not_mem : (0 : UInt8) ∉ filename
  filename_length_le : filename.length ≤ 255
  content_length_lt : content.length < 2 ^ 64

/-- Where the client stands. -/
inductive ClientPc where
  /-- The request is sent, before an answer. -/
  | asking
  /-- Refused, or no answer came. -/
  | gaveUp
  /-- Before the connection. -/
  | connecting (port : UInt16)
  /-- Before the file is opened. -/
  | opening
  /-- Before the next block is read from the file. -/
  | reading (toUpload : UInt64) (offset : ℕ)
  /-- Before the block is written; `more` says the stream is still good. -/
  | writing (toUpload : UInt64) (offset : ℕ) (block : Bytes) (more : Bool)
  /-- A success is reported; whether the connection is closed. -/
  | succeeded (closed : Bool)
  /-- A failure is reported, or the program has been ended. -/
  | failed (closed : Bool)
  deriving DecidableEq

/-- The calls of the client with their answers. -/
inductive ClientCall where
  | answer (payload : Bytes)
  | noAnswer
  | connect (ok : Bool)
  | openFile (ok : Bool)
  /-- A block of the file; with `some n` the file fails after `n` bytes of it. -/
  | readFile (error : Option ℕ)
  /-- The block is written, or some first bytes of it. Then the call throws, or it is for a
  connection that the server has closed, and the signal ends the program. -/
  | write (error : Option ℕ)
  /-- The socket is closed as the function returns. -/
  | close
  deriving DecidableEq

namespace ClientPc

/-- The client has reported a success. -/
def reported : ClientPc → Bool
  | succeeded _ => true
  | _ => false

/-- The client has closed the connection. -/
def closed : ClientPc → Bool
  | succeeded c | failed c => c
  | _ => false

/-- What a call puts in the connection. -/
def written : ClientPc → ClientCall → Bytes
  | writing _ _ block _, .write none => block
  | writing _ _ block _, .write (some n) => block.take n
  | _, _ => []

theorem written_of_ne {pc : ClientPc} {call : ClientCall} (h : ∀ error, call ≠ .write error) :
    pc.written call = [] := by
  cases call with
  | write error => exact (h error rfl).elim
  | _ => cases pc <;> rfl

end ClientPc

/-- Whether there is a connection after a call. -/
def ClientCall.connects (connected : Bool) : ClientCall → Bool
  | connect ok => ok
  | _ => connected

namespace Client

variable (c : Client)

/-- `fs::file_size` of the file. -/
def fileSize : UInt64 :=
  UInt64.ofNat c.content.length

/-- One call of the client. -/
def next (pc : ClientPc) : ClientCall → Option ClientPc
  | .answer payload =>
    match pc with
    | .asking =>
      match receiveUploadFileResponse c.messageSeq c.filename payload with
      | some (port, true) => some (.connecting port)
      | some (_, false) => some .gaveUp
      | none => some .asking
    | _ => none
  | .noAnswer =>
    match pc with
    | .asking => some .gaveUp
    | _ => none
  | .connect ok =>
    match pc with
    | .connecting _ => some (if ok then .opening else .failed false)
    | _ => none
  | .openFile ok =>
    match pc with
    | .opening => some (if ok then .reading c.fileSize 0 else .failed false)
    | _ => none
  | .readFile error =>
    match pc with
    | .reading toUpload offset =>
      let block := (c.content.drop offset).take maxBufferSize
      match error with
      | none =>
        some (.writing (toUpload - UInt64.ofNat block.length) offset block
          (block.length = maxBufferSize))
      | some n =>
        some (.writing (toUpload - UInt64.ofNat (block.take n).length) offset (block.take n) false)
    | _ => none
  | .write error =>
    match pc, error with
    | .writing toUpload offset block more, none =>
      some (if more then .reading toUpload (offset + block.length)
        else if toUpload ≠ 0 then .failed false else .succeeded false)
    | .writing _ _ _ _, some _ => some (.failed false)
    | _, _ => none
  | .close =>
    match pc with
    | .succeeded false => some (.succeeded true)
    | .failed false => some (.failed true)
    | _ => none

theorem toNat_fileSize : c.fileSize.toNat = c.content.length :=
  UInt64.toNat_ofNat_of_lt' c.content_length_lt

/-- What the client has written to the connection, where it stands. -/
def Wrote (pc : ClientPc) (connected : Bool) (sent : Bytes) : Prop :=
  match pc with
  | .asking | .gaveUp | .connecting _ => connected = false ∧ sent = []
  | .opening => connected ∧ sent = []
  | .reading toUpload offset =>
    connected ∧ sent = c.content.take offset ∧ toUpload.toNat + offset = c.content.length
  | .writing toUpload offset block _ =>
    connected ∧ sent ++ block = c.content.take (offset + block.length) ∧
      toUpload.toNat + (offset + block.length) = c.content.length
  | .succeeded _ => connected ∧ sent = c.content
  | .failed _ => True

variable {c} {pc pc' : ClientPc} {call : ClientCall} {connected : Bool} {sent : Bytes}

/-- A block that is read takes its length off what is to be uploaded. -/
theorem wrote_block {toUpload : UInt64} {offset : ℕ} {block : Bytes} {more : Bool}
    (h : c.Wrote (.reading toUpload offset) connected sent) (hb : block <+: c.content.drop offset) :
    c.Wrote (.writing (toUpload - UInt64.ofNat block.length) offset block more) connected sent := by
  obtain ⟨hconn, hsent, hleft⟩ := h
  have hlen := Bytes.add_length_le_of_prefix hb (by omega)
  refine ⟨hconn, ?_, ?_⟩
  · rw [Bytes.take_add_of_prefix hb, hsent]
  · rw [toNat_sub_ofNat (by omega)]
    omega

/-- Each call of the client keeps this. -/
theorem Wrote.next (h : c.Wrote pc connected sent) (hn : c.next pc call = some pc') :
    c.Wrote pc' (call.connects connected) (sent ++ pc.written call) := by
  have hquiet : (∀ error, call ≠ .write error) → c.Wrote pc' (call.connects connected) sent →
      c.Wrote pc' (call.connects connected) (sent ++ pc.written call) := by
    intro hcall
    rw [ClientPc.written_of_ne hcall, List.append_nil]
    exact id
  cases call with
  | answer payload =>
    refine hquiet nofun ?_
    simp only [Client.next] at hn
    split at hn
    case h_1 =>
      rcases hr : receiveUploadFileResponse c.messageSeq c.filename payload with
        _ | ⟨port, _ | _⟩ <;> rw [hr] at hn <;> cases hn <;> exact h
    case h_2 => cases hn
  | noAnswer =>
    refine hquiet nofun ?_
    simp only [Client.next] at hn
    split at hn <;> cases hn
    exact h
  | connect ok =>
    refine hquiet nofun ?_
    simp only [Client.next] at hn
    split at hn
    case h_1 =>
      cases hn
      cases ok
      · trivial
      · exact ⟨rfl, h.2⟩
    case h_2 => cases hn
  | openFile ok =>
    refine hquiet nofun ?_
    simp only [Client.next] at hn
    split at hn
    case h_1 =>
      cases hn
      cases ok
      · trivial
      · exact ⟨h.1, h.2, c.toNat_fileSize⟩
    case h_2 => cases hn
  | readFile error =>
    refine hquiet nofun ?_
    simp only [Client.next] at hn
    split at hn
    case h_1 =>
      cases error <;> cases hn
      · exact wrote_block h (List.take_prefix _ _)
      · exact wrote_block h ((List.take_prefix _ _).trans (List.take_prefix _ _))
    case h_2 => cases hn
  | write error =>
    simp only [Client.next] at hn
    split at hn
    case h_1 toUpload offset block more =>
      obtain ⟨hconn, hsent, hleft⟩ := h
      cases hn
      dsimp only [ClientPc.written]
      split_ifs with hmore hshort
      · exact ⟨hconn, hsent, hleft⟩
      · trivial
      · obtain rfl : toUpload = 0 := by simpa using hshort
        refine ⟨hconn, ?_⟩
        rw [hsent]
        exact List.take_of_length_le (by simpa using hleft.ge)
    case h_2 => cases hn; trivial
    case h_3 => cases hn
  | close =>
    refine hquiet nofun ?_
    simp only [Client.next] at hn
    split at hn <;> cases hn
    · exact h
    · trivial

end Client

end Netstore
