import Netstore.Path
import Netstore.Protocol
import Netstore.Storage

/-!
# Handler threads

An upload handler and a download handler as state machines : a state is the place in
the code, a step one atomic call with the answer the environment gives to it. The
calls are the ones under a mutex, the file operations and the results of the sockets;
what a handler computes from its own variables between two calls belongs to the step
before. `Upload.next` is `handle_upload_request` with `upload_file_via_tcp`,
`Download.next` is `handle_file_request` with `send_file_via_tcp`.

A call that throws goes to the catch clause around it. `CallSite` lists the calls that
can throw, what they throw and what the innermost `try` around them catches; where
these differ the exception leaves the thread.

What is written to a file stream stays in its buffer until some of it is flushed,
which may happen at any time, or the stream is closed.
-/

namespace Netstore

/-! ## Exceptions -/

/-- The exceptions of the server's calls. -/
inductive Exn where
  | socketFailure
  | filesystemError
  | invalidMessage
  deriving DecidableEq

/-- The calls of the server that can throw. `announce` stands for creating, binding
and listening on the TCP socket and sending its port. -/
inductive CallSite where
  | recvfrom
  | messageValidation
  | discoverSend
  | filesListSend
  | fileAnnounce
  | fileSelect
  | fileAccept
  | fileWrite
  | uploadAnnounce
  | uploadRefuse
  | uploadSelect
  | uploadAccept
  | uploadRead
  | uploadExists
  | uploadRemove
  | removeFileSize
  | removeRemove
  deriving DecidableEq

namespace CallSite

/-- What the call throws. -/
def raises : CallSite → Exn
  | messageValidation => .invalidMessage
  | uploadExists | uploadRemove | removeFileSize | removeRemove => .filesystemError
  | _ => .socketFailure

/-- What the `try` around the call catches. The cleanup of a failed upload is outside
every `try`. -/
def catches : CallSite → Option Exn
  | messageValidation => some .invalidMessage
  | removeFileSize | removeRemove => some .filesystemError
  | uploadExists | uploadRemove => none
  | _ => some .socketFailure

/-- Whether an exception of the call is caught. -/
def caught (c : CallSite) : Bool :=
  c.catches = some c.raises

end CallSite

/-! ## File streams -/

/-- A file stream that is open for writing. -/
structure Stream where
  ino : ℕ
  /-- The number of bytes that have left the buffer. -/
  offset : ℕ
  buffer : Bytes
  good : Bool
  deriving DecidableEq

namespace Stream

variable (st : Stream) (d : Folder Filename)

/-- A write to a stream in an error state does nothing. -/
def write (bs : Bytes) : Stream :=
  if st.good then { st with buffer := st.buffer ++ bs } else st

@[simp] theorem ino_write (bs : Bytes) : (st.write bs).ino = st.ino := by
  unfold write
  split_ifs <;> rfl

/-- Move the first `n` bytes of the buffer to the file. -/
def flush (n : ℕ) : Folder Filename × Stream :=
  (d.write st.ino st.offset (st.buffer.take n),
    { st with
      offset := st.offset + (st.buffer.take n).length
      buffer := st.buffer.drop n })

/-- A write to the file has failed : the buffer is lost. -/
def spoil : Stream :=
  { st with buffer := [], good := false }

end Stream

/-! ## Answers of the environment -/

/-- What `select` returns. -/
inductive SelectResult where
  | ready
  | timeout
  | failure
  deriving DecidableEq

/-- A read of a TCP socket : some bytes, the end of the stream, or an error. -/
inductive ReadResult where
  | piece (bs : Bytes)
  | endOfStream
  | failure
  deriving DecidableEq

/-! ## Uploads -/

/-- Where an upload handler stands. -/
inductive UploadPc where
  /-- Before the test of the name and `check_and_reserve_space`. -/
  | start
  /-- Space is reserved, before `add_file_to_storage`. -/
  | reserved
  /-- The name is in storage, before `free_space`. -/
  | nameTaken
  /-- Before the refusal is sent. -/
  | refusing
  /-- The name is added, before the sockets. -/
  | accepted
  /-- In the catch clause of the sockets, before `free_space`. -/
  | announceFailed
  /-- In the catch clause, before `remove_file_from_storage`. -/
  | announceReleased
  /-- The port is sent, before `select`. -/
  | waiting
  /-- A client is waiting, before `accept`. -/
  | connecting
  /-- Before the file is opened. -/
  | opening (failed : Bool)
  /-- In the loop that reads the socket. -/
  | receiving (failed : Bool) (stream : Stream) (toUpload : UInt64) (received : Bytes)
  /-- After the loop, before the stream is closed. -/
  | closing (failed : Bool) (stream : Stream) (toUpload : UInt64) (received : Bytes)
  /-- The upload has failed, before `fs::exists`. -/
  | checking
  /-- The file exists, before `fs::remove`. -/
  | removing
  /-- Before `free_space`. -/
  | releasing
  /-- Before `remove_file_from_storage`. -/
  | forgetting
  /-- Ended after a refusal. -/
  | refused
  /-- Ended after a failure. -/
  | failed
  /-- Ended with the file kept. -/
  | kept (received : Bytes)
  /-- An exception has left the thread. -/
  | uncaught (e : Exn)
  deriving DecidableEq

/-- An upload handler with its arguments. -/
structure Upload where
  destinationAddress : SockAddr
  messageSeq : UInt64
  filename : Filename
  fileSize : UInt64
  pc : UploadPc
  deriving DecidableEq

/-- The calls of an upload handler with their answers. -/
inductive UploadCall where
  | checkAndReserveSpace
  | addFileToStorage
  | freeSpace
  | removeFileFromStorage
  /-- The port that is sent to the client, or none if a socket call throws. -/
  | announce (port : Option UInt16)
  /-- The refusal is sent, or the send throws. -/
  | refuse (ok : Bool)
  | select (r : SelectResult)
  | accept (ok : Bool)
  | openFile (ok : Bool)
  | read (r : ReadResult)
  /-- Some of the buffer of the stream reaches the file, or fails to. -/
  | flush (n : ℕ) (ok : Bool)
  | closeFile (ok : Bool)
  | fileExists (ok : Bool)
  | removeFile (ok : Bool)
  deriving DecidableEq

/-- A name the server takes : not empty and without a slash. -/
def acceptableName (filename : Filename) : Bool :=
  !filename.isEmpty && !filename.contains 47

/-- A name is acceptable if it is not empty and has no slash. -/
theorem acceptableName_iff {f : Filename} : acceptableName f ↔ f ≠ [] ∧ Path.slash ∉ f := by
  simp [acceptableName, Path.slash]

namespace Upload

variable (s : Server) (u : Upload)

/-- Where an exception of the call leads : its catch clause, or out of the thread. -/
def throw (c : CallSite) (clause : UploadPc) : UploadPc :=
  if c.caught then clause else .uncaught c.raises

/-- The message that announces the port. Its filename is not put on the network. -/
def acceptance (port : UInt16) : Option Bytes :=
  sendComplex (complexMessage u.messageSeq fileAddAcceptance u.filename port.toUInt64) 0

/-- The refusal of the upload as it is sent. -/
def refusal : Option Bytes :=
  sendSimple (simpleMessage u.messageSeq fileAddRefusal u.filename)
    (UInt16.ofNat u.filename.length)

/-- The most that the next read asks for. -/
def readLimit (toUpload : UInt64) : ℕ :=
  min maxBufferSize toUpload.toNat

/-- What follows the end of the transfer : cleanup if it failed or is short. -/
def afterTransfer (failed : Bool) (toUpload : UInt64) (received : Bytes) : UploadPc :=
  if failed ∨ toUpload ≠ 0 then .checking else .kept received

/-- One call of the handler : the server and the place after it, if the handler is
where it makes this call and the answer is possible. -/
def next : UploadCall → Option (Server × UploadPc)
  | .checkAndReserveSpace =>
    match u.pc with
    | .start =>
      if acceptableName u.filename then
        some ((s.checkAndReserveSpace u.fileSize).2,
          if (s.checkAndReserveSpace u.fileSize).1 then .reserved else .refusing)
      else some (s, .refusing)
    | _ => none
  | .addFileToStorage =>
    match u.pc with
    | .reserved =>
      some ((s.addFileToStorage u.filename).2,
        if (s.addFileToStorage u.filename).1 then .accepted else .nameTaken)
    | _ => none
  | .freeSpace =>
    match u.pc with
    | .nameTaken => some (s.freeSpace u.fileSize, .refusing)
    | .announceFailed => some (s.freeSpace u.fileSize, .announceReleased)
    | .releasing => some (s.freeSpace u.fileSize, .forgetting)
    | _ => none
  | .removeFileFromStorage =>
    match u.pc with
    | .announceReleased | .forgetting => some ((s.removeFileFromStorage u.filename).2, .failed)
    | _ => none
  | .announce port =>
    match u.pc with
    | .accepted =>
      some (s, if port.isSome then .waiting else throw .uploadAnnounce .announceFailed)
    | _ => none
  | .refuse ok =>
    match u.pc with
    | .refusing => some (s, if ok then .refused else throw .uploadRefuse .refused)
    | _ => none
  | .select r =>
    match u.pc, r with
    | .waiting, .ready => some (s, .connecting)
    | .waiting, .timeout => some (s, .checking)
    -- `select_res` keeps its initial 0, so the timeout branch follows
    | .waiting, .failure => some (s, throw .uploadSelect .checking)
    | _, _ => none
  | .accept ok =>
    match u.pc with
    | .connecting =>
      -- a failed accept is recorded and the handler carries on
      if ok then some (s, .opening false) else some (s, throw .uploadAccept (.opening true))
    | _ => none
  | .openFile ok =>
    match u.pc with
    | .opening failed =>
      if ok then
        (s.folder.openTruncate u.filename).map fun (ino, folder) =>
          ({ s with folder := folder }, .receiving failed ⟨ino, 0, [], true⟩ u.fileSize [])
      else some (s, .checking)
    | _ => none
  | .read r =>
    match u.pc, r with
    | .receiving failed st toUpload received, .piece bs =>
      if 0 < bs.length ∧ bs.length ≤ readLimit toUpload then
        some (s, .receiving failed (st.write bs) (toUpload - UInt64.ofNat bs.length)
          (received ++ bs))
      else none
    | .receiving failed st toUpload received, .endOfStream =>
      some (s, .closing failed st toUpload received)
    | .receiving _ st toUpload received, .failure =>
      some (s, throw .uploadRead (.closing true st toUpload received))
    | _, _ => none
  | .flush n ok =>
    match u.pc with
    | .receiving failed st toUpload received =>
      if ok then
        some ({ s with folder := (st.flush s.folder n).1 },
          .receiving failed (st.flush s.folder n).2 toUpload received)
      else some (s, .receiving failed st.spoil toUpload received)
    | _ => none
  | .closeFile ok =>
    match u.pc with
    | .closing failed st toUpload received =>
      some (if ok then { s with folder := (st.flush s.folder st.buffer.length).1 } else s,
        afterTransfer failed toUpload received)
    | _ => none
  | .fileExists ok =>
    match u.pc with
    | .checking =>
      if ok then some (s, if s.folder.exists? u.filename then .removing else .releasing)
      else some (s, throw .uploadExists .releasing)
    | _ => none
  | .removeFile ok =>
    match u.pc with
    | .removing =>
      if ok then
        (s.folder.remove u.filename).map fun folder => ({ s with folder := folder }, .releasing)
      else some (s, throw .uploadRemove .releasing)
    | _ => none

/-! ### What a call can do -/

/-- What a call can do, by the place it is made from and its answer. -/
inductive NextCase (s : Server) (u : Upload) : UploadCall → Server → UploadPc → Prop
  | reserve (before : u.pc = .start) (name : acceptableName u.filename)
      (fits : s.usedSpace.toNat + u.fileSize.toNat ≤ s.maxAvailableSpace.toNat) :
      NextCase s u .checkAndReserveSpace { s with usedSpace := s.usedSpace + u.fileSize } .reserved
  | reject (before : u.pc = .start)
      (unfit : ¬(acceptableName u.filename ∧ (s.checkAndReserveSpace u.fileSize).1)) :
      NextCase s u .checkAndReserveSpace s .refusing
  | add (before : u.pc = .reserved) (fresh : u.filename ∉ s.filesInStorage) :
      NextCase s u .addFileToStorage
        { s with filesInStorage := s.filesInStorage.insert u.filename } .accepted
  | taken (before : u.pc = .reserved) (mem : u.filename ∈ s.filesInStorage) :
      NextCase s u .addFileToStorage s .nameTaken
  | freeTaken (before : u.pc = .nameTaken) :
      NextCase s u .freeSpace (s.freeSpace u.fileSize) .refusing
  | freeAnnounce (before : u.pc = .announceFailed) :
      NextCase s u .freeSpace (s.freeSpace u.fileSize) .announceReleased
  | free (before : u.pc = .releasing) :
      NextCase s u .freeSpace (s.freeSpace u.fileSize) .forgetting
  | forget (before : u.pc = .announceReleased ∨ u.pc = .forgetting) :
      NextCase s u .removeFileFromStorage
        { s with filesInStorage := s.filesInStorage.erase u.filename } .failed
  | announce (before : u.pc = .accepted) (port : UInt16) :
      NextCase s u (.announce (some port)) s .waiting
  | announceFail (before : u.pc = .accepted) : NextCase s u (.announce none) s .announceFailed
  | refuse (before : u.pc = .refusing) (ok : Bool) : NextCase s u (.refuse ok) s .refused
  | ready (before : u.pc = .waiting) : NextCase s u (.select .ready) s .connecting
  | notReady {r} (before : u.pc = .waiting) (result : r ≠ .ready) :
      NextCase s u (.select r) s .checking
  | accept (before : u.pc = .connecting) (ok : Bool) : NextCase s u (.accept ok) s (.opening !ok)
  | create {failed ino folder} (before : u.pc = .opening failed)
      (opened : s.folder.openTruncate u.filename = some (ino, folder)) :
      NextCase s u (.openFile true) { s with folder := folder }
        (.receiving failed ⟨ino, 0, [], true⟩ u.fileSize [])
  | openFail {failed} (before : u.pc = .opening failed) : NextCase s u (.openFile false) s .checking
  | piece {failed st toUpload received bs} (before : u.pc = .receiving failed st toUpload received)
      (pos : 0 < bs.length) (le : bs.length ≤ readLimit toUpload) :
      NextCase s u (.read (.piece bs)) s
        (.receiving failed (st.write bs) (toUpload - UInt64.ofNat bs.length) (received ++ bs))
  | endOfStream {failed st toUpload received}
      (before : u.pc = .receiving failed st toUpload received) :
      NextCase s u (.read .endOfStream) s (.closing failed st toUpload received)
  | readFail {failed st toUpload received}
      (before : u.pc = .receiving failed st toUpload received) :
      NextCase s u (.read .failure) s (.closing true st toUpload received)
  | flush {failed st toUpload received} (before : u.pc = .receiving failed st toUpload received)
      (n : ℕ) :
      NextCase s u (.flush n true) { s with folder := (st.flush s.folder n).1 }
        (.receiving failed (st.flush s.folder n).2 toUpload received)
  | spoil {failed st toUpload received} (before : u.pc = .receiving failed st toUpload received)
      (n : ℕ) :
      NextCase s u (.flush n false) s (.receiving failed st.spoil toUpload received)
  | close {failed st toUpload received} (before : u.pc = .closing failed st toUpload received) :
      NextCase s u (.closeFile true) { s with folder := (st.flush s.folder st.buffer.length).1 }
        (afterTransfer failed toUpload received)
  | closeFail {failed st toUpload received} (before : u.pc = .closing failed st toUpload received) :
      NextCase s u (.closeFile false) s (afterTransfer failed toUpload received)
  | found (before : u.pc = .checking) (exist : s.folder.exists? u.filename) :
      NextCase s u (.fileExists true) s .removing
  | absent (before : u.pc = .checking) (exist : s.folder.exists? u.filename = false) :
      NextCase s u (.fileExists true) s .releasing
  | existsThrows (before : u.pc = .checking) :
      NextCase s u (.fileExists false) s (.uncaught .filesystemError)
  | remove {folder} (before : u.pc = .removing)
      (removed : s.folder.remove u.filename = some folder) :
      NextCase s u (.removeFile true) { s with folder := folder } .releasing
  | removeThrows (before : u.pc = .removing) :
      NextCase s u (.removeFile false) s (.uncaught .filesystemError)

variable {s u} {s' : Server} {c : UploadCall} {pc : UploadPc}

theorem next_cases (h : u.next s c = some (s', pc)) : NextCase s u c s' pc := by
  cases c with
  | checkAndReserveSpace =>
    simp only [next] at h
    split at h
    case h_1 before =>
      split_ifs at h with name room <;> cases h
      · rw [s.checkAndReserveSpace_of_true room]
        exact .reserve before name ((s.checkAndReserveSpace_iff _).mp room)
      · rw [s.checkAndReserveSpace_of_false (Bool.not_eq_true _ ▸ room)]
        exact .reject before fun h => room h.2
      · exact .reject before fun h => name h.1
    case h_2 => cases h
  | addFileToStorage =>
    simp only [next] at h
    split at h
    case h_1 before =>
      cases h
      by_cases mem : u.filename ∈ s.filesInStorage
      · have hset : s.filesInStorage.insert u.filename = s.filesInStorage := by
          rw [SortedSet.insert, dif_pos mem]
        simp only [Server.addFileToStorage, mem, hset, not_true_eq_false, decide_false,
          Bool.false_eq_true, if_false]
        exact .taken before mem
      · simp only [Server.addFileToStorage, mem, not_false_eq_true, decide_true, if_true]
        exact .add before mem
    case h_2 => cases h
  | freeSpace =>
    simp only [next] at h
    split at h <;> cases h
    · exact .freeTaken (by assumption)
    · exact .freeAnnounce (by assumption)
    · exact .free (by assumption)
  | removeFileFromStorage =>
    simp only [next] at h
    split at h <;> cases h
    · exact .forget (Or.inl (by assumption))
    · exact .forget (Or.inr (by assumption))
  | announce port =>
    simp only [next] at h
    split at h <;> cases h
    cases port
    · exact .announceFail (by assumption)
    · exact .announce (by assumption) _
  | refuse ok =>
    simp only [next] at h
    split at h <;> cases h
    cases ok <;> exact .refuse (by assumption) _
  | select r =>
    simp only [next] at h
    split at h <;> cases h
    · exact .ready (by assumption)
    · exact .notReady (by assumption) (by decide)
    · exact .notReady (by assumption) (by decide)
  | accept ok =>
    simp only [next] at h
    split at h
    case h_1 before => cases ok <;> cases h <;> exact .accept before _
    case h_2 => cases h
  | openFile ok =>
    simp only [next] at h
    split at h
    case h_1 before =>
      cases ok
      · cases h
        exact .openFail before
      · obtain ⟨⟨ino, folder⟩, opened, h⟩ := Option.map_eq_some_iff.mp h
        cases h
        exact .create before opened
    case h_2 => cases h
  | read r =>
    simp only [next] at h
    split at h
    case h_1 before =>
      split_ifs at h with hbs
      cases h
      exact .piece before hbs.1 hbs.2
    case h_2 before => cases h; exact .endOfStream before
    case h_3 before => cases h; exact .readFail before
    case h_4 => cases h
  | flush n ok =>
    simp only [next] at h
    split at h
    case h_1 before =>
      cases ok <;> cases h
      · exact .spoil before n
      · exact .flush before n
    case h_2 => cases h
  | closeFile ok =>
    simp only [next] at h
    split at h
    case h_1 before =>
      cases ok <;> cases h
      · exact .closeFail before
      · exact .close before
    case h_2 => cases h
  | fileExists ok =>
    simp only [next] at h
    split at h
    case h_1 before =>
      cases ok
      · cases h
        exact .existsThrows before
      · cases exist : s.folder.exists? u.filename <;> rw [exist] at h <;> cases h
        · exact .absent before exist
        · exact .found before exist
    case h_2 => cases h
  | removeFile ok =>
    simp only [next] at h
    split at h
    case h_1 before =>
      cases ok
      · cases h
        exact .removeThrows before
      · obtain ⟨folder, removed, h⟩ := Option.map_eq_some_iff.mp h
        cases h
        exact .remove before removed
    case h_2 => cases h

end Upload

/-! ## Downloads -/

/-- Where a download handler stands. -/
inductive DownloadPc where
  /-- Before the sockets. -/
  | announcing
  /-- The port is sent, before `select`. -/
  | waiting
  /-- A client is waiting, before `accept`. -/
  | connecting
  /-- Before the file is opened. -/
  | opening
  /-- Before the next block is read from the file. -/
  | reading (ino offset : ℕ) (sent : Bytes)
  /-- Before the block is written to the socket; `more` says the stream is still good. -/
  | writing (ino offset : ℕ) (block : Bytes) (more : Bool) (sent : Bytes)
  /-- Ended, with the bytes written to the socket. -/
  | ended (sent : Bytes)
  /-- An exception has left the thread. -/
  | uncaught (e : Exn)
  deriving DecidableEq

/-- A download handler with its arguments. -/
structure Download where
  destinationAddress : SockAddr
  messageSeq : UInt64
  filename : Filename
  pc : DownloadPc
  deriving DecidableEq

/-- The calls of a download handler with their answers. -/
inductive DownloadCall where
  | announce (port : Option UInt16)
  | select (r : SelectResult)
  | accept (ok : Bool)
  | openFile (ok : Bool)
  /-- A block of the file; with `some n` the file fails after `n` bytes of it. -/
  | readFile (error : Option ℕ)
  /-- The block is written, or some first bytes of it and then the call throws. -/
  | write (error : Option ℕ)
  deriving DecidableEq

namespace Download

variable (s : Server) (u : Download)

/-- Where an exception of the call leads. -/
def throw (c : CallSite) (clause : DownloadPc) : DownloadPc :=
  if c.caught then clause else .uncaught c.raises

/-- The message that announces the port. -/
def response (port : UInt16) : Option Bytes :=
  sendComplex (complexMessage u.messageSeq fileGetResponse u.filename port.toUInt64)
    (UInt16.ofNat u.filename.length)

/-- The next block of the file from an offset. -/
def block (ino offset : ℕ) : Bytes :=
  ((s.folder.contents ino).drop offset).take maxBufferSize

/-- One call of the handler. It changes nothing but its own place. -/
def next : DownloadCall → Option DownloadPc
  | .announce port =>
    match u.pc with
    | .announcing => some (if port.isSome then .waiting else throw .fileAnnounce (.ended []))
    | _ => none
  | .select r =>
    match u.pc, r with
    | .waiting, .ready => some .connecting
    | .waiting, .timeout => some (.ended [])
    | .waiting, .failure => some (throw .fileSelect (.ended []))
    | _, _ => none
  | .accept ok =>
    match u.pc with
    | .connecting => if ok then some .opening else some (throw .fileAccept (.ended []))
    | _ => none
  | .openFile ok =>
    match u.pc with
    | .opening =>
      if ok then (s.folder.inode u.filename).map fun ino => .reading ino 0 []
      else some (.ended [])
    | _ => none
  | .readFile error =>
    match u.pc, error with
    | .reading ino offset sent, none =>
      some (.writing ino offset (block s ino offset)
        ((block s ino offset).length = maxBufferSize) sent)
    | .reading ino offset sent, some n =>
      some (.writing ino offset ((block s ino offset).take n) false sent)
    | _, _ => none
  | .write error =>
    match u.pc, error with
    | .writing ino offset bs more sent, none =>
      some (if more then .reading ino (offset + bs.length) (sent ++ bs) else .ended (sent ++ bs))
    | .writing _ _ bs _ sent, some n =>
      some (throw .fileWrite (.ended (sent ++ bs.take n)))
    | _, _ => none

/-! ### What a call can do -/

/-- What a call can do, by the place it is made from and its answer. -/
inductive NextCase (s : Server) (u : Download) : DownloadCall → DownloadPc → Prop
  | announce (before : u.pc = .announcing) (port : UInt16) :
      NextCase s u (.announce (some port)) .waiting
  | announceFail (before : u.pc = .announcing) : NextCase s u (.announce none) (.ended [])
  | ready (before : u.pc = .waiting) : NextCase s u (.select .ready) .connecting
  | notReady {r} (before : u.pc = .waiting) (result : r ≠ .ready) :
      NextCase s u (.select r) (.ended [])
  | accept (before : u.pc = .connecting) : NextCase s u (.accept true) .opening
  | acceptFail (before : u.pc = .connecting) : NextCase s u (.accept false) (.ended [])
  | openFile {ino} (before : u.pc = .opening) (opened : s.folder.inode u.filename = some ino) :
      NextCase s u (.openFile true) (.reading ino 0 [])
  | openFail (before : u.pc = .opening) : NextCase s u (.openFile false) (.ended [])
  | readFile {ino offset sent} (before : u.pc = .reading ino offset sent) :
      NextCase s u (.readFile none)
        (.writing ino offset (block s ino offset)
          ((block s ino offset).length = maxBufferSize) sent)
  | readFail {ino offset sent} (before : u.pc = .reading ino offset sent) (n : ℕ) :
      NextCase s u (.readFile (some n))
        (.writing ino offset ((block s ino offset).take n) false sent)
  | write {ino offset bs sent} (before : u.pc = .writing ino offset bs true sent) :
      NextCase s u (.write none) (.reading ino (offset + bs.length) (sent ++ bs))
  | writeLast {ino offset bs sent} (before : u.pc = .writing ino offset bs false sent) :
      NextCase s u (.write none) (.ended (sent ++ bs))
  | writeFail {ino offset bs more sent} (before : u.pc = .writing ino offset bs more sent)
      (n : ℕ) : NextCase s u (.write (some n)) (.ended (sent ++ bs.take n))

variable {s u} {c : DownloadCall} {pc : DownloadPc}

theorem next_cases (h : u.next s c = some pc) : NextCase s u c pc := by
  cases c with
  | announce port =>
    simp only [next] at h
    split at h <;> cases h
    cases port
    · exact .announceFail (by assumption)
    · exact .announce (by assumption) _
  | select r =>
    simp only [next] at h
    split at h <;> cases h
    · exact .ready (by assumption)
    · exact .notReady (by assumption) (by decide)
    · exact .notReady (by assumption) (by decide)
  | accept ok =>
    simp only [next] at h
    split at h
    case h_1 before =>
      cases ok <;> cases h
      · exact .acceptFail before
      · exact .accept before
    case h_2 => cases h
  | openFile ok =>
    simp only [next] at h
    split at h
    case h_1 before =>
      cases ok
      · cases h
        exact .openFail before
      · obtain ⟨ino, opened, rfl⟩ := Option.map_eq_some_iff.mp h
        exact .openFile before opened
    case h_2 => cases h
  | readFile error =>
    simp only [next] at h
    split at h
    case h_1 before => cases h; exact .readFile before
    case h_2 before => cases h; exact .readFail before _
    case h_3 => cases h
  | write error =>
    simp only [next] at h
    split at h
    case h_1 more sent before =>
      cases more <;> cases h
      · exact .writeLast before
      · exact .write before
    case h_2 before => cases h; exact .writeFail before _
    case h_3 => cases h

end Download

end Netstore
