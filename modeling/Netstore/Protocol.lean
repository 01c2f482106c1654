import Netstore.Bytes

/-!
# Messages

Both packed structures, `SimpleMessage` and `ComplexMessage`, are 65508 bytes of
memory that is zeroed before it is filled, so a message is the bytes written to it
(`Message`) and either view reads fields of the same bytes : the command at 0, the
sequence number at 10, the parameter of a complex message at 18, the data at 18 or 26.

`complexMessage` and `simpleMessage` are the constructors, `sendComplex` and
`sendSimple` the bytes that a send puts on the network, `recvfrom` the message a
datagram leaves in a fresh object. `dispatch` is what the server's loop makes of it
after `messageValidation`.
-/

namespace Netstore

/-- The bytes of a string of characters. -/
def ascii (s : List Char) : Bytes :=
  s.map fun c => UInt8.ofNat c.toNat

/-! ## Constants -/

/-- `cp::discover_request`. -/
def discoverRequest : Bytes := ascii ['H', 'E', 'L', 'L', 'O']
/-- `cp::discover_response`. -/
def discoverResponse : Bytes := ascii ['G', 'O', 'O', 'D', '_', 'D', 'A', 'Y']
/-- `cp::files_list_request`. -/
def filesListRequest : Bytes := ascii ['L', 'I', 'S', 'T']
/-- `cp::files_list_response`. -/
def filesListResponse : Bytes := ascii ['M', 'Y', '_', 'L', 'I', 'S', 'T']
/-- `cp::file_get_request`. -/
def fileGetRequest : Bytes := ascii ['G', 'E', 'T']
/-- `cp::file_get_response`. -/
def fileGetResponse : Bytes := ascii ['C', 'O', 'N', 'N', 'E', 'C', 'T', '_', 'M', 'E']
/-- `cp::file_remove_request`. -/
def fileRemoveRequest : Bytes := ascii ['D', 'E', 'L']
/-- `cp::file_add_request`. -/
def fileAddRequest : Bytes := ascii ['A', 'D', 'D']
/-- `cp::file_add_refusal`. -/
def fileAddRefusal : Bytes := ascii ['N', 'O', '_', 'W', 'A', 'Y']
/-- `cp::file_add_acceptance`. -/
def fileAddAcceptance : Bytes := ascii ['C', 'A', 'N', '_', 'A', 'D', 'D']

/-- The size of the command field. -/
def maxCommandLength : ℕ := 10
/-- The longest data of a simple message. -/
def maxSimpleDataSize : ℕ := 65489
/-- The longest data of a complex message : its `param` takes 8 bytes. -/
def maxComplexDataSize : ℕ := maxSimpleDataSize - 8
/-- What is in front of the data of a simple message. -/
def simpleMessageNoDataSize : ℕ := maxCommandLength + 8
/-- What is in front of the data of a complex message. -/
def complexMessageNoDataSize : ℕ := maxCommandLength + 2 * 8

/-- The size of either message object. -/
def messageSize : ℕ := simpleMessageNoDataSize + maxSimpleDataSize + 1

/-- The chunk of both TCP loops. -/
def maxBufferSize : ℕ := 65536

/-- The largest payload of a datagram that `sendto` accepts. -/
def maxDatagramSize : ℕ := 65507

/-! ## Message objects -/

/-- A message object : the bytes written to its zeroed memory. -/
abbrev Message := Bytes

namespace Message

variable (m : Message)

/-- The command field, all ten bytes. -/
def command : Bytes :=
  m.field 0 maxCommandLength

/-- The sequence number, in the byte order of the host. -/
def messageSeq : UInt64 :=
  Bytes.be64toh (m.field maxCommandLength 8)

/-- The parameter of a complex message, in the byte order of the host. -/
def param : UInt64 :=
  Bytes.be64toh (m.field simpleMessageNoDataSize 8)

/-- The string in the data array of the simple view. -/
def simpleData : Bytes :=
  m.cString simpleMessageNoDataSize

/-- The string in the data array of the complex view. -/
def complexData : Bytes :=
  m.cString complexMessageNoDataSize

/-- The command read as a C string. -/
def commandString : Bytes :=
  m.command.takeWhile (· ≠ 0)

end Message

/-- The command followed by zeros up to its ten bytes. -/
def fillCommand (str : Bytes) : Bytes :=
  str ++ List.replicate (maxCommandLength - str.length) 0

/-- What `strncpy` leaves of a C string in a zeroed array. -/
def strncpy (s : Bytes) (n : ℕ) : Bytes :=
  (s.takeWhile (· ≠ 0)).take n

/-- The constructor of `ComplexMessage`, with the data cut to its field. -/
def complexMessage (messageSeq : UInt64) (command data : Bytes) (param : UInt64) : Message :=
  fillCommand command ++ (Bytes.be64 messageSeq ++ (Bytes.be64 param ++
    strncpy data maxComplexDataSize))

/-- The constructor of `SimpleMessage`, with the data cut to its field. -/
def simpleMessage (messageSeq : UInt64) (command data : Bytes) : Message :=
  fillCommand command ++ (Bytes.be64 messageSeq ++ strncpy data maxSimpleDataSize)

/-! ## Datagrams -/

/-- An address of a socket. -/
structure SockAddr where
  sinAddr : UInt32
  sinPort : UInt16
  deriving DecidableEq

/-- A datagram with the address of its sender. -/
structure Datagram where
  source : SockAddr
  payload : Bytes
  deriving DecidableEq

/-- The payload that a send of the first `n` bytes puts on the network, if it
succeeds. -/
def sendto (m : Message) (n : UInt16) : Option Bytes :=
  if n.toNat ≤ maxDatagramSize then some (m.field 0 n.toNat) else none

/-- The message length is computed in sixteen bits. -/
def sendSimple (m : Message) (dataLength : UInt16) : Option Bytes :=
  sendto m (UInt16.ofNat simpleMessageNoDataSize + dataLength)

/-- `udp_socket::send` of a complex message, with so many bytes of its data. -/
def sendComplex (m : Message) (dataLength : UInt16) : Option Bytes :=
  sendto m (UInt16.ofNat complexMessageNoDataSize + dataLength)

/-- The message a datagram leaves in a fresh object, and the length received. -/
def recvfrom (payload : Bytes) : Message × ℕ :=
  (payload.take messageSize, min payload.length messageSize)

/-! ## Requests -/

/-- What the server's loop makes of a datagram. -/
inductive Request where
  | discover (messageSeq : UInt64)
  | filesList (messageSeq : UInt64) (pattern : Bytes)
  | file (messageSeq : UInt64) (filename : Bytes)
  | remove (filename : Bytes)
  | upload (messageSeq : UInt64) (filename : Bytes) (fileSize : UInt64)
  deriving DecidableEq

/-- A string, then zeros up to the end of its array. -/
def isValidString (str : Bytes) : Bool :=
  (str.dropWhile (· ≠ 0)).all (· = 0) && str.getLast? = some 0

/-- The server's validation. An upload request is tested in the first branch, so the
branch that asks for its filename is never reached. -/
def messageValidation (m : Message) (messageLength : ℕ) : Except String Unit :=
  if isValidString m.command then
    if m.commandString = fileAddRequest then
      if messageLength < complexMessageNoDataSize then .error "Message too small" else .ok ()
    else if messageLength < simpleMessageNoDataSize then .error "Message too small"
    else if m.commandString = discoverRequest then
      if messageLength > simpleMessageNoDataSize then .error "Message too big" else .ok ()
    else if m.commandString = filesListRequest then .ok ()
    else if m.commandString = fileAddRequest then
      if messageLength = simpleMessageNoDataSize then
        .error "Upload request, filename not specified."
      else .ok ()
    else if m.commandString = fileGetRequest then
      if messageLength = simpleMessageNoDataSize then
        .error "Fetch request, filename not specified."
      else .ok ()
    else if m.commandString = fileRemoveRequest then
      if messageLength = simpleMessageNoDataSize then
        .error "Remove request, filename not specified."
      else .ok ()
    else .error "Unknown command"
  else .error "Invalid command"

/-- The choice of the handler and of its arguments. Everything but an upload is read
through the simple view. -/
def dispatch (m : Message) : Option Request :=
  if m.commandString = fileAddRequest then
    some (.upload m.messageSeq m.complexData m.param)
  else if m.commandString = discoverRequest then some (.discover m.messageSeq)
  else if m.commandString = filesListRequest then some (.filesList m.messageSeq m.simpleData)
  else if m.commandString = fileGetRequest then some (.file m.messageSeq m.simpleData)
  else if m.commandString = fileRemoveRequest then some (.remove m.simpleData)
  else none

/-- The request of a datagram, or why it is skipped. -/
def receive (payload : Bytes) : Except String (Option Request) := do
  let (m, messageLength) := recvfrom payload
  messageValidation m messageLength
  return dispatch m

/-- An upload request as the client sends it. -/
def addRequest (messageSeq : UInt64) (filename : Bytes) (fileSize : UInt64) : Option Bytes :=
  sendComplex (complexMessage messageSeq fileAddRequest filename fileSize)
    (UInt16.ofNat filename.length)

/-- A request with a string as the client sends it. -/
def simpleRequest (messageSeq : UInt64) (command data : Bytes) : Option Bytes :=
  sendSimple (simpleMessage messageSeq command data) (UInt16.ofNat data.length)

/-- The datagram of an upload request. -/
def addDatagram (source : SockAddr) (messageSeq : UInt64) (filename : Bytes)
    (fileSize : UInt64) : Datagram :=
  ⟨source, complexMessage messageSeq fileAddRequest filename fileSize⟩

/-- The datagram of a request with a string. -/
def simpleDatagram (source : SockAddr) (messageSeq : UInt64) (command data : Bytes) : Datagram :=
  ⟨source, simpleMessage messageSeq command data⟩

/-! ## Responses -/

/-- The command field holds the expected command and zeros. -/
def isExpectedCommand (command expectedCommand : Bytes) : Bool :=
  command.take expectedCommand.length = expectedCommand &&
    (command.drop expectedCommand.length).all (· = 0)

/-- No byte that is not zero follows a zero. -/
def isValidData : Bytes → Bool
  | a :: b :: data => !(b ≠ 0 && a = 0) && isValidData (b :: data)
  | _ => true

/-- The client's validation, of the view whose data begins at `noDataSize`. -/
def responseValidation (noDataSize : ℕ) (m : Message) (expectedMessageSeq : UInt64)
    (expectedCommand : Bytes) (messageSize : ℕ) (expectedData : Bytes) : Except String Unit :=
  if messageSize < noDataSize then .error "message too small"
  else if !isExpectedCommand m.command expectedCommand then .error "invalid command"
  else if m.messageSeq ≠ expectedMessageSeq then .error "invalid message seq"
  else if !isValidData (m.field noDataSize (messageSize - noDataSize)) then
    .error "invalid message data"
  else if !expectedData.isEmpty && expectedData ≠ m.cString noDataSize then
    .error "unexpected data received"
  else .ok ()

/-- `message_validation` of a simple message at the client. -/
def simpleMessageValidation (m : Message) (expectedMessageSeq : UInt64)
    (expectedCommand : Bytes) (messageSize : ℕ) (expectedData : Bytes) : Except String Unit :=
  responseValidation simpleMessageNoDataSize m expectedMessageSeq expectedCommand messageSize
    expectedData

/-- `message_validation` of a complex message at the client. -/
def complexMessageValidation (m : Message) (expectedMessageSeq : UInt64)
    (expectedCommand : Bytes) (messageSize : ℕ) (expectedData : Bytes) : Except String Unit :=
  responseValidation complexMessageNoDataSize m expectedMessageSeq expectedCommand messageSize
    expectedData

/-! ## Round trips -/

theorem strncpy_of_le {s : Bytes} {n : ℕ} (hs : (0 : UInt8) ∉ s) (hn : s.length ≤ n) :
    strncpy s n = s := by
  rw [strncpy, Bytes.takeWhile_ne_zero hs, List.take_of_length_le hn]

theorem length_fillCommand {c : Bytes} (hc : c.length ≤ maxCommandLength) :
    (fillCommand c).length = maxCommandLength := by
  simp [fillCommand]
  omega

/-- A message that is all sent and fits in a datagram arrives as it is. -/
theorem field_zero_self {m : Message} {n : ℕ} (hn : m.length = n) : m.field 0 n = m := by
  subst hn
  simp [Bytes.field]

theorem recvfrom_of_le {payload : Bytes} (h : payload.length ≤ messageSize) :
    recvfrom payload = (payload, payload.length) := by
  rw [recvfrom, List.take_of_length_le h, Nat.min_eq_left h]

section Views

variable {seq param : UInt64} {c s : Bytes} (hc : c.length ≤ maxCommandLength)

include hc

theorem command_append (rest : Bytes) :
    Message.command (fillCommand c ++ rest) = fillCommand c := by
  have h := Bytes.field_append [] (fillCommand c) rest
  rwa [length_fillCommand hc] at h

theorem commandString_append (rest : Bytes) (h0 : (0 : UInt8) ∉ c)
    (hlt : c.length < maxCommandLength) :
    Message.commandString (fillCommand c ++ rest) = c := by
  have hh : (List.replicate (maxCommandLength - c.length) (0 : UInt8)).head? = some 0 := by
    rw [List.head?_replicate, if_neg (by omega)]
  have h := Bytes.cString_append [] c _ h0 (Or.inr hh)
  rw [Message.commandString, command_append hc]
  exact h

theorem messageSeq_append (rest : Bytes) :
    Message.messageSeq (fillCommand c ++ (Bytes.be64 seq ++ rest)) = seq := by
  have h := Bytes.field_append (fillCommand c) (Bytes.be64 seq) rest
  rw [length_fillCommand hc, Bytes.length_be64] at h
  rw [Message.messageSeq, h, Bytes.be64toh_be64]

theorem param_append (rest : Bytes) :
    Message.param (fillCommand c ++ (Bytes.be64 seq ++ (Bytes.be64 param ++ rest))) = param := by
  have h := Bytes.field_append (fillCommand c ++ Bytes.be64 seq) (Bytes.be64 param) rest
  rw [List.length_append, length_fillCommand hc, Bytes.length_be64, Bytes.length_be64,
    List.append_assoc] at h
  rw [Message.param, simpleMessageNoDataSize, h, Bytes.be64toh_be64]

theorem simpleData_append (h0 : (0 : UInt8) ∉ s) :
    Message.simpleData (fillCommand c ++ (Bytes.be64 seq ++ s)) = s := by
  have h := Bytes.cString_append (fillCommand c ++ Bytes.be64 seq) s [] h0 (Or.inl rfl)
  simp only [List.length_append, length_fillCommand hc, Bytes.length_be64, List.append_assoc,
    List.append_nil] at h
  exact h

theorem complexData_append (h0 : (0 : UInt8) ∉ s) :
    Message.complexData (fillCommand c ++ (Bytes.be64 seq ++ (Bytes.be64 param ++ s))) = s := by
  have h := Bytes.cString_append (fillCommand c ++ (Bytes.be64 seq ++ Bytes.be64 param)) s []
    h0 (Or.inl rfl)
  simp only [List.length_append, length_fillCommand hc, Bytes.length_be64, List.append_assoc,
    List.append_nil] at h
  exact h

theorem length_simple_append (seq : UInt64) (s : Bytes) :
    (fillCommand c ++ (Bytes.be64 seq ++ s)).length = simpleMessageNoDataSize + s.length := by
  rw [List.length_append, List.length_append, length_fillCommand hc, Bytes.length_be64,
    simpleMessageNoDataSize]
  omega

theorem length_complex_append (seq param : UInt64) (s : Bytes) :
    (fillCommand c ++ (Bytes.be64 seq ++ (Bytes.be64 param ++ s))).length =
      complexMessageNoDataSize + s.length := by
  rw [List.length_append, List.length_append, List.length_append, length_fillCommand hc,
    Bytes.length_be64, Bytes.length_be64, complexMessageNoDataSize]
  omega

theorem recvfrom_simple_append (hs : s.length ≤ maxSimpleDataSize) :
    recvfrom (fillCommand c ++ (Bytes.be64 seq ++ s)) =
      (fillCommand c ++ (Bytes.be64 seq ++ s),
        (fillCommand c ++ (Bytes.be64 seq ++ s)).length) := by
  refine recvfrom_of_le ?_
  rw [length_simple_append hc, messageSize]
  omega

theorem recvfrom_complex_append (param : UInt64) (hs : s.length ≤ maxComplexDataSize) :
    recvfrom (fillCommand c ++ (Bytes.be64 seq ++ (Bytes.be64 param ++ s))) =
      (fillCommand c ++ (Bytes.be64 seq ++ (Bytes.be64 param ++ s)),
        (fillCommand c ++ (Bytes.be64 seq ++ (Bytes.be64 param ++ s))).length) := by
  have hmax : complexMessageNoDataSize + maxComplexDataSize < messageSize := by decide
  refine recvfrom_of_le ?_
  rw [length_complex_append hc]
  omega

/-- A simple message is sent up to the end of its string. -/
theorem sendSimple_simpleMessage (seq : UInt64) (h0 : (0 : UInt8) ∉ s)
    (hs : s.length ≤ maxSimpleDataSize) :
    sendSimple (simpleMessage seq c s) (UInt16.ofNat s.length) =
      some (fillCommand c ++ (Bytes.be64 seq ++ s)) := by
  have hmax : maxSimpleDataSize = 65489 := rfl
  have hn : (UInt16.ofNat simpleMessageNoDataSize + UInt16.ofNat s.length).toNat =
      simpleMessageNoDataSize + s.length := by
    rw [UInt16.toNat_add, UInt16.toNat_ofNat', UInt16.toNat_ofNat']
    simp only [simpleMessageNoDataSize, maxCommandLength]
    omega
  rw [simpleMessage, strncpy_of_le h0 hs, sendSimple, sendto, hn, if_pos,
    field_zero_self (length_simple_append hc _ s)]
  simp only [simpleMessageNoDataSize, maxCommandLength, maxDatagramSize]
  omega

/-- So is a complex one. -/
theorem sendComplex_complexMessage (seq param : UInt64) (h0 : (0 : UInt8) ∉ s)
    (hs : s.length ≤ maxComplexDataSize) :
    sendComplex (complexMessage seq c s param) (UInt16.ofNat s.length) =
      some (fillCommand c ++ (Bytes.be64 seq ++ (Bytes.be64 param ++ s))) := by
  have hmax : maxComplexDataSize = 65481 := rfl
  have hn : (UInt16.ofNat complexMessageNoDataSize + UInt16.ofNat s.length).toNat =
      complexMessageNoDataSize + s.length := by
    rw [UInt16.toNat_add, UInt16.toNat_ofNat', UInt16.toNat_ofNat']
    simp only [complexMessageNoDataSize, maxCommandLength]
    omega
  rw [complexMessage, strncpy_of_le h0 hs, sendComplex, sendto, hn, if_pos,
    field_zero_self (length_complex_append hc _ _ s)]
  simp only [complexMessageNoDataSize, maxCommandLength, maxDatagramSize]
  omega

/-- What a send puts on the network of a message begins with its header, if it is not shorter. -/
theorem exists_append_of_sendto {rest payload : Bytes} {n : UInt16}
    (h : sendto (fillCommand c ++ (Bytes.be64 seq ++ rest)) n = some payload)
    (hmin : simpleMessageNoDataSize ≤ payload.length) :
    ∃ rest', payload = fillCommand c ++ (Bytes.be64 seq ++ rest') := by
  rw [sendto] at h
  split_ifs at h
  obtain rfl := Option.some.inj h
  rw [Bytes.length_field] at hmin
  have hhead : (fillCommand c ++ Bytes.be64 seq).length ≤ n.toNat := by
    rwa [← List.append_nil (Bytes.be64 seq), length_simple_append hc]
  refine ⟨(rest ++ List.replicate n.toNat 0).take
    (n.toNat - (fillCommand c ++ Bytes.be64 seq).length), ?_⟩
  rw [Bytes.field, List.drop_zero, ← List.append_assoc,
    List.append_assoc _ _ (List.replicate n.toNat 0), List.take_append,
    List.take_of_length_le hhead, List.append_assoc]

end Views

/-- What is sent is received whole. -/
theorem recvfrom_of_sendto {m : Message} {n : UInt16} {payload : Bytes}
    (h : sendto m n = some payload) : recvfrom payload = (payload, payload.length) := by
  rw [sendto] at h
  split_ifs at h with hmax
  obtain rfl := Option.some.inj h
  refine recvfrom_of_le ?_
  rw [Bytes.length_field]
  exact hmax.trans (by decide)

theorem isValidData_of_not_mem {data : Bytes} (h : (0 : UInt8) ∉ data) : isValidData data := by
  induction data with
  | nil => rfl
  | cons a data ih =>
    cases data with
    | nil => rfl
    | cons b data =>
      have ha : a ≠ 0 := fun he => h (by simp [he])
      simp [isValidData, ha, ih fun hd => h (List.mem_cons_of_mem _ hd)]

theorem isExpectedCommand_fillCommand {c c' : Bytes} (h0 : (0 : UInt8) ∉ c)
    (h0' : (0 : UInt8) ∉ c') : isExpectedCommand (fillCommand c) c' ↔ c' = c := by
  have htake : ∀ {a z : Bytes}, (0 : UInt8) ∉ a → (∀ b ∈ z, b = 0) →
      (a ++ z).takeWhile (· ≠ 0) = a := by
    intro a z ha hz
    rw [List.takeWhile_append_of_pos (Bytes.ne_zero_of_mem ha)]
    cases z with
    | nil => simp
    | cons b z => simp [hz b (by simp)]
  have hfill : (fillCommand c).takeWhile (· ≠ 0) = c :=
    htake h0 fun _ => List.eq_of_mem_replicate
  constructor
  · intro h
    obtain ⟨hpre, hrest⟩ := Bool.and_eq_true_iff.mp h
    have heq := List.take_append_drop c'.length (fillCommand c)
    rw [of_decide_eq_true hpre] at heq
    rw [← hfill, ← heq, htake h0' fun b hb => of_decide_eq_true (List.all_eq_true.mp hrest b hb)]
  · rintro rfl
    simp [isExpectedCommand, fillCommand]

section Replies

variable {seq seq' param : UInt64} {c c' s expectedData : Bytes}

/-- A reply is valid for its own sequence number and command and for no other. -/
theorem responseValidation_append {n : ℕ} (params : Bytes) (hc : c.length ≤ maxCommandLength)
    (hn : simpleMessageNoDataSize + params.length = n) (h0 : (0 : UInt8) ∉ c)
    (h0' : (0 : UInt8) ∉ c') (hs : (0 : UInt8) ∉ s) :
    responseValidation n (fillCommand c ++ (Bytes.be64 seq ++ (params ++ s))) seq' c'
        (fillCommand c ++ (Bytes.be64 seq ++ (params ++ s))).length expectedData = .ok () ↔
      seq' = seq ∧ c' = c ∧ (expectedData = [] ∨ expectedData = s) := by
  have hassoc : fillCommand c ++ (Bytes.be64 seq ++ (params ++ s)) =
      fillCommand c ++ (Bytes.be64 seq ++ params) ++ (s ++ []) := by simp
  have hhead : (fillCommand c ++ (Bytes.be64 seq ++ params)).length = n := by
    rw [length_simple_append hc, hn]
  have hlen : (fillCommand c ++ (Bytes.be64 seq ++ (params ++ s))).length = n + s.length := by
    rw [hassoc, List.length_append, hhead, List.append_nil]
  have hfield : Bytes.field (fillCommand c ++ (Bytes.be64 seq ++ (params ++ s))) n s.length =
      s := by
    rw [hassoc, ← hhead, Bytes.field_append]
  have hstring : Bytes.cString (fillCommand c ++ (Bytes.be64 seq ++ (params ++ s))) n = s := by
    rw [hassoc, ← hhead, Bytes.cString_append _ _ _ hs (Or.inl rfl)]
  rw [responseValidation, hlen, if_neg (by omega), Nat.add_sub_cancel_left, hfield, hstring,
    command_append hc, messageSeq_append hc, isValidData_of_not_mem hs,
    ← isExpectedCommand_fillCommand h0 h0']
  cases isExpectedCommand (fillCommand c) c'
  · simp
  · by_cases hseq : seq = seq'
    · by_cases hdata : expectedData = [] <;> simp [hseq, hdata]
    · simp [hseq, Ne.symm hseq]

theorem simpleMessageValidation_append (hc : c.length ≤ maxCommandLength)
    (h0 : (0 : UInt8) ∉ c) (h0' : (0 : UInt8) ∉ c') (hs : (0 : UInt8) ∉ s) :
    simpleMessageValidation (fillCommand c ++ (Bytes.be64 seq ++ s)) seq' c'
        (fillCommand c ++ (Bytes.be64 seq ++ s)).length expectedData = .ok () ↔
      seq' = seq ∧ c' = c ∧ (expectedData = [] ∨ expectedData = s) := by
  have happ : fillCommand c ++ (Bytes.be64 seq ++ s) =
      fillCommand c ++ (Bytes.be64 seq ++ ([] ++ s)) := rfl
  rw [happ]
  exact responseValidation_append [] hc rfl h0 h0' hs

theorem complexMessageValidation_append (hc : c.length ≤ maxCommandLength)
    (h0 : (0 : UInt8) ∉ c) (h0' : (0 : UInt8) ∉ c') (hs : (0 : UInt8) ∉ s) :
    complexMessageValidation (fillCommand c ++ (Bytes.be64 seq ++ (Bytes.be64 param ++ s))) seq' c'
        (fillCommand c ++ (Bytes.be64 seq ++ (Bytes.be64 param ++ s))).length expectedData =
          .ok () ↔
      seq' = seq ∧ c' = c ∧ (expectedData = [] ∨ expectedData = s) :=
  responseValidation_append _ hc (by rw [Bytes.length_be64]; rfl) h0 h0' hs

end Replies

/-! ## What the server receives -/

theorem validated_of_receive {payload : Bytes} {r : Request}
    (h : receive payload = .ok (some r)) :
    messageValidation (recvfrom payload).1 (recvfrom payload).2 = .ok () ∧
      dispatch (recvfrom payload).1 = some r := by
  rw [receive] at h
  dsimp only at h
  cases hval : messageValidation (recvfrom payload).1 (recvfrom payload).2 with
  | error e =>
    rw [hval] at h
    cases h
  | ok v =>
    rw [hval] at h
    exact ⟨rfl, Except.ok.inj h⟩

theorem le_of_messageValidation {m : Message} {n : ℕ} (h : messageValidation m n = .ok ()) :
    simpleMessageNoDataSize ≤ n := by
  have hle : simpleMessageNoDataSize ≤ complexMessageNoDataSize := by decide
  unfold messageValidation at h
  split_ifs at h <;> omega

/-- No request is shorter than a simple message without data. -/
theorem le_length_of_receive {payload : Bytes} {r : Request}
    (h : receive payload = .ok (some r)) : simpleMessageNoDataSize ≤ payload.length :=
  (le_of_messageValidation (validated_of_receive h).1).trans (Nat.min_le_left _ _)

theorem dispatch_discover {m : Message} {seq : UInt64} (h : dispatch m = some (.discover seq)) :
    seq = m.messageSeq := by
  unfold dispatch at h
  split_ifs at h <;> cases h
  rfl

theorem dispatch_filesList {m : Message} {seq : UInt64} {pattern : Bytes}
    (h : dispatch m = some (.filesList seq pattern)) : seq = m.messageSeq ∧ pattern = m.simpleData := by
  unfold dispatch at h
  split_ifs at h <;> cases h
  exact ⟨rfl, rfl⟩

theorem dispatch_upload {m : Message} {seq n : UInt64} {f : Bytes}
    (h : dispatch m = some (.upload seq f n)) : f = m.complexData := by
  unfold dispatch at h
  split_ifs at h <;> cases h
  rfl

/-- The name in an upload request is a C string that leaves room in a message. -/
theorem filename_of_receive {payload : Bytes} {seq n : UInt64} {f : Bytes}
    (h : receive payload = .ok (some (.upload seq f n))) :
    (0 : UInt8) ∉ f ∧ f.length < maxSimpleDataSize := by
  have hf := dispatch_upload (validated_of_receive h).2
  have hlen := Bytes.length_cString_le (recvfrom payload).1 complexMessageNoDataSize
  have htake : (recvfrom payload).1.length ≤ messageSize := List.length_take_le _ _
  have hsize : messageSize - complexMessageNoDataSize < maxSimpleDataSize := by decide
  rw [hf]
  refine ⟨Bytes.zero_not_mem_cString _ _, ?_⟩
  rw [Message.complexData]
  omega

/-- The server reads an upload request as it was meant. -/
theorem receive_addRequest (seq n : UInt64) {f : Bytes} (h0 : (0 : UInt8) ∉ f)
    (hf : f.length ≤ maxComplexDataSize) :
    ∃ payload, addRequest seq f n = some payload ∧
      receive payload = .ok (some (.upload seq f n)) := by
  have hc : fileAddRequest.length ≤ maxCommandLength := by decide
  refine ⟨_, sendComplex_complexMessage hc seq n h0 hf, ?_⟩
  set m := fillCommand fileAddRequest ++ (Bytes.be64 seq ++ (Bytes.be64 n ++ f))
  have hlen : List.length m = complexMessageNoDataSize + f.length :=
    length_complex_append hc seq n f
  have hrecv : recvfrom m = (m, m.length) := recvfrom_complex_append hc n hf
  have hcmd : Message.command m = fillCommand fileAddRequest := command_append hc _
  have hstr : Message.commandString m = fileAddRequest :=
    commandString_append hc _ (by decide) (by decide)
  have hval : messageValidation m m.length = .ok () := by
    rw [messageValidation, hcmd, if_pos (by decide), if_pos hstr, if_neg (by omega)]
  have hdis : dispatch m = some (.upload seq f n) := by
    rw [dispatch, if_pos hstr, messageSeq_append hc, complexData_append hc h0, param_append hc]
  rw [receive, hrecv]
  simp only [hval, hdis]
  rfl

/-- The datagram of an upload, that ends with its filename, is read as its request. -/
theorem receive_addDatagram (source : SockAddr) (seq n : UInt64) {f : Bytes}
    (h0 : (0 : UInt8) ∉ f) (hf : f.length ≤ maxComplexDataSize) :
    receive (addDatagram source seq f n).payload = .ok (some (.upload seq f n)) := by
  obtain ⟨payload, hp, hr⟩ := receive_addRequest seq n h0 hf
  rw [addRequest, sendComplex_complexMessage (by decide) seq n h0 hf, Option.some.injEq] at hp
  rw [addDatagram, complexMessage, strncpy_of_le h0 hf, hp, hr]

end Netstore
