import Mathlib.Data.List.DropRight
import Netstore.Arrays
import Netstore.Grammar

/-!
# Views of a received message

A datagram is received in an object of zeros, and the object is read through either of two
packed layouts, also through the one that it was not received in. The functions of `Protocol`
that read it are given here again on its arrays, with every index checked (`Checked`).

A datagram leaves the last byte of the object zero, which is in the data of both layouts. So
a string that is read from the data ends there and is of this datagram only, and no
function reads out of its array (`reads_in_bounds`).
-/

namespace Netstore

/-! ## Layouts -/

/-- A member of a message. -/
inductive MessageField where
  | command
  | messageSeq
  | param
  | data
  deriving DecidableEq

/-- The members of a packed structure with their sizes, one after another. -/
abbrev Layout := List (MessageField × ℕ)

namespace Layout

variable (l : Layout)

/-- `sizeof` of a packed structure. -/
def sizeof : ℕ :=
  (l.map Prod.snd).sum

/-- `offsetof` of a member of a packed structure. -/
def offsetof (f : MessageField) : ℕ :=
  sizeof (l.takeWhile fun m => m.1 ≠ f)

/-- The size of a member. -/
def fieldSize (f : MessageField) : ℕ :=
  sizeof (l.filter fun m => m.1 = f)

/-- The bytes of a member in an object. -/
def bytesOf (f : MessageField) (object : Bytes) : Bytes :=
  (object.drop (l.offsetof f)).take (l.fieldSize f)

end Layout

/-- The two structures. -/
inductive View where
  | simple
  | complex
  deriving DecidableEq

namespace View

/-- The members of `SimpleMessage` and `ComplexMessage`, with the byte that ends their data. -/
def layout : View → Layout
  | simple => [(.command, maxCommandLength), (.messageSeq, 8), (.data, maxSimpleDataSize + 1)]
  | complex => [(.command, maxCommandLength), (.messageSeq, 8), (.param, 8),
      (.data, maxComplexDataSize + 1)]

/-- What is in front of the data. -/
def noDataSize : View → ℕ
  | simple => simpleMessageNoDataSize
  | complex => complexMessageNoDataSize

/-- The data member of a message object. -/
def data (v : View) (object : Bytes) : Bytes :=
  v.layout.bytesOf .data object

end View

/-- The object that a datagram is received in. -/
def receivedObject (payload : Bytes) : Bytes :=
  payload.take messageSize ++ (List.replicate messageSize 0).drop payload.length

/-! ## Checked reads -/

namespace Checked

/-- `for (uint64_t i = 1; i < length; i++)` from the index `i` on, `n` times. -/
def validFrom (data : Bytes) (i : ℕ) : ℕ → Option Bool
  | 0 => some true
  | n + 1 => data[i]?.bind fun b =>
    if b ≠ 0 then
      data[i - 1]?.bind fun a => if a = 0 then some false else validFrom data (i + 1) n
    else validFrom data (i + 1) n

/-- `is_valid_data`, or nothing if it would read outside. -/
def isValidData (data : Bytes) (length : ℕ) : Option Bool :=
  validFrom data 1 (length - 1)

/-- The loop over the expected command, then the one over the zeros after it. -/
def expectedFrom (command : Bytes) (i : ℕ) : Bytes → Option Bool
  | [] => CArray.allFrom (· = 0) command i (maxCommandLength - i)
  | c :: expected => command[i]?.bind fun b =>
    if b ≠ c then some false else expectedFrom command (i + 1) expected

/-- `is_expected_command`, or nothing if it would read outside. -/
def isExpectedCommand (command expectedCommand : Bytes) : Option Bool :=
  expectedFrom command 0 expectedCommand

/-- `while (i < length && str[i] != '\0')`, with `n` bytes left. -/
def skipString (str : Bytes) (i : ℕ) : ℕ → Option ℕ
  | 0 => some i
  | n + 1 => str[i]?.bind fun b => if b ≠ 0 then skipString str (i + 1) n else some i

/-- `is_valid_string`, or nothing if it would read outside. -/
def isValidString (str : Bytes) (length : ℕ) : Option Bool :=
  (skipString str 0 length).bind fun i =>
    (CArray.allFrom (· = 0) str i (length - i)).bind fun zeros =>
      if zeros then str[length - 1]?.map (· = 0) else some false

/-- The client's validation on an object. -/
def responseValidation (v : View) (object : Bytes) (expectedMessageSeq : UInt64)
    (expectedCommand : Bytes) (messageSize : ℕ) (expectedData : Bytes) :
    Option (Except String Unit) :=
  if messageSize < v.noDataSize then some (.error "message too small")
  else
    (isExpectedCommand (v.layout.bytesOf .command object) expectedCommand).bind fun isExpected =>
      if !isExpected then some (.error "invalid command")
      else if Bytes.be64toh (v.layout.bytesOf .messageSeq object) ≠ expectedMessageSeq then
        some (.error "invalid message seq")
      else
        (isValidData (v.data object) (messageSize - v.noDataSize)).bind fun isValid =>
          if !isValid then some (.error "invalid message data")
          else if expectedData.isEmpty then some (.ok ())
          else
            (CArray.readString (v.data object)).map fun s =>
              if expectedData ≠ s then .error "unexpected data received" else .ok ()

/-- The server's choice of a handler. An upload is read through the complex view, and what
remains through the simple one. -/
def dispatch (object : Bytes) : Option (Option Request) :=
  let messageSeq (v : View) := Bytes.be64toh (v.layout.bytesOf .messageSeq object)
  (CArray.readString (View.complex.layout.bytesOf .command object)).bind fun command =>
    if command = fileAddRequest then
      (CArray.readString (View.complex.data object)).map fun data =>
        some (.upload (messageSeq .complex) data
          (Bytes.be64toh (View.complex.layout.bytesOf .param object)))
    else
      (CArray.readString (View.simple.layout.bytesOf .command object)).bind fun command =>
        if command = discoverRequest then some (some (.discover (messageSeq .simple)))
        else if command = filesListRequest then
          (CArray.readString (View.simple.data object)).map fun data =>
            some (.filesList (messageSeq .simple) data)
        else if command = fileGetRequest then
          (CArray.readString (View.simple.data object)).map fun data =>
            some (.file (messageSeq .simple) data)
        else if command = fileRemoveRequest then
          (CArray.readString (View.simple.data object)).map fun data => some (.remove data)
        else some none

end Checked

/-! ## The loops -/

section Loops

variable {a : Bytes} {i n : ℕ}

theorem take_cons_of_lt (hi : i < a.length) :
    (a.drop i).take (n + 1) = a[i] :: (a.drop (i + 1)).take n := by
  rw [List.drop_eq_getElem_cons hi, List.take_succ_cons]

theorem validFrom_eq (h : i + 1 + n ≤ a.length) :
    Checked.validFrom a (i + 1) n = some (isValidData ((a.drop i).take (n + 1))) := by
  induction n generalizing i with
  | zero =>
    rw [take_cons_of_lt (by omega), List.take_zero]
    rfl
  | succ n ih =>
    have hi : i + 1 < a.length := by omega
    have hdata : (a.drop i).take (n + 1 + 1) = a[i] :: a[i + 1] :: (a.drop (i + 1 + 1)).take n := by
      rw [take_cons_of_lt (Nat.lt_of_succ_lt hi), take_cons_of_lt hi]
    rw [Checked.validFrom, List.getElem?_eq_getElem hi, Option.bind_some, Nat.add_sub_cancel,
      List.getElem?_eq_getElem (Nat.lt_of_succ_lt hi), Option.bind_some, ih (by omega), hdata,
      isValidData, take_cons_of_lt hi]
    by_cases hb : a[i + 1] = 0
    · simp [hb]
    · by_cases ha : a[i] = 0 <;> simp [hb, ha]

theorem checkedIsValidData_eq (h : n ≤ a.length) :
    Checked.isValidData a n = some (isValidData (a.take n)) := by
  rw [Checked.isValidData]
  cases n with
  | zero => rfl
  | succ n =>
    have h0 := @validFrom_eq a 0 n (by omega)
    rwa [List.drop_zero] at h0

theorem expectedFrom_eq {expected : Bytes} (ha : a.length = maxCommandLength)
    (h : i + expected.length ≤ maxCommandLength) :
    Checked.expectedFrom a i expected = some (isExpectedCommand (a.drop i) expected) := by
  induction expected generalizing i with
  | nil =>
    rw [List.length_nil] at h
    rw [Checked.expectedFrom, CArray.allFrom_eq _ (by omega), List.take_of_length_le]
    · simp [isExpectedCommand]
    · rw [List.length_drop, ha]
  | cons c expected ih =>
    rw [List.length_cons] at h
    have hi : i < a.length := by omega
    rw [Checked.expectedFrom, List.getElem?_eq_getElem hi, Option.bind_some, ih (by omega),
      isExpectedCommand, isExpectedCommand, List.drop_eq_getElem_cons hi, List.length_cons,
      List.take_succ_cons, List.drop_succ_cons]
    by_cases hc : a[i] = c <;> simp [hc]

theorem skipString_eq (h : i + n ≤ a.length) :
    Checked.skipString a i n =
      some (i + (((a.drop i).take n).takeWhile (· ≠ 0)).length) := by
  induction n generalizing i with
  | zero => simp [Checked.skipString]
  | succ n ih =>
    have hi : i < a.length := by omega
    rw [Checked.skipString, List.getElem?_eq_getElem hi, Option.bind_some, ih (by omega),
      take_cons_of_lt hi]
    by_cases hb : a[i] = 0
    · simp [hb]
    · simp [hb]
      omega

/-- Every string of some length is tested in bounds. -/
theorem checkedIsValidString_eq (hpos : 0 < a.length) :
    Checked.isValidString a a.length = some (isValidString a) := by
  set str := a.takeWhile (· ≠ 0)
  have hle : str.length ≤ a.length := (List.takeWhile_prefix _).length_le
  have hskip : Checked.skipString a 0 a.length = some str.length := by
    rw [skipString_eq (by omega), List.drop_zero, List.take_length, Nat.zero_add]
  have hrest : a.drop str.length = a.dropWhile (· ≠ 0) := by
    nth_rewrite 1 [← List.takeWhile_append_dropWhile (p := (· ≠ 0)) (l := a)]
    exact List.drop_left
  have hlast : a[a.length - 1]? = a.getLast? := List.getLast?_eq_getElem?.symm
  rw [Checked.isValidString, hskip, Option.bind_some, CArray.allFrom_eq _ (by omega),
    Option.bind_some, List.take_of_length_le (by rw [List.length_drop]), hrest, isValidString,
    hlast]
  have hsome : a.getLast? = some (a.getLast (List.length_pos_iff.mp hpos)) :=
    List.getLast?_eq_some_getLast _
  rw [hsome]
  cases (a.dropWhile (· ≠ 0)).all (· = 0) <;> simp

/-- A valid string ends in its array. -/
theorem readString_of_isValidString (h : isValidString a) :
    CArray.readString a = some (a.takeWhile (· ≠ 0)) := by
  rw [CArray.readString_eq, if_pos]
  rw [isValidString, Bool.and_eq_true, decide_eq_true_eq] at h
  exact List.mem_of_getLast? h.2

/-- Zeros after a string are no part of it. -/
theorem rdropWhile_append_replicate {s : Bytes} (h0 : (0 : UInt8) ∉ s) (zeros : ℕ) :
    (s ++ List.replicate zeros 0).rdropWhile (· = 0) = s := by
  induction zeros with
  | zero =>
    rw [List.replicate_zero, List.append_nil, List.rdropWhile_eq_self_iff]
    exact fun hne h => h0 (of_decide_eq_true h ▸ List.getLast_mem hne)
  | succ zeros ih =>
    rw [List.replicate_succ', ← List.append_assoc, List.rdropWhile_concat_pos _ _ _ (by simp), ih]

end Loops

/-! ## The object -/

theorem length_receivedObject (payload : Bytes) :
    (receivedObject payload).length = messageSize := by
  rw [receivedObject, List.length_append, List.length_take, List.length_drop, List.length_replicate]
  omega

/-- A datagram leaves the end of the object zero. -/
theorem receivedObject_eq {payload : Bytes} (hp : payload.length ≤ messageSize) :
    receivedObject payload = payload ++ List.replicate (messageSize - payload.length) 0 := by
  rw [receivedObject, List.take_of_length_le hp, List.drop_replicate]

/-- Fields are read from the object as from the zero-filled memory. -/
theorem field_receivedObject {payload : Bytes} {off len : ℕ} (hp : payload.length ≤ messageSize)
    (hlen : off + len ≤ messageSize) :
    ((receivedObject payload).drop off).take len = Bytes.field payload off len := by
  rw [receivedObject_eq hp, List.drop_append, List.drop_replicate, Bytes.field, List.take_append,
    List.take_append, List.take_replicate, List.take_replicate, List.length_drop]
  congr 2
  omega

namespace View

variable (v : View)

theorem offsetof_command : v.layout.offsetof .command = 0 := by
  cases v <;> rfl

theorem offsetof_messageSeq : v.layout.offsetof .messageSeq = maxCommandLength := by
  cases v <;> rfl

theorem offsetof_data : v.layout.offsetof .data = v.noDataSize := by
  cases v <;> rfl

/-- The data is the last member. -/
theorem noDataSize_add_fieldSize : v.noDataSize + v.layout.fieldSize .data = messageSize := by
  cases v <;> rfl

theorem sizeof_layout : v.layout.sizeof = messageSize := by
  cases v <;> rfl

theorem noDataSize_lt : v.noDataSize < messageSize := by
  cases v <;> decide

/-- The data array is the rest of the object. -/
theorem data_eq_drop {object : Bytes} (h : object.length = messageSize) :
    v.data object = object.drop v.noDataSize := by
  have hsize := v.noDataSize_add_fieldSize
  rw [data, Layout.bytesOf, offsetof_data, List.take_of_length_le]
  rw [List.length_drop]
  omega

/-- The largest datagram ends before the object does, so a zero ends the data. -/
theorem data_receivedObject {payload : Bytes} (hp : payload.length ≤ maxDatagramSize) :
    ∃ zeros, v.data (receivedObject payload) =
      payload.drop v.noDataSize ++ List.replicate (zeros + 1) 0 := by
  have hmax : maxDatagramSize < messageSize := by decide
  have hlt := v.noDataSize_lt
  refine ⟨messageSize - payload.length - (v.noDataSize - payload.length) - 1, ?_⟩
  rw [v.data_eq_drop (length_receivedObject payload), receivedObject_eq (by omega),
    List.drop_append, List.drop_replicate, Nat.sub_add_cancel (by omega)]

theorem zero_mem_data {payload : Bytes} (hp : payload.length ≤ maxDatagramSize) :
    (0 : UInt8) ∈ v.data (receivedObject payload) := by
  obtain ⟨zeros, hdata⟩ := v.data_receivedObject hp
  rw [hdata, List.replicate_succ]
  simp

/-- The string in the data array is the one of the zero-filled memory. -/
theorem readString_data {payload : Bytes} (hp : payload.length ≤ maxDatagramSize) :
    CArray.readString (v.data (receivedObject payload)) =
      some (Bytes.cString payload v.noDataSize) := by
  obtain ⟨zeros, hdata⟩ := v.data_receivedObject hp
  rw [CArray.readString_eq, if_pos (v.zero_mem_data hp), hdata, Bytes.cString]
  congr 1
  rw [List.takeWhile_append]
  split_ifs with h
  · rw [List.replicate_succ, List.takeWhile_cons_of_neg (by simp), List.append_nil]
    exact ((List.takeWhile_prefix _).eq_of_length h).symm
  · rfl

theorem bytesOf_command {payload : Bytes} (hp : payload.length ≤ maxDatagramSize) :
    v.layout.bytesOf .command (receivedObject payload) = Message.command payload := by
  have hsize : v.layout.fieldSize .command = maxCommandLength := by cases v <;> rfl
  rw [Layout.bytesOf, offsetof_command, hsize,
    field_receivedObject (hp.trans (by decide)) (by decide), Message.command]

theorem be64toh_bytesOf_messageSeq {payload : Bytes} (hp : payload.length ≤ maxDatagramSize) :
    Bytes.be64toh (v.layout.bytesOf .messageSeq (receivedObject payload)) =
      Message.messageSeq payload := by
  have hsize : v.layout.fieldSize .messageSeq = 8 := by cases v <;> rfl
  rw [Layout.bytesOf, offsetof_messageSeq, hsize,
    field_receivedObject (hp.trans (by decide)) (by decide), Message.messageSeq]

theorem be64toh_bytesOf_param {payload : Bytes} (hp : payload.length ≤ maxDatagramSize) :
    Bytes.be64toh (complex.layout.bytesOf .param (receivedObject payload)) =
      Message.param payload := by
  have hoff : complex.layout.offsetof .param = simpleMessageNoDataSize := rfl
  have hsize : complex.layout.fieldSize .param = 8 := rfl
  rw [Layout.bytesOf, hoff, hsize, field_receivedObject (hp.trans (by decide)) (by decide),
    Message.param]

end View

/-! ## Reads of a datagram -/

section Reads

variable {payload : Bytes} (hp : payload.length ≤ maxDatagramSize)

include hp

theorem recvfrom_of_le_maxDatagramSize : recvfrom payload = (payload, payload.length) :=
  recvfrom_of_le (hp.trans (by decide))

/-- The command is compared in bounds. -/
theorem checkedIsExpectedCommand_eq (v : View) {c : Bytes} (hc : c.length ≤ maxCommandLength) :
    Checked.isExpectedCommand (v.layout.bytesOf .command (receivedObject payload)) c =
      some (isExpectedCommand (Message.command payload) c) := by
  rw [v.bytesOf_command hp]
  exact expectedFrom_eq (Bytes.length_field ..) (by omega)

/-- The client's validation reads in bounds and is the one of `Protocol`. -/
theorem checkedResponseValidation_eq (v : View) (seq : UInt64) {c : Bytes} (expectedData : Bytes)
    (hc : c.length ≤ maxCommandLength) :
    Checked.responseValidation v (receivedObject payload) seq c payload.length expectedData =
      some (responseValidation v.noDataSize payload seq c payload.length expectedData) := by
  have hmax : maxDatagramSize < messageSize := by decide
  have hlt := v.noDataSize_lt
  have hlength : (v.data (receivedObject payload)).length = messageSize - v.noDataSize := by
    rw [v.data_eq_drop (length_receivedObject payload), List.length_drop, length_receivedObject]
  have hfield : (v.data (receivedObject payload)).take (payload.length - v.noDataSize) =
      Bytes.field payload v.noDataSize (payload.length - v.noDataSize) := by
    rw [v.data_eq_drop (length_receivedObject payload),
      field_receivedObject (by omega) (by omega)]
  have hvalid : Checked.isValidData (v.data (receivedObject payload))
      (payload.length - v.noDataSize) = some (isValidData (Bytes.field payload v.noDataSize
        (payload.length - v.noDataSize))) := by
    rw [checkedIsValidData_eq (by omega), hfield]
  rw [Checked.responseValidation, responseValidation, checkedIsExpectedCommand_eq hp v hc,
    v.be64toh_bytesOf_messageSeq hp, hvalid, v.readString_data hp]
  simp only [Option.bind_some, Option.map_some, apply_ite some]
  cases expectedData.isEmpty <;> simp

/-- What is read after a validation is the datagram's data without its last zeros. -/
theorem cString_of_responseValidation {v : View} {seq : UInt64} {c expectedData : Bytes}
    (hc : c.length ≤ maxCommandLength)
    (h : responseValidation v.noDataSize payload seq c payload.length expectedData = .ok ()) :
    Bytes.cString payload v.noDataSize = (payload.drop v.noDataSize).rdropWhile (· = 0) := by
  obtain ⟨n, hn⟩ : ∃ n, v.noDataSize = simpleMessageNoDataSize + n :=
    Nat.exists_eq_add_of_le (by cases v <;> decide)
  have hreply := @responseValidation_eq_ok_iff n payload seq c expectedData hp hc
  rw [recvfrom_of_le_maxDatagramSize hp, ← hn] at hreply
  obtain ⟨params, s, zeros, rfl, hparams, h0, -⟩ := hreply.mp h
  have hhead : (fillCommand c ++ (Bytes.be64 seq ++ params)).length = v.noDataSize := by
    rw [length_simple_append hc, hparams, hn]
  have hdrop : (fillCommand c ++ (Bytes.be64 seq ++ (params ++
      (s ++ List.replicate zeros 0)))).drop v.noDataSize = s ++ List.replicate zeros 0 := by
    have hleft := @List.drop_left _ (fillCommand c ++ (Bytes.be64 seq ++ params))
      (s ++ List.replicate zeros 0)
    rw [hhead] at hleft
    simpa only [List.append_assoc] using hleft
  rw [hdrop, rdropWhile_append_replicate h0, hn, cString_reply hc hparams h0]

/-- After the server's validation the choice of a handler reads in bounds too. -/
theorem checkedDispatch_eq (h : isValidString (Message.command payload)) :
    Checked.dispatch (receivedObject payload) = some (dispatch payload) := by
  have hcommand : CArray.readString (Message.command payload) =
      some (Message.commandString payload) := readString_of_isValidString h
  rw [Checked.dispatch]
  simp only [View.bytesOf_command _ hp, hcommand, View.readString_data _ hp,
    View.be64toh_bytesOf_messageSeq _ hp, View.be64toh_bytesOf_param hp, Option.bind_some,
    Option.map_some]
  rw [dispatch]
  split_ifs <;> rfl

end Reads

/-! ## Both ends -/

/-- The commands that the client waits for. -/
def expectedCommands : List Bytes :=
  [discoverResponse, filesListResponse, fileGetResponse, fileAddAcceptance, fileAddRefusal]

/-- Both structures begin alike in the same bytes. -/
structure View.IsLaidOut (v : View) : Prop where
  sizeof_eq : v.layout.sizeof = 65508
  command_eq : v.layout.offsetof .command = 0
  messageSeq_eq : v.layout.offsetof .messageSeq = 10
  data_eq : v.layout.offsetof .data = v.noDataSize

/-- The client's reads of a datagram through a view : the string in the data ends in its array
and is of the datagram, a comparison of the command and the validation stay in the arrays, and
after it the string is all of the datagram's data but its last zeros. -/
structure ReadByClient (payload : Bytes) (v : View) : Prop where
  zero_mem : (0 : UInt8) ∈ v.data (receivedObject payload)
  string : ∃ s, CArray.readString (v.data (receivedObject payload)) = some s ∧
    s <+: payload.drop v.noDataSize
  expected : ∀ c, c.length ≤ maxCommandLength →
    Checked.isExpectedCommand (v.layout.bytesOf .command (receivedObject payload)) c =
      some (isExpectedCommand (recvfrom payload).1.command c)
  validation : ∀ seq c expectedData, c.length ≤ maxCommandLength →
    Checked.responseValidation v (receivedObject payload) seq c (recvfrom payload).2 expectedData =
      some (responseValidation v.noDataSize (recvfrom payload).1 seq c (recvfrom payload).2
        expectedData)
  validated : ∀ seq c expectedData, c.length ≤ maxCommandLength →
    Checked.responseValidation v (receivedObject payload) seq c (recvfrom payload).2 expectedData =
      some (.ok ()) →
    CArray.readString (v.data (receivedObject payload)) =
      some ((payload.drop v.noDataSize).rdropWhile (· = 0))

/-- The server's reads of a datagram : the command, and after its validation what the handler
needs, through the view of the command. -/
structure ReadByServer (payload : Bytes) : Prop where
  valid_string : Checked.isValidString
      (View.complex.layout.bytesOf .command (receivedObject payload)) maxCommandLength =
    some (isValidString (recvfrom payload).1.command)
  command : isValidString (recvfrom payload).1.command →
    CArray.readString (View.complex.layout.bytesOf .command (receivedObject payload)) =
      some (recvfrom payload).1.commandString
  dispatch : messageValidation (recvfrom payload).1 (recvfrom payload).2 = .ok () →
    Checked.dispatch (receivedObject payload) = some (dispatch (recvfrom payload).1)

theorem View.isLaidOut (v : View) : v.IsLaidOut where
  sizeof_eq := v.sizeof_layout
  command_eq := v.offsetof_command
  messageSeq_eq := v.offsetof_messageSeq
  data_eq := v.offsetof_data

theorem isValidString_of_messageValidation {m : Message} {n : ℕ}
    (h : messageValidation m n = .ok ()) : isValidString m.command := by
  rw [messageValidation] at h
  by_contra hs
  rw [if_neg hs] at h
  cases h

section Received

variable {payload : Bytes} (hp : payload.length ≤ maxDatagramSize)

include hp

theorem readByClient (v : View) : ReadByClient payload v := by
  have hrecv := recvfrom_of_le_maxDatagramSize hp
  refine ⟨v.zero_mem_data hp, ⟨_, v.readString_data hp, List.takeWhile_prefix _⟩, ?_, ?_, ?_⟩
  · intro c hc
    rw [hrecv]
    exact checkedIsExpectedCommand_eq hp v hc
  · intro seq c expectedData hc
    rw [hrecv]
    exact checkedResponseValidation_eq hp v seq expectedData hc
  · intro seq c expectedData hc h
    rw [hrecv] at h
    rw [checkedResponseValidation_eq hp v seq expectedData hc] at h
    rw [v.readString_data hp, cString_of_responseValidation hp hc (Option.some.inj h)]

theorem readByServer : ReadByServer payload := by
  have hrecv := recvfrom_of_le_maxDatagramSize hp
  have hlength : (Message.command payload).length = maxCommandLength := Bytes.length_field ..
  constructor
  · rw [hrecv, View.bytesOf_command _ hp, ← hlength]
    exact checkedIsValidString_eq (by rw [hlength]; decide)
  · rw [hrecv, View.bytesOf_command _ hp]
    exact readString_of_isValidString
  · rw [hrecv]
    exact fun h => checkedDispatch_eq hp (isValidString_of_messageValidation h)

/-- Every read of a received datagram is in bounds, in both views. -/
theorem reads_in_bounds :
    (∀ v : View, v.IsLaidOut) ∧ (∀ c ∈ expectedCommands, c.length ≤ maxCommandLength) ∧
      (∀ v : View, ReadByClient payload v) ∧ ReadByServer payload :=
  ⟨View.isLaidOut, by decide, readByClient hp, readByServer hp⟩

end Received

theorem oneName_reads_in_bounds :
    (∀ v : View, v.IsLaidOut) ∧ (∀ c ∈ expectedCommands, c.length ≤ maxCommandLength) ∧
      (∀ v : View, ReadByClient (simpleMessage 1 filesListResponse [97]) v) ∧
        ReadByServer (simpleMessage 1 filesListResponse [97]) :=
  reads_in_bounds (by decide)

end Netstore
