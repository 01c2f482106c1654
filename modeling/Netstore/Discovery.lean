import Netstore.ClientUpload

/-!
# The servers a client finds

`Client::upload` asks the servers that answer its discovery, one after another, until one
accepts. A server is known by its announced space and by a pointer to its address, and
every such pointer is the one that `inet_ntoa` returns : to a static buffer that each call
writes again. `UploadCommand.upload` takes the datagrams that the client receives, in
the discovery and after each request, and gives its requests and its connection with the
addresses that are in the buffer when they are read.

A request reads the sender of the last datagram noted before it (`contact_mem`). So each
server is asked at its own address exactly if its answer, or something else it sent, was
the last (`ownAddresses_iff`). The client asks anyone only if the first server has room
(`usesServers_iff`); nothing sorts the list.
-/

namespace Netstore

/-! ## The static buffer -/

/-- What the address of a server points to. -/
inductive Pointer where
  | inetNtoaBuffer
  deriving DecidableEq

/-- The address that is written in the buffer of `inet_ntoa`. -/
structure Static where
  inetNtoaBuffer : UInt32

/-- The address that the pointer leads to now. -/
def Static.read (m : Static) : Pointer → UInt32
  | .inetNtoaBuffer => m.inetNtoaBuffer

/-- `inet_ntoa` : the text goes into the one buffer, and the result points to it. -/
def inetNtoa (sinAddr : UInt32) : Pointer × Static :=
  (.inetNtoaBuffer, ⟨sinAddr⟩)

/-- The address and the port are copied for the log; the buffer is written. -/
def unpackSockaddr (address : SockAddr) : Static :=
  (inetNtoa address.sinAddr).2

/-! ## Discovery -/

/-- `ServerData` : what the client keeps of a server's answer. -/
structure ServerData where
  ipAddr : Pointer
  availableSpace : UInt64

/-- The loop on one datagram. -/
def discoverDatagram (expectedMessageSeq : UInt64) (p : Static × List ServerData) (d : Datagram) :
    Static × List ServerData :=
  let (message, messageLength) := recvfrom d.payload
  let m := unpackSockaddr d.source
  match complexMessageValidation message expectedMessageSeq discoverResponse messageLength [] with
  | .ok _ =>
    let (ipAddr, m) := inetNtoa d.source.sinAddr
    (m, p.2 ++ [⟨ipAddr, message.param⟩])
  | .error _ => (m, p.2)

/-- The servers that have answered by the end of the timeout. -/
def silentDiscoverReceive (expectedMessageSeq : UInt64) (m : Static) (received : List Datagram) :
    Static × List ServerData :=
  received.foldl (discoverDatagram expectedMessageSeq) (m, [])

/-! ## Upload -/

/-- Wait for an answer : the port, and whether it accepts. -/
def awaitUploadFileResponse (expectedMessageSeq : UInt64) (expectedFilename : Bytes) (m : Static) :
    List Datagram → Static × UInt16 × Bool
  | [] => (m, 0, false)
  | d :: received =>
    match receiveUploadFileResponse expectedMessageSeq expectedFilename d.payload with
    | some answer => (m, answer)
    | none =>
      awaitUploadFileResponse expectedMessageSeq expectedFilename (unpackSockaddr d.source) received

/-- What happens to one request : whether the send succeeds, and the datagrams that the
client receives until it has an answer or gives up. -/
structure Attempt where
  messageSeq : UInt64
  sent : Bool
  received : List Datagram

/-- A client that uploads a file which exists, and what happens to it. -/
structure UploadCommand where
  filename : Bytes
  fileSize : UInt64
  discoverSeq : UInt64
  /-- The socket of the discovery is created and the request is sent. -/
  discoverSent : Bool
  /-- The datagrams received in the discovery. -/
  heard : List Datagram
  /-- The socket of the requests is created. -/
  socketCreated : Bool
  attempt : ℕ → Attempt

/-- A use of the address of the server with the index. -/
inductive Contact where
  | request (server : ℕ) (address : UInt32) (sent : Bool)
  | connection (server : ℕ) (address : UInt32) (port : UInt16)
  deriving DecidableEq

namespace Contact

/-- The place of the server in the list of those that are asked. -/
def server : Contact → ℕ
  | request i _ _ | connection i _ _ => i

/-- The address that is contacted. -/
def address : Contact → UInt32
  | request _ a _ | connection _ a _ => a

end Contact

/-- How the command ends, but for the transfer. -/
inductive UploadEnd where
  | approved
  | tooBig
  | noSocket
  deriving DecidableEq

/-- Only the first server is looked at. -/
def atLeastOneServerHasSpace (servers : List ServerData) (spaceRequired : UInt64) : Bool :=
  match servers with
  | [] => false
  | server :: _ => server.availableSpace ≥ spaceRequired

/-- The space that an answer announces. -/
def Datagram.announcedSpace (d : Datagram) : UInt64 :=
  (recvfrom d.payload).1.param

namespace UploadCommand

variable (c : UploadCommand)

/-- `Client::silent_discover`. A request that cannot be sent finds nobody. -/
def silentDiscover (m : Static) : Static × List ServerData :=
  if c.discoverSent then silentDiscoverReceive c.discoverSeq m c.heard else (m, [])

/-- Ask the servers from an index on, in order, until one accepts. -/
def askServers (m : Static) (i : ℕ) : List ServerData → List Contact × Bool
  | [] => ([], false)
  | server :: servers =>
    let a := c.attempt i
    let request := Contact.request i (m.read server.ipAddr) a.sent
    let (m, port, isApproval) :=
      if a.sent then awaitUploadFileResponse a.messageSeq c.filename m a.received else (m, 0, false)
    if isApproval then ([request, .connection i (m.read server.ipAddr) port], true)
    else
      let (contacts, isApproval) := askServers m (i + 1) servers
      (request :: contacts, isApproval)

/-- What the client contacts, in order, and how it ends. -/
def upload (m : Static) : List Contact × UploadEnd :=
  let (m, servers) := c.silentDiscover m
  if atLeastOneServerHasSpace servers c.fileSize then
    if c.socketCreated then
      let (contacts, isApproval) := c.askServers m 0 servers
      (contacts, if isApproval then .approved else .tooBig)
    else ([], .noSocket)
  else ([], .tooBig)

/-! ## What is received -/

/-- The datagram answers the discovery. -/
def isGoodDay (d : Datagram) : Bool :=
  (complexMessageValidation (recvfrom d.payload).1 c.discoverSeq discoverResponse
    (recvfrom d.payload).2 []).isOk

/-- What the discovery hears. -/
def discovered : List Datagram :=
  if c.discoverSent then c.heard else []

/-- The answers to the discovery, in order. -/
def goodDays : List Datagram :=
  c.discovered.filter c.isGoodDay

/-- What a datagram answers to the request with the index, if it does. -/
def answer (i : ℕ) (d : Datagram) : Option (UInt16 × Bool) :=
  receiveUploadFileResponse (c.attempt i).messageSeq c.filename d.payload

/-- The first answer to the request with the index. -/
def firstAnswer (i : ℕ) : Option (UInt16 × Bool) :=
  if (c.attempt i).sent then (c.attempt i).received.findSome? (c.answer i) else none

/-- The first answer to the request accepts. -/
def approved (i : ℕ) : Bool :=
  match c.firstAnswer i with
  | some (_, isApproval) => isApproval
  | none => false

/-- The datagrams that are skipped before the first answer. -/
def skipped (i : ℕ) : List Datagram :=
  if (c.attempt i).sent then (c.attempt i).received.takeWhile fun d => (c.answer i d).isNone else []

/-- The datagrams whose senders are noted before the request with the index. -/
def noted : ℕ → List Datagram
  | 0 => c.discovered
  | i + 1 => noted i ++ c.skipped i

/-- The last of the datagrams has the sender of `d`. -/
def LastFrom (received : List Datagram) (d : Datagram) : Prop :=
  received.getLast?.map (·.source.sinAddr) = some d.source.sinAddr

instance (received : List Datagram) (d : Datagram) : Decidable (LastFrom received d) :=
  inferInstanceAs (Decidable (_ = _))

/-- The port of the first answer. -/
def port (i : ℕ) : UInt16 :=
  ((c.firstAnswer i).getD (0, false)).1

/-- The first answer announces enough space. -/
def FirstHasRoom : Prop :=
  ∃ d, c.goodDays.head? = some d ∧ d.announcedSpace ≥ c.fileSize

/-- The server with the index is contacted. -/
structure Contacts (i : ℕ) : Prop where
  room : c.FirstHasRoom
  socketCreated : c.socketCreated
  lt : i < c.goodDays.length
  not_approved : ∀ j < i, c.approved j = false

end UploadCommand

/-- The buffer after the senders of the datagrams are noted. -/
def Static.after (m : Static) (received : List Datagram) : Static :=
  received.foldl (fun _ d => unpackSockaddr d.source) m

theorem Static.after_append (m : Static) (received received' : List Datagram) :
    m.after (received ++ received') = (m.after received).after received' :=
  List.foldl_append

theorem Static.after_concat (m : Static) (received : List Datagram) (d : Datagram) :
    m.after (received ++ [d]) = ⟨d.source.sinAddr⟩ :=
  m.after_append received [d]

/-- The buffer has the sender of the last datagram. -/
theorem Static.inetNtoaBuffer_after (m : Static) {received : List Datagram} (hne : received ≠ [])
    (d : Datagram) :
    (m.after received).inetNtoaBuffer = d.source.sinAddr ↔ UploadCommand.LastFrom received d := by
  obtain ⟨received, e, rfl⟩ := received.eq_nil_or_concat'.resolve_left hne
  rw [Static.after_concat, UploadCommand.LastFrom, List.getLast?_concat, Option.map_some,
    Option.some.injEq]

theorem Static.read_eq (m : Static) (p : Pointer) : m.read p = m.inetNtoaBuffer := by
  cases p
  rfl

namespace UploadCommand

/-! ## What is contacted -/

section Contacted

variable (c : UploadCommand) (m : Static)

theorem discoverDatagram_eq (p : Static × List ServerData) (d : Datagram) :
    discoverDatagram c.discoverSeq p d = (unpackSockaddr d.source,
      if c.isGoodDay d then p.2 ++ [⟨.inetNtoaBuffer, d.announcedSpace⟩] else p.2) := by
  unfold discoverDatagram isGoodDay
  dsimp only
  rcases complexMessageValidation (recvfrom d.payload).1 c.discoverSeq discoverResponse
    (recvfrom d.payload).2 [] with _ | _ <;> rfl

theorem foldl_discoverDatagram (p : Static × List ServerData) (received : List Datagram) :
    received.foldl (discoverDatagram c.discoverSeq) p = (p.1.after received,
      p.2 ++ (received.filter c.isGoodDay).map fun d => ⟨.inetNtoaBuffer, d.announcedSpace⟩) := by
  induction received generalizing p with
  | nil => simp [Static.after]
  | cons d received ih =>
    rw [List.foldl_cons, ih, discoverDatagram_eq]
    by_cases hd : c.isGoodDay d
    · simp [hd, Static.after]
    · simp [hd, Static.after]

/-- The list has the answers in the order they came, and each points to the buffer. -/
theorem silentDiscover_eq : c.silentDiscover m =
    (m.after c.discovered, c.goodDays.map fun d => ⟨.inetNtoaBuffer, d.announcedSpace⟩) := by
  unfold silentDiscover goodDays discovered
  split_ifs
  · rw [silentDiscoverReceive, foldl_discoverDatagram, List.nil_append]
  · rfl

theorem awaitUploadFileResponse_eq (i : ℕ) (received : List Datagram) :
    awaitUploadFileResponse (c.attempt i).messageSeq c.filename m received =
      (m.after (received.takeWhile fun d => (c.answer i d).isNone),
        (received.findSome? (c.answer i)).getD (0, false)) := by
  induction received generalizing m with
  | nil => rfl
  | cons d received ih =>
    rw [awaitUploadFileResponse, List.takeWhile_cons, List.findSome?_cons, ← answer]
    cases c.answer i d with
    | none => exact ih _
    | some answer => rfl

theorem askServers_cons (i : ℕ) (server : ServerData) (servers : List ServerData) :
    c.askServers m i (server :: servers) =
      if c.approved i then
        ([.request i m.inetNtoaBuffer (c.attempt i).sent,
          .connection i (m.after (c.skipped i)).inetNtoaBuffer (c.port i)], true)
      else (.request i m.inetNtoaBuffer (c.attempt i).sent ::
        (c.askServers (m.after (c.skipped i)) (i + 1) servers).1,
          (c.askServers (m.after (c.skipped i)) (i + 1) servers).2) := by
  have hwait : (if (c.attempt i).sent then
      awaitUploadFileResponse (c.attempt i).messageSeq c.filename m (c.attempt i).received
        else (m, 0, false)) =
      (m.after (c.skipped i), c.port i, c.approved i) := by
    unfold skipped port approved firstAnswer
    split_ifs
    · rw [awaitUploadFileResponse_eq]
      cases (c.attempt i).received.findSome? (c.answer i) <;> rfl
    · rfl
  rw [askServers]
  simp only [hwait, Static.read_eq]

variable {c m}

/-- A server is asked if none before it accepts, and connected to if it does. -/
theorem mem_askServers {contact : Contact} (i : ℕ) (servers : List ServerData) :
    contact ∈ (c.askServers (m.after (c.noted i)) i servers).1 ↔
      ∃ j, i ≤ j ∧ j < i + servers.length ∧ (∀ k, i ≤ k → k < j → c.approved k = false) ∧
        (contact = .request j (m.after (c.noted j)).inetNtoaBuffer (c.attempt j).sent ∨
          c.approved j ∧
            contact = .connection j (m.after (c.noted (j + 1))).inetNtoaBuffer (c.port j)) := by
  induction servers generalizing i with
  | nil =>
    refine ⟨fun h => (List.not_mem_nil h).elim, fun ⟨j, hij, hj, _⟩ => ?_⟩
    rw [List.length_nil] at hj
    omega
  | cons server servers ih =>
    have hnext : (m.after (c.noted i)).after (c.skipped i) = m.after (c.noted (i + 1)) :=
      (m.after_append _ _).symm
    rw [askServers_cons, hnext, List.length_cons]
    cases happ : c.approved i with
    | true =>
      rw [if_pos rfl]
      constructor
      · intro h
        refine ⟨i, le_rfl, by omega, fun k hik hki => (by omega), ?_⟩
        rcases List.mem_pair.mp h with h | h
        · exact Or.inl h
        · exact Or.inr ⟨happ, h⟩
      · rintro ⟨j, hij, hj, hbefore, h⟩
        obtain rfl : i = j := by
          by_contra hne
          rw [hbefore i le_rfl (by omega)] at happ
          cases happ
        exact List.mem_pair.mpr (h.imp_right And.right)
    | false =>
      rw [if_neg (by simp), List.mem_cons, ih (i + 1)]
      constructor
      · rintro (h | ⟨j, hij, hj, hbefore, h⟩)
        · exact ⟨i, le_rfl, by omega, fun k hik hki => (by omega), Or.inl h⟩
        · refine ⟨j, by omega, by omega, fun k hik hkj => ?_, h⟩
          by_cases hk : k = i
          · rw [hk, happ]
          · exact hbefore k (by omega) hkj
      · rintro ⟨j, hij, hj, hbefore, h⟩
        by_cases hji : j = i
        · subst hji
          refine Or.inl (h.resolve_right fun h => ?_)
          rw [happ] at h
          cases h.1
        · exact Or.inr ⟨j, by omega, by omega, fun k hik hkj => hbefore k (by omega) hkj, h⟩

/-- Some server accepts exactly if the list does not come to its end. -/
theorem askServers_snd (i : ℕ) (servers : List ServerData) :
    (c.askServers m i servers).2 ↔ ∃ j, i ≤ j ∧ j < i + servers.length ∧ c.approved j := by
  induction servers generalizing i m with
  | nil =>
    refine ⟨fun h => Bool.noConfusion h, fun ⟨j, hij, hj, _⟩ => ?_⟩
    rw [List.length_nil] at hj
    omega
  | cons server servers ih =>
    rw [askServers_cons, List.length_cons]
    cases happ : c.approved i with
    | true =>
      rw [if_pos rfl]
      exact ⟨fun _ => ⟨i, le_rfl, by omega, happ⟩, fun _ => rfl⟩
    | false =>
      rw [if_neg (by simp), ih]
      constructor
      · rintro ⟨j, hij, hj, h⟩
        exact ⟨j, by omega, by omega, h⟩
      · rintro ⟨j, hij, hj, h⟩
        refine ⟨j, ?_, by omega, h⟩
        by_contra hlt
        obtain rfl : j = i := by omega
        rw [happ] at h
        cases h

theorem atLeastOneServerHasSpace_iff :
    atLeastOneServerHasSpace (c.goodDays.map fun d => ⟨.inetNtoaBuffer, d.announcedSpace⟩)
      c.fileSize ↔ c.FirstHasRoom := by
  unfold FirstHasRoom
  cases c.goodDays with
  | nil => simp [atLeastOneServerHasSpace]
  | cons d days => simp [atLeastOneServerHasSpace]

theorem upload_of_room (hroom : c.FirstHasRoom) (hsocket : c.socketCreated) :
    c.upload m =
      let asked := c.askServers (m.after (c.noted 0)) 0
        (c.goodDays.map fun d => ⟨.inetNtoaBuffer, d.announcedSpace⟩)
      (asked.1, if asked.2 then .approved else .tooBig) := by
  rw [upload, silentDiscover_eq]
  dsimp only
  rw [if_pos (atLeastOneServerHasSpace_iff.mpr hroom), if_pos hsocket]
  rfl

theorem upload_of_not_socket (hroom : c.FirstHasRoom) (hsocket : ¬c.socketCreated) :
    c.upload m = ([], .noSocket) := by
  rw [upload, silentDiscover_eq]
  dsimp only
  rw [if_pos (atLeastOneServerHasSpace_iff.mpr hroom), if_neg hsocket]

theorem upload_of_not_room (hroom : ¬c.FirstHasRoom) : c.upload m = ([], .tooBig) := by
  rw [upload, silentDiscover_eq]
  dsimp only
  rw [if_neg fun h => hroom (atLeastOneServerHasSpace_iff.mp h)]

/-- What is contacted, and the addresses that are read. -/
theorem mem_upload {contact : Contact} : contact ∈ (c.upload m).1 ↔
    ∃ i, c.Contacts i ∧
      (contact = .request i (m.after (c.noted i)).inetNtoaBuffer (c.attempt i).sent ∨
        c.approved i ∧
          contact = .connection i (m.after (c.noted (i + 1))).inetNtoaBuffer (c.port i)) := by
  by_cases hroom : c.FirstHasRoom
  · by_cases hsocket : c.socketCreated
    · rw [upload_of_room hroom hsocket]
      refine (mem_askServers 0 _).trans ⟨?_, ?_⟩
      · rintro ⟨j, _, hj, hbefore, h⟩
        rw [List.length_map, Nat.zero_add] at hj
        exact ⟨j, ⟨hroom, hsocket, hj, fun k hk => hbefore k (Nat.zero_le k) hk⟩, h⟩
      · rintro ⟨j, hj, h⟩
        refine ⟨j, Nat.zero_le j, ?_, fun k _ hk => hj.not_approved k hk, h⟩
        rw [List.length_map, Nat.zero_add]
        exact hj.lt
    · rw [upload_of_not_socket hroom hsocket]
      exact ⟨fun h => (List.not_mem_nil h).elim, fun ⟨j, hj, _⟩ => (hsocket hj.socketCreated).elim⟩
  · rw [upload_of_not_room hroom]
    exact ⟨fun h => (List.not_mem_nil h).elim, fun ⟨j, hj, _⟩ => (hroom hj.room).elim⟩

/-- The file is reported as too big if the first server has no room, or none accepts. -/
theorem upload_tooBig_iff : (c.upload m).2 = .tooBig ↔
    c.FirstHasRoom → c.socketCreated ∧ ∀ i < c.goodDays.length, c.approved i = false := by
  by_cases hroom : c.FirstHasRoom
  · by_cases hsocket : c.socketCreated
    · have hask := askServers_snd (c := c) (m := m.after (c.noted 0)) 0
        (c.goodDays.map fun d => ⟨.inetNtoaBuffer, d.announcedSpace⟩)
      rw [List.length_map, Nat.zero_add] at hask
      rw [upload_of_room hroom hsocket]
      dsimp only
      split_ifs with hany
      · obtain ⟨j, _, hj, happ⟩ := hask.mp hany
        refine ⟨False.elim, fun h => ?_⟩
        rw [(h hroom).2 j hj] at happ
        cases happ
      · refine ⟨fun _ _ => ⟨hsocket, fun i hi => ?_⟩, fun _ => rfl⟩
        by_contra happ
        exact hany (hask.mpr ⟨i, Nat.zero_le i, hi, by simpa using happ⟩)
    · rw [upload_of_not_socket hroom hsocket]
      exact ⟨fun h => UploadEnd.noConfusion h, fun h => (hsocket (h hroom).1).elim⟩
  · rw [upload_of_not_room hroom]
    exact ⟨fun _ h => (hroom h).elim, fun _ => rfl⟩

/-- A server that is contacted answered a datagram that was heard. -/
theorem noted_ne_nil (hpos : 0 < c.goodDays.length) (i : ℕ) : c.noted i ≠ [] := by
  induction i with
  | zero =>
    intro h
    rw [noted] at h
    rw [goodDays, h] at hpos
    exact lt_irrefl 0 hpos
  | succ i ih => exact List.append_ne_nil_of_left_ne_nil ih _

theorem inetNtoaBuffer_noted {j : ℕ} (hj : j < c.goodDays.length) (i : ℕ) (d : Datagram) :
    (m.after (c.noted i)).inetNtoaBuffer = d.source.sinAddr ↔ LastFrom (c.noted i) d :=
  m.inetNtoaBuffer_after (noted_ne_nil (Nat.zero_lt_of_lt hj) i) d

/-- Some server is connected to exactly if one that is asked accepts. -/
theorem exists_connection_iff : (∃ i a p, .connection i a p ∈ (c.upload m).1) ↔
    c.FirstHasRoom ∧ c.socketCreated ∧ ∃ i < c.goodDays.length, c.approved i := by
  constructor
  · rintro ⟨i, a, p, h⟩
    obtain ⟨j, hj, hreq | ⟨happ, hconn⟩⟩ := mem_upload.mp h
    · cases hreq
    · exact ⟨hj.room, hj.socketCreated, j, hj.lt, happ⟩
  · rintro ⟨hroom, hsocket, hex⟩
    classical
    obtain ⟨hlt, happ⟩ := Nat.find_spec hex
    have hbefore : ∀ k < Nat.find hex, c.approved k = false := fun k hk => by
      have := Nat.find_min hex hk
      simpa [hk.trans hlt] using this
    exact ⟨_, _, _, mem_upload.mpr ⟨_, ⟨hroom, hsocket, hlt, hbefore⟩, Or.inr ⟨happ, rfl⟩⟩⟩

/-- A server is sent a request at its own address exactly if it is contacted, the send goes
well and it sent the last datagram noted before. -/
theorem request_mem_upload_iff {i : ℕ} {d : Datagram} :
    .request i d.source.sinAddr true ∈ (c.upload m).1 ↔
      c.Contacts i ∧ (c.attempt i).sent ∧ LastFrom (c.noted i) d := by
  constructor
  · intro h
    obtain ⟨j, hj, hreq | ⟨_, hconn⟩⟩ := mem_upload.mp h
    · injection hreq with hij haddr hsent
      rw [hij]
      exact ⟨hj, hsent.symm, (inetNtoaBuffer_noted hj.lt j d).mp haddr.symm⟩
    · cases hconn
  · rintro ⟨hi, hsent, hlast⟩
    refine mem_upload.mpr ⟨i, hi, Or.inl ?_⟩
    rw [(inetNtoaBuffer_noted hi.lt i d).mpr hlast, hsent]

/-- No server is contacted after the one that is connected to. -/
theorem server_le_of_connection {i : ℕ} {a : UInt32} {p : UInt16} {contact : Contact}
    (hconn : .connection i a p ∈ (c.upload m).1) (hmem : contact ∈ (c.upload m).1) :
    contact.server ≤ i := by
  obtain ⟨j, _, hreq | ⟨happ, hcontact⟩⟩ := mem_upload.mp hconn
  · cases hreq
  · injection hcontact with hij
    obtain ⟨k, hk, hcase⟩ := mem_upload.mp hmem
    have hserver : contact.server = k := by
      rcases hcase with rfl | ⟨_, rfl⟩ <;> rfl
    rw [hserver, hij]
    by_contra hlt
    rw [hk.not_approved j (by omega)] at happ
    cases happ

/-- A client that reports the file as too big has connected to no server. -/
theorem not_connection_of_tooBig (htoo : (c.upload m).2 = .tooBig) (i : ℕ) (a : UInt32)
    (p : UInt16) : .connection i a p ∉ (c.upload m).1 := by
  intro hconn
  obtain ⟨hroom, _, j, hj, happ⟩ := exists_connection_iff.mp ⟨i, a, p, hconn⟩
  rw [(upload_tooBig_iff.mp htoo hroom).2 j hj] at happ
  cases happ

/-- If none accepts, each server is contacted. -/
theorem contacts_of_not_approved (hroom : c.FirstHasRoom) (hsocket : c.socketCreated)
    (happ : ¬∃ i < c.goodDays.length, c.approved i) {i : ℕ} (hi : i < c.goodDays.length) :
    c.Contacts i := by
  refine ⟨hroom, hsocket, hi, fun j hj => ?_⟩
  by_contra hne
  exact happ ⟨j, hj.trans hi, by simpa using hne⟩

end Contacted

/-! ## Addresses -/

/-- Each server is contacted at the address its answer came from, and has the space that the
answer announced. -/
structure OwnAddresses (c : UploadCommand) (m : Static) : Prop where
  spaces : (c.silentDiscover m).2.map ServerData.availableSpace =
    c.goodDays.map Datagram.announcedSpace
  addresses : ∀ contact ∈ (c.upload m).1, ∃ d, c.goodDays[contact.server]? = some d ∧
    contact.address = d.source.sinAddr

/-- The addresses are right exactly if, whenever a server is contacted, the last datagram that
was noted came from it. -/
theorem ownAddresses_iff (c : UploadCommand) (m : Static) : c.OwnAddresses m ↔
    ∀ i d, c.Contacts i → c.goodDays[i]? = some d →
      LastFrom (c.noted i) d ∧ (c.approved i → LastFrom (c.noted (i + 1)) d) := by
  constructor
  · intro h i d hi hd
    have own : ∀ contact ∈ (c.upload m).1, contact.server = i →
        contact.address = d.source.sinAddr := by
      intro contact hmem hserver
      obtain ⟨e, he, haddr⟩ := h.addresses contact hmem
      rw [hserver, hd, Option.some.injEq] at he
      rw [haddr, he]
    refine ⟨?_, fun happ => ?_⟩
    · exact (inetNtoaBuffer_noted hi.lt i d).mp
        (own _ (mem_upload.mpr ⟨i, hi, Or.inl rfl⟩) rfl)
    · exact (inetNtoaBuffer_noted hi.lt (i + 1) d).mp
        (own _ (mem_upload.mpr ⟨i, hi, Or.inr ⟨happ, rfl⟩⟩) rfl)
  · intro h
    refine ⟨?_, fun contact hmem => ?_⟩
    · rw [silentDiscover_eq, List.map_map]
      rfl
    · obtain ⟨i, hi, hcontact⟩ := mem_upload.mp hmem
      obtain ⟨hreq, hconn⟩ := h i _ hi (List.getElem?_eq_getElem hi.lt)
      rcases hcontact with rfl | ⟨happ, rfl⟩
      · exact ⟨_, List.getElem?_eq_getElem hi.lt, (inetNtoaBuffer_noted hi.lt i _).mpr hreq⟩
      · exact ⟨_, List.getElem?_eq_getElem hi.lt,
          (inetNtoaBuffer_noted hi.lt (i + 1) _).mpr (hconn happ)⟩

/-- An answer to the discovery with the sequence number 1. -/
def goodDay (sinAddr : UInt32) (availableSpace : UInt64) : Datagram :=
  ⟨⟨sinAddr, 0⟩, complexMessage 1 discoverResponse [] availableSpace⟩

/-- A client that hears two servers and gets no answer to its requests. -/
def twoServers (space space' fileSize : UInt64) : UploadCommand where
  filename := [97]
  fileSize := fileSize
  discoverSeq := 1
  discoverSent := true
  heard := [goodDay 1 space, goodDay 2 space']
  socketCreated := true
  attempt _ := ⟨2, true, []⟩

/-- The request to the first server goes to the second. -/
theorem twoServers_not_ownAddresses : ¬(twoServers 8 8 7).OwnAddresses ⟨0⟩ := by
  intro h
  obtain ⟨d, hd, haddr⟩ := h.addresses (.request 0 2 true) (by decide)
  have hfirst : (twoServers 8 8 7).goodDays[0]? = some (goodDay 1 8) := by decide
  rw [Contact.server, hfirst, Option.some.injEq] at hd
  subst hd
  exact absurd haddr (by decide)

/-! ## Servers with room -/

/-- If a server has room, the client asks until one accepts, or else asks every server that has.
It reports the file as too big only if none has or none accepts. -/
structure UsesServers (c : UploadCommand) (m : Static) : Prop where
  asks : (∃ d ∈ c.goodDays, d.announcedSpace ≥ c.fileSize) →
    (∃ i a p, .connection i a p ∈ (c.upload m).1) ∨
      ∀ d ∈ c.goodDays, d.announcedSpace ≥ c.fileSize →
        ∃ i, .request i d.source.sinAddr true ∈ (c.upload m).1
  accepted : ∀ i a p, .connection i a p ∈ (c.upload m).1 →
    ∀ contact ∈ (c.upload m).1, contact.server ≤ i
  tooBig : (c.upload m).2 = .tooBig → (∀ d ∈ c.goodDays, ¬d.announcedSpace ≥ c.fileSize) ∨
    ∀ i a p, .connection i a p ∉ (c.upload m).1

/-- Every server that has room sent the last datagram noted before a request that was sent. -/
def AsksAll (c : UploadCommand) : Prop :=
  ∀ d ∈ c.goodDays, d.announcedSpace ≥ c.fileSize →
    ∃ i < c.goodDays.length, (c.attempt i).sent ∧ LastFrom (c.noted i) d

/-- The client uses a server that has room exactly if the first one has, and one of those it
then asks accepts or all with room are really asked. -/
theorem usesServers_iff (c : UploadCommand) (m : Static) : c.UsesServers m ↔
    ((∃ d ∈ c.goodDays, d.announcedSpace ≥ c.fileSize) →
      c.FirstHasRoom ∧ c.socketCreated ∧
        ((∃ i < c.goodDays.length, c.approved i) ∨ c.AsksAll)) := by
  constructor
  · intro h hex
    rcases h.asks hex with hconn | hall
    · obtain ⟨hroom, hsocket, happ⟩ := exists_connection_iff.mp hconn
      exact ⟨hroom, hsocket, Or.inl happ⟩
    · obtain ⟨d, hd, hspace⟩ := hex
      obtain ⟨i, hi⟩ := hall d hd hspace
      obtain ⟨hi, _⟩ := request_mem_upload_iff.mp hi
      refine ⟨hi.room, hi.socketCreated, Or.inr fun d hd hspace => ?_⟩
      obtain ⟨j, hj⟩ := hall d hd hspace
      obtain ⟨hj, hsent, hlast⟩ := request_mem_upload_iff.mp hj
      exact ⟨j, hj.lt, hsent, hlast⟩
  · intro h
    refine ⟨fun hex => ?_, fun i a p hconn contact hmem => server_le_of_connection hconn hmem,
      fun htoo => Or.inr (not_connection_of_tooBig htoo)⟩
    obtain ⟨hroom, hsocket, hcase⟩ := h hex
    by_cases happ : ∃ i < c.goodDays.length, c.approved i
    · exact Or.inl (exists_connection_iff.mpr ⟨hroom, hsocket, happ⟩)
    · refine Or.inr fun d hd hspace => ?_
      obtain ⟨i, hi, hsent, hlast⟩ := hcase.resolve_left happ d hd hspace
      exact ⟨i, request_mem_upload_iff.mpr
        ⟨contacts_of_not_approved hroom hsocket happ hi, hsent, hlast⟩⟩

/-- The first server has no room, so the second is never asked. -/
theorem twoServers_not_usesServers : ¬(twoServers 5 8 7).UsesServers ⟨0⟩ := by
  intro h
  have hnone : ((twoServers 5 8 7).upload ⟨0⟩).1 = [] := by decide
  have hroom : ∃ d ∈ (twoServers 5 8 7).goodDays, d.announcedSpace ≥ (twoServers 5 8 7).fileSize :=
    ⟨goodDay 2 8, by decide, by decide⟩
  obtain ⟨i, a, p, hmem⟩ | hall := h.asks hroom
  · rw [hnone] at hmem
    cases hmem
  · obtain ⟨d, hd, hspace⟩ := hroom
    obtain ⟨i, hmem⟩ := hall d hd hspace
    rw [hnone] at hmem
    cases hmem

end UploadCommand

end Netstore
