import Netstore.Exchange
import Netstore.Format

/-!
# Searches among many servers

One client searches and discovers with one socket while any number of servers run and
serve others too (`Network`). What it sends may reach any server at any time, more than
once or never, and so may what the servers send to it reach it, also when it waits for
something else. A files list handler reads its pattern from the message object of the
loop, so the pattern may be that of a later datagram.

A files list is taken only for the search it answers, and its sender is what the client
keeps for each of its lines. The lines are names that the sender had found, if each line
of a name that contains the pattern is such a name, the handler has its own pattern, and
the pattern is a string that the request can carry (`sound_of_readable`).
-/

namespace Netstore

open Transition

/-! ## The client -/

/-- The results of a search : the address of a server for each name. -/
abbrev SearchResults := Bytes → Option UInt32

/-- `Client::update_search_results` : the last server that lists a name has it. -/
def updateSearchResults (results : SearchResults) (files : List Bytes) (serverIp : UInt32) :
    SearchResults :=
  files.foldl (fun results file => Function.update results file (some serverIp)) results

/-- A search of the client. -/
structure Search where
  messageSeq : UInt64
  pattern : Bytes
  deriving DecidableEq

/-- What the client waits for at its socket. -/
inductive Waiting where
  | nothing
  | discoverResponses
  | searchResponds (messageSeq : UInt64)
  deriving DecidableEq

/-- The addresses of a client and of the servers. -/
structure Site where
  /-- The address of the client's socket. -/
  source : SockAddr
  /-- The address that the server with the index sends from. -/
  address : ℕ → SockAddr
  multicastAddress : Bytes

/-- A files list request of the client that a server has handled. -/
structure Handled where
  server : ℕ
  messageSeq : UInt64
  /-- The index when it was handled. -/
  filesInStorage : SortedSet Filename
  /-- Which of its messages could be sent. -/
  sends : List Bool

/-- A client that searches, and servers. -/
structure Network where
  worlds : List World
  /-- What the client has sent from its socket. -/
  requests : List Datagram
  /-- What the servers have sent to that socket. -/
  wire : List Datagram
  handled : List Handled
  waiting : Waiting
  /-- The sequence numbers that the client has used. -/
  messageSeqs : List UInt64
  /-- The searches, the last one last. -/
  searches : List Search
  /-- What the client has received for the last search. -/
  received : List Datagram
  lastSearchResults : SearchResults

/-- A call of the client, an arriving datagram or a step of a server. -/
inductive NetworkAction where
  /-- `Client::search` sends its request, or the send throws. -/
  | search (pattern : Bytes) (messageSeq : UInt64) (ok : Bool)
  /-- `Client::discover` sends its request, or the send throws. -/
  | discover (messageSeq : UInt64) (ok : Bool)
  | receive (d : Datagram)
  | timeout
  | server (k : ℕ) (a : Action)
  /-- A files list handler runs with the pattern that it finds. -/
  | filesList (k i : ℕ) (pattern : Bytes) (sends : List Bool)
  deriving DecidableEq

/-! ## The servers -/

namespace World

/-- What a step sends, but for a files list. -/
def sends (w : World) (multicastAddress : Bytes) : Action → List (SockAddr × Bytes)
  | .discover true =>
    match w.loop with
    | .discovering source messageSeq =>
      (discoverReply messageSeq multicastAddress w.server.getAvailableSpace).toList.map (source, ·)
    | _ => []
  | .upload i call =>
    w.uploads[i]?.elim [] fun u => (u.answers call).map (u.destinationAddress, ·)
  | .download i (.announce (some port)) =>
    w.downloads[i]?.elim [] fun u => (u.response port).toList.map (u.destinationAddress, ·)
  | _ => []

/-- What is known of the names of a server. -/
structure Spelled (w : World) : Prop where
  index : ∀ f ∈ w.server.filesInStorage, Sendable f
  filename : ∀ u ∈ w.uploads, (0 : UInt8) ∉ u.filename ∧ u.filename.length < maxSimpleDataSize
  acceptable : ∀ u ∈ w.uploads, u.pc = .reserved → acceptableName u.filename

theorem spelled_initial {s : Server} (h : ∀ f ∈ s.filesInStorage, Sendable f) :
    (initial s).Spelled where
  index := h
  filename _ hu := (List.not_mem_nil hu).elim
  acceptable _ hu := (List.not_mem_nil hu).elim

/-- A name that a server stores can be sent, whatever was uploaded. -/
theorem Spelled.step {w w' : World} {a : Action} (h : w.Spelled) (hs : w.step a = some w') :
    w'.Spelled := by
  cases step_cases hs with
  | @upload i c u s pc thread next terminated =>
    have hu := List.mem_of_getElem? thread
    refine ⟨fun f hf => ?_, fun v hv => ?_, fun v hv hpc => ?_⟩
    · rcases Upload.mem_filesInStorage_of_next next hf with hf | ⟨rfl, -, before, -⟩
      · exact h.index f hf
      · obtain ⟨h0, hlt⟩ := h.filename u hu
        exact ⟨(acceptableName_iff.mp (h.acceptable u hu before)).1, h0, hlt⟩
    · rcases mem_set_of_getElem? thread hv with rfl | ⟨j, -, hj⟩
      · exact h.filename u hu
      · exact h.filename v (List.mem_of_getElem? hj)
    · rcases mem_set_of_getElem? thread hv with rfl | ⟨j, -, hj⟩
      · have hname : acceptableName u.filename := Upload.acceptableName_of_next next hpc
        exact hname
      · exact h.acceptable v (List.mem_of_getElem? hj) hpc
  | spawn idle request =>
    refine ⟨h.index, fun v hv => ?_, fun v hv hpc => ?_⟩
    · rcases List.mem_append.mp hv with hv | hv
      · exact h.filename v hv
      · obtain rfl := List.mem_singleton.mp hv
        exact filename_of_receive request
    · rcases List.mem_append.mp hv with hv | hv
      · exact h.acceptable v hv hpc
      · obtain rfl := List.mem_singleton.mp hv
        cases hpc
  | erase idle request =>
    exact ⟨fun f hf => h.index f (SortedSet.mem_erase.mp hf).2, h.filename, h.acceptable⟩
  | removal loop next =>
    cases removeNext_cases next <;> exact ⟨h.index, h.filename, h.acceptable⟩
  | other call server uploads removal =>
    exact ⟨server ▸ h.index, uploads ▸ h.filename, uploads ▸ h.acceptable⟩

/-- What a step sends, but for a files list, has one of the other commands of a server. -/
theorem exists_command_of_mem_sends {w : World} {multicastAddress : Bytes} {a : Action}
    {m : SockAddr × Bytes} (hm : m ∈ w.sends multicastAddress a) :
    ∃ c ∈ [discoverResponse, fileAddAcceptance, fileAddRefusal, fileGetResponse],
      (c = discoverResponse → a = .discover true) ∧
        ∃ seq rest n, sendto (fillCommand c ++ (Bytes.be64 seq ++ rest)) n = some m.2 := by
  cases a with
  | discover ok =>
    cases ok
    · cases hm
    · cases hloop : w.loop with
      | discovering source messageSeq =>
        simp only [sends, hloop] at hm
        obtain ⟨payload, hp, rfl⟩ := List.mem_map.mp hm
        exact ⟨discoverResponse, by decide, fun _ => rfl, _, _, _, Option.mem_toList.mp hp⟩
      | _ => simp [sends, hloop] at hm
  | upload i call =>
    rw [sends] at hm
    cases hu : w.uploads[i]? with
    | none => simp [hu] at hm
    | some u =>
      rw [hu] at hm
      obtain ⟨payload, hp, rfl⟩ := List.mem_map.mp hm
      cases call with
      | announce port =>
        obtain ⟨p, -, hp⟩ := Option.bind_eq_some_iff.mp (Option.mem_toList.mp hp)
        rw [Upload.acceptance, sendComplex] at hp
        exact ⟨fileAddAcceptance, by decide, fun h => absurd h (by decide), _, _, _, hp⟩
      | refuse ok =>
        cases ok
        · cases hp
        · exact ⟨fileAddRefusal, by decide, fun h => absurd h (by decide), _, _, _,
            Option.mem_toList.mp hp⟩
      | _ => cases hp
  | download i call =>
    cases call with
    | announce port =>
      cases port with
      | none => cases hm
      | some port =>
        rw [sends] at hm
        cases hu : w.downloads[i]? with
        | none => simp [hu] at hm
        | some u =>
          rw [hu] at hm
          obtain ⟨payload, hp, rfl⟩ := List.mem_map.mp hm
          exact ⟨fileGetResponse, by decide, fun h => absurd h (by decide), _, _, _,
            Option.mem_toList.mp hp⟩
    | _ => cases hm
  | _ => cases hm

/-- A client that waits for a files list takes nothing else that a server sends. -/
theorem receiveSearchRespond_of_mem_sends {w : World} {multicastAddress : Bytes} {a : Action}
    {m : SockAddr × Bytes} (hm : m ∈ w.sends multicastAddress a) (seq : UInt64) :
    receiveSearchRespond seq m.2 = [] := by
  obtain ⟨c, hc, -, seq', rest, n, hp⟩ := exists_command_of_mem_sends hm
  have hcommands : ∀ c ∈ [discoverResponse, fileAddAcceptance, fileAddRefusal, fileGetResponse],
      c.length ≤ maxCommandLength ∧ (0 : UInt8) ∉ c ∧ c ≠ filesListResponse := by decide
  obtain ⟨hlen, h0, hne⟩ := hcommands c hc
  exact receiveSearchRespond_of_sendto hp hlen h0 hne seq

end World

/-! ## The network -/

/-- The messages whose send succeeds: a failure is logged, and the next one is sent. -/
def sentOf (messages : List Bytes) (sends : List Bool) : List Bytes :=
  ((messages.zip sends).filter (·.2)).map (·.1)

theorem mem_of_mem_sentOf {messages : List Bytes} {sends : List Bool} {payload : Bytes}
    (h : payload ∈ sentOf messages sends) : payload ∈ messages := by
  obtain ⟨p, hp, rfl⟩ := List.mem_map.mp h
  exact (List.of_mem_zip (List.mem_of_mem_filter hp)).1

/-- What reaches the client of what the `k`-th server sends. -/
def Site.arriving (c : Site) (k : ℕ) (sent : List (SockAddr × Bytes)) : List Datagram :=
  (sent.filter fun m => m.1 = c.source).map fun m => ⟨c.address k, m.2⟩

namespace Network

/-- Before the first search. -/
def start (servers : List Server) : Network :=
  ⟨servers.map World.initial, [], [], [], .nothing, [], [], [], fun _ => none⟩

variable (c : Site) (n : Network)

/-- A datagram with the address of the client is one of its requests. -/
def delivers : Action → Bool
  | .receive d => d.source ≠ c.source || d ∈ n.requests
  | .filesList _ _ => false
  | _ => true

/-- The client has one request at a time, and what a server sends to it is on the wire from then on.
A datagram on the wire can arrive at any time, again, or never. -/
def step (c : Site) (n : Network) : NetworkAction → Option Network
  | .search pattern messageSeq ok =>
    if n.waiting = .nothing ∧ messageSeq ∉ n.messageSeqs then
      let sent := if ok then simpleRequest messageSeq filesListRequest pattern else none
      some { n with
        requests := n.requests ++ sent.toList.map (⟨c.source, ·⟩)
        waiting := if sent.isSome then .searchResponds messageSeq else .nothing
        messageSeqs := n.messageSeqs ++ [messageSeq]
        searches := n.searches ++ [⟨messageSeq, pattern⟩]
        received := []
        lastSearchResults := fun _ => none }
    else none
  | .discover messageSeq ok =>
    if n.waiting = .nothing ∧ messageSeq ∉ n.messageSeqs then
      let sent := if ok then simpleRequest messageSeq discoverRequest [] else none
      some { n with
        requests := n.requests ++ sent.toList.map (⟨c.source, ·⟩)
        waiting := if sent.isSome then .discoverResponses else .nothing
        messageSeqs := n.messageSeqs ++ [messageSeq] }
    else none
  | .receive d =>
    if d ∈ n.wire then
      match n.waiting with
      | .nothing => none
      -- what a discovery receives is only shown
      | .discoverResponses => some n
      | .searchResponds messageSeq =>
        some { n with
          received := n.received ++ [d]
          lastSearchResults := updateSearchResults n.lastSearchResults
            (receiveSearchRespond messageSeq d.payload) d.source.sinAddr }
    else none
  | .timeout => if n.waiting = .nothing then none else some { n with waiting := .nothing }
  | .server k a =>
    if n.delivers c a then
      n.worlds[k]?.bind fun w => (w.step a).map fun w' =>
        { n with
          worlds := n.worlds.set k w'
          wire := n.wire ++ c.arriving k (w.sends c.multicastAddress a) }
    else none
  | .filesList k i pattern sends =>
    n.worlds[k]?.bind fun w => w.listings[i]?.bind fun l =>
      (w.step (.filesList i sends)).map fun w' =>
        let files := w.server.filesInStorage
        { n with
          worlds := n.worlds.set k w'
          wire := n.wire ++ c.arriving k
            ((sentOf (handleFilesListRequest files l.messageSeq pattern) sends).map
              (l.destinationAddress, ·))
          handled := n.handled ++
            if l.destinationAddress = c.source then [⟨k, l.messageSeq, files, sends⟩] else [] }

/-- The last datagram received for the last search that lists the name. -/
def lastListing (messageSeq : UInt64) (f : Bytes) : Option Datagram :=
  (n.received.filter fun d => f ∈ receiveSearchRespond messageSeq d.payload).getLast?

/-- What an entry of the results says of a search. -/
structure Entry (s : Search) (f : Bytes) (ip : UInt32) : Prop where
  stored : ∃ h ∈ n.handled, (c.address h.server).sinAddr = ip ∧ h.messageSeq = s.messageSeq ∧
    f ∈ h.filesInStorage
  contains : s.pattern <:+: f
  last : (n.lastListing s.messageSeq f).map (·.source.sinAddr) = some ip

/-- All that the results say of the last search is so. -/
def Sound : Prop :=
  ∀ s, n.searches.getLast? = some s → ∀ f ip, n.lastSearchResults f = some ip → n.Entry c s f ip

/-- Each line of a name that contains the pattern is such a name. -/
def LinesFound (files : SortedSet Filename) (pattern : Bytes) : Prop :=
  ∀ f ∈ files, pattern <:+: f →
    ∀ line ∈ f.splitOn Bytes.newline, line ∈ files ∧ pattern <:+: line

/-- The pattern of a search is a string that a request can carry. A handler of the client's
request finds its own pattern, and names that a files list can carry. -/
def Readable : NetworkAction → Prop
  | .search pattern _ _ => (0 : UInt8) ∉ pattern ∧ pattern.length < 2 ^ 16
  | .filesList k i pattern _ => ∀ w ∈ n.worlds[k]?, ∀ l ∈ w.listings[i]?,
    l.destinationAddress = c.source →
      pattern = l.pattern ∧ LinesFound w.server.filesInStorage pattern
  | _ => True

instance (files : SortedSet Filename) (pattern : Bytes) : Decidable (LinesFound files pattern) := by
  unfold LinesFound
  infer_instance

instance (a : NetworkAction) : Decidable (n.Readable c a) := by
  unfold Readable
  split <;> infer_instance

/-! ## Where the datagrams come from -/

/-- The sender found the name for the search, and the search asks for it. -/
def Found (d : Datagram) (messageSeq : UInt64) (f : Bytes) : Prop :=
  (∃ h ∈ n.handled, c.address h.server = d.source ∧ h.messageSeq = messageSeq ∧
    f ∈ h.filesInStorage) ∧
    ∃ s ∈ n.searches, s.messageSeq = messageSeq ∧ s.pattern <:+: f

/-- What the client has sent, what the servers have made of it and what they have sent. -/
structure Traced (c : Site) (n : Network) : Prop where
  spelled : ∀ w ∈ n.worlds, w.Spelled
  seqs : ∀ s ∈ n.searches, s.messageSeq ∈ n.messageSeqs
  distinct : ∀ s ∈ n.searches, ∀ t ∈ n.searches, s.messageSeq = t.messageSeq → s = t
  carried : ∀ s ∈ n.searches, (0 : UInt8) ∉ s.pattern ∧ s.pattern.length < 2 ^ 16
  requests : ∀ d ∈ n.requests, (∃ seq, simpleRequest seq discoverRequest [] = some d.payload) ∨
    ∃ s ∈ n.searches, simpleRequest s.messageSeq filesListRequest s.pattern = some d.payload
  listings : ∀ w ∈ n.worlds, ∀ l ∈ w.listings, l.destinationAddress = c.source →
    ⟨l.messageSeq, l.pattern⟩ ∈ n.searches
  wire : ∀ d ∈ n.wire, ∀ seq, ∀ f ∈ receiveSearchRespond seq d.payload, n.Found c d seq f

variable {c : Site} {n n' : Network} {servers : List Server}

theorem Found.mono {d : Datagram} {seq : UInt64} {f : Bytes} (h : n.Found c d seq f)
    (hhandled : ∀ x ∈ n.handled, x ∈ n'.handled) (hsearches : ∀ x ∈ n.searches, x ∈ n'.searches) :
    n'.Found c d seq f := by
  obtain ⟨⟨x, hx, hfound⟩, s, hs, hpattern⟩ := h
  exact ⟨⟨x, hhandled x hx, hfound⟩, s, hsearches s hs, hpattern⟩

theorem traced_start (hn : ∀ s ∈ servers, ∀ f ∈ s.filesInStorage, Sendable f) :
    Traced c (start servers) where
  spelled w hw := by
    obtain ⟨s, hs, rfl⟩ := List.mem_map.mp hw
    exact World.spelled_initial (hn s hs)
  seqs _ hs := (List.not_mem_nil hs).elim
  distinct _ hs := (List.not_mem_nil hs).elim
  carried _ hs := (List.not_mem_nil hs).elim
  requests _ hd := (List.not_mem_nil hd).elim
  listings w hw l hl := by
    obtain ⟨s, hs, rfl⟩ := List.mem_map.mp hw
    exact (List.not_mem_nil hl).elim
  wire _ hd := (List.not_mem_nil hd).elim

/-- The client sends a request of a new search. -/
theorem Traced.search (h : Traced c n) {pattern : Bytes} {seq : UInt64} {sent : Option Bytes}
    (hseq : seq ∉ n.messageSeqs) (hp : (0 : UInt8) ∉ pattern ∧ pattern.length < 2 ^ 16)
    (hsent : ∀ payload ∈ sent, simpleRequest seq filesListRequest pattern = some payload)
    (waiting : Waiting) (received : List Datagram) (results : SearchResults) :
    Traced c { n with
      requests := n.requests ++ sent.toList.map (⟨c.source, ·⟩)
      waiting := waiting
      messageSeqs := n.messageSeqs ++ [seq]
      searches := n.searches ++ [⟨seq, pattern⟩]
      received := received
      lastSearchResults := results } := by
  have hmono : ∀ s ∈ n.searches, s ∈ n.searches ++ [⟨seq, pattern⟩] :=
    fun s hs => List.mem_append_left _ hs
  have hnew : ∀ s ∈ n.searches, s.messageSeq ≠ seq := fun s hs he => hseq (he ▸ h.seqs s hs)
  refine ⟨h.spelled, fun s hs => ?_, fun s hs t ht he => ?_, fun s hs => ?_, fun d hd => ?_,
    fun w hw l hl hd => hmono _ (h.listings w hw l hl hd),
    fun d hd seq' f hf => (h.wire d hd seq' f hf).mono (fun _ => id) hmono⟩
  · rcases List.mem_append.mp hs with hs | hs
    · exact List.mem_append_left _ (h.seqs s hs)
    · rw [List.mem_singleton.mp hs]
      simp
  · rcases List.mem_append.mp hs with hs | hs <;> rcases List.mem_append.mp ht with ht | ht
    · exact h.distinct s hs t ht he
    · rw [List.mem_singleton.mp ht] at he
      exact (hnew s hs he).elim
    · rw [List.mem_singleton.mp hs] at he
      exact (hnew t ht he.symm).elim
    · rw [List.mem_singleton.mp hs, List.mem_singleton.mp ht]
  · rcases List.mem_append.mp hs with hs | hs
    · exact h.carried s hs
    · rw [List.mem_singleton.mp hs]
      exact hp
  · rcases List.mem_append.mp hd with hd | hd
    · refine (h.requests d hd).imp_right fun ⟨s, hs, he⟩ => ⟨s, hmono s hs, he⟩
    · obtain ⟨payload, hpayload, rfl⟩ := List.mem_map.mp hd
      have hlast : ⟨seq, pattern⟩ ∈ n.searches ++ [⟨seq, pattern⟩] :=
        List.mem_append_right _ (List.mem_singleton_self _)
      exact Or.inr ⟨⟨seq, pattern⟩, hlast, hsent payload (Option.mem_toList.mp hpayload)⟩

theorem Traced.discover (h : Traced c n) {seq : UInt64} {sent : Option Bytes}
    (hsent : ∀ payload ∈ sent, simpleRequest seq discoverRequest [] = some payload)
    (waiting : Waiting) :
    Traced c { n with
      requests := n.requests ++ sent.toList.map (⟨c.source, ·⟩)
      waiting := waiting
      messageSeqs := n.messageSeqs ++ [seq] } := by
  refine ⟨h.spelled, fun s hs => List.mem_append_left _ (h.seqs s hs), h.distinct, h.carried,
    fun d hd => ?_, h.listings, h.wire⟩
  rcases List.mem_append.mp hd with hd | hd
  · exact h.requests d hd
  · obtain ⟨payload, hpayload, rfl⟩ := List.mem_map.mp hd
    exact Or.inl ⟨seq, hsent payload (Option.mem_toList.mp hpayload)⟩

/-- A files list handler that is started for the client has a request of the client. -/
theorem Traced.listing_of_receive (h : Traced c n) {d : Datagram} {seq : UInt64} {pattern : Bytes}
    (hd : d ∈ n.requests) (hr : Netstore.receive d.payload = .ok (some (.filesList seq pattern))) :
    ⟨seq, pattern⟩ ∈ n.searches := by
  rcases h.requests d hd with ⟨q, hq⟩ | ⟨s, hs, hq⟩
  · obtain ⟨payload, hpayload, -, hr'⟩ := @delivered_discover q
    obtain rfl : payload = d.payload := Option.some.inj (hpayload.symm.trans hq)
    cases hr'.symm.trans hr
  · obtain ⟨h0, hlt⟩ := h.carried s hs
    obtain ⟨rfl, hpattern⟩ := filesList_of_request hq hr
    rw [hpattern h0 hlt]
    exact hs

/-- What a server keeps while it makes a step. -/
theorem Traced.world (h : Traced c n) {k : ℕ} {w w' : World} {a : Action}
    (hw : n.worlds[k]? = some w) (hs : w.step a = some w')
    (ha : ∀ d, a = .receive d → d.source = c.source → d ∈ n.requests) :
    (∀ v ∈ n.worlds.set k w', v.Spelled) ∧
      ∀ v ∈ n.worlds.set k w', ∀ l ∈ v.listings, l.destinationAddress = c.source →
        ⟨l.messageSeq, l.pattern⟩ ∈ n.searches := by
  have hmem := List.mem_of_getElem? hw
  refine ⟨fun v hv => ?_, fun v hv l hl hdest => ?_⟩
  · rcases mem_set_of_getElem? hw hv with rfl | ⟨j, -, hj⟩
    · exact (h.spelled w hmem).step hs
    · exact h.spelled v (List.mem_of_getElem? hj)
  · rcases mem_set_of_getElem? hw hv with rfl | ⟨j, -, hj⟩
    · rcases World.mem_listings_step hs hl with ⟨l₀, hl₀, he⟩ | ⟨d, rfl, hsource, hr⟩
      · rw [he] at hdest ⊢
        exact h.listings w hmem l₀ hl₀ hdest
      · exact h.listing_of_receive (ha d rfl (hsource ▸ hdest)) hr
    · exact h.listings v (List.mem_of_getElem? hj) l hl hdest

theorem Traced.server (h : Traced c n) {k : ℕ} {w w' : World} {a : Action}
    (hw : n.worlds[k]? = some w) (hs : w.step a = some w') (ha : n.delivers c a) :
    Traced c { n with
      worlds := n.worlds.set k w'
      wire := n.wire ++ c.arriving k (w.sends c.multicastAddress a) } := by
  have hreceive : ∀ d, a = .receive d → d.source = c.source → d ∈ n.requests := by
    rintro d rfl hsource
    simpa [delivers, hsource] using ha
  obtain ⟨hspelled, hlistings⟩ := h.world hw hs hreceive
  refine ⟨hspelled, h.seqs, h.distinct, h.carried, h.requests, hlistings, fun d hd seq f hf => ?_⟩
  rcases List.mem_append.mp hd with hd | hd
  · exact h.wire d hd seq f hf
  · obtain ⟨m, hm, rfl⟩ := List.mem_map.mp hd
    rw [World.receiveSearchRespond_of_mem_sends (List.mem_of_mem_filter hm) seq] at hf
    cases hf

/-- A handler of the client's request sends names that the search asks for. -/
theorem Traced.filesList (h : Traced c n) {k i : ℕ} {pattern : Bytes} {sends : List Bool}
    {w w' : World} {l : Listing} (hw : n.worlds[k]? = some w) (hl : w.listings[i]? = some l)
    (hs : w.step (.filesList i sends) = some w') (hP : n.Readable c (.filesList k i pattern sends)) :
    Traced c { n with
      worlds := n.worlds.set k w'
      wire := n.wire ++ c.arriving k
        ((sentOf (handleFilesListRequest w.server.filesInStorage l.messageSeq pattern) sends).map
          (l.destinationAddress, ·))
      handled := n.handled ++ if l.destinationAddress = c.source then
        [⟨k, l.messageSeq, w.server.filesInStorage, sends⟩] else [] } := by
  obtain ⟨hspelled, hlistings⟩ := h.world hw hs fun d hd => by cases hd
  refine ⟨hspelled, h.seqs, h.distinct, h.carried, h.requests, hlistings, fun d hd seq f hf => ?_⟩
  rcases List.mem_append.mp hd with hd | hd
  · exact (h.wire d hd seq f hf).mono (fun x hx => List.mem_append_left _ hx) fun _ => id
  · obtain ⟨m, hm, rfl⟩ := List.mem_map.mp hd
    obtain ⟨hm, hdest⟩ := List.mem_filter.mp hm
    obtain ⟨payload, hpayload, rfl⟩ := List.mem_map.mp hm
    have hdest : l.destinationAddress = c.source := of_decide_eq_true hdest
    obtain ⟨hown, hlines⟩ := hP w hw l hl hdest
    have hmem := List.mem_of_getElem? hw
    obtain ⟨names, hnames⟩ := listsNames_of_mem (h.spelled w hmem).index
      (mem_of_mem_sentOf hpayload)
    rw [hnames.receiveSearchRespond_eq (h.spelled w hmem).index] at hf
    split_ifs at hf with hseq
    · subst hseq
      obtain ⟨g, hg, hf⟩ := List.mem_flatMap.mp hf
      obtain ⟨hfiles, hpattern⟩ := hnames.found g hg
      obtain ⟨hfiles, hpattern⟩ := hlines g hfiles hpattern f hf
      refine ⟨⟨⟨k, l.messageSeq, w.server.filesInStorage, sends⟩, ?_, rfl, rfl, hfiles⟩, _,
        h.listings w hmem l (List.mem_of_getElem? hl) hdest, rfl, hown ▸ hpattern⟩
      rw [if_pos hdest]
      exact List.mem_append_right _ (List.mem_singleton_self _)
    · cases hf

theorem Traced.step (h : Traced c n) {a : NetworkAction} (hP : n.Readable c a)
    (hs : n.step c a = some n') : Traced c n' := by
  cases a with
  | search pattern seq ok =>
    obtain ⟨hnew, hs⟩ := Option.ite_none_right_eq_some.mp hs
    cases hs
    refine h.search hnew.2 hP (fun payload hpayload => ?_) _ _ _
    split_ifs at hpayload
    · exact hpayload
    · cases hpayload
  | discover seq ok =>
    obtain ⟨-, hs⟩ := Option.ite_none_right_eq_some.mp hs
    cases hs
    refine @Traced.discover _ _ h seq _ (fun payload hpayload => ?_) _
    split_ifs at hpayload
    · exact hpayload
    · cases hpayload
  | receive d =>
    obtain ⟨-, hs⟩ := Option.ite_none_right_eq_some.mp hs
    split at hs <;> cases hs
    · exact h
    · exact ⟨h.spelled, h.seqs, h.distinct, h.carried, h.requests, h.listings, h.wire⟩
  | timeout =>
    obtain ⟨-, hs⟩ := Option.ite_none_left_eq_some.mp hs
    cases hs
    exact ⟨h.spelled, h.seqs, h.distinct, h.carried, h.requests, h.listings, h.wire⟩
  | server k a =>
    obtain ⟨ha, hs⟩ := Option.ite_none_right_eq_some.mp hs
    obtain ⟨w, hw, hs⟩ := Option.bind_eq_some_iff.mp hs
    obtain ⟨w', hstep, rfl⟩ := Option.map_eq_some_iff.mp hs
    exact h.server hw hstep ha
  | filesList k i pattern sends =>
    obtain ⟨w, hw, hs⟩ := Option.bind_eq_some_iff.mp hs
    obtain ⟨l, hl, hs⟩ := Option.bind_eq_some_iff.mp hs
    obtain ⟨w', hstep, rfl⟩ := Option.map_eq_some_iff.mp hs
    exact h.filesList hw hl hstep hP

/-! ## What the client keeps of them -/

theorem updateSearchResults_apply (results : SearchResults) (files : List Bytes) (ip : UInt32)
    (f : Bytes) : updateSearchResults results files ip f =
      if f ∈ files then some ip else results f := by
  induction files generalizing results with
  | nil => simp [updateSearchResults]
  | cons g files ih =>
    have hcons : updateSearchResults results (g :: files) ip =
        updateSearchResults (Function.update results g (some ip)) files ip := rfl
    rw [hcons, ih, Function.update_apply]
    by_cases hfg : f = g <;> simp [hfg]

/-- The results are of the last search : an entry is the sender of the last datagram that
lists its name. -/
structure Kept (n : Network) : Prop where
  waiting : ∀ seq, n.waiting = .searchResponds seq →
    ∃ s, n.searches.getLast? = some s ∧ s.messageSeq = seq
  received : ∀ d ∈ n.received, d ∈ n.wire
  results : ∀ s, n.searches.getLast? = some s → ∀ f,
    n.lastSearchResults f = (n.lastListing s.messageSeq f).map (·.source.sinAddr)

theorem kept_start (servers : List Server) : Kept (start servers) where
  waiting _ hw := by cases hw
  received _ hd := (List.not_mem_nil hd).elim
  results _ hs := by cases hs

/-- A step that is no call of the client. -/
theorem Kept.of_wire (h : Kept n) {worlds : List World} {wire : List Datagram}
    {handled : List Handled} :
    Kept { n with worlds := worlds, wire := n.wire ++ wire, handled := handled } :=
  ⟨h.waiting, fun d hd => List.mem_append_left _ (h.received d hd), h.results⟩

theorem Kept.receive (h : Kept n) {d : Datagram} (hd : d ∈ n.wire) {seq : UInt64}
    (hw : n.waiting = .searchResponds seq) :
    Kept { n with
      received := n.received ++ [d]
      lastSearchResults := updateSearchResults n.lastSearchResults
        (receiveSearchRespond seq d.payload) d.source.sinAddr } := by
  refine ⟨h.waiting, fun x hx => ?_, fun s hs f => ?_⟩
  · rcases List.mem_append.mp hx with hx | hx
    · exact h.received x hx
    · rwa [List.mem_singleton.mp hx]
  · obtain ⟨t, ht, rfl⟩ := h.waiting seq hw
    obtain rfl : s = t := Option.some.inj (hs.symm.trans ht)
    have hlast := h.results s hs f
    dsimp only
    rw [updateSearchResults_apply, lastListing, List.filter_append]
    by_cases hf : f ∈ receiveSearchRespond s.messageSeq d.payload
    · simp [hf]
    · simpa [hf, lastListing] using hlast

theorem Kept.step (h : Kept n) {a : NetworkAction} (hs : n.step c a = some n') : Kept n' := by
  cases a with
  | search pattern seq ok =>
    obtain ⟨-, hs⟩ := Option.ite_none_right_eq_some.mp hs
    cases hs
    refine ⟨fun seq' hw => ?_, fun d hd => (List.not_mem_nil hd).elim, fun s hs f => rfl⟩
    refine ⟨⟨seq, pattern⟩, by simp, ?_⟩
    dsimp only at hw
    split_ifs at hw <;> exact Waiting.searchResponds.inj hw
  | discover seq ok =>
    obtain ⟨-, hs⟩ := Option.ite_none_right_eq_some.mp hs
    cases hs
    refine ⟨fun seq' hw => ?_, h.received, h.results⟩
    dsimp only at hw
    split_ifs at hw
  | receive d =>
    obtain ⟨hd, hs⟩ := Option.ite_none_right_eq_some.mp hs
    split at hs <;> cases hs
    · exact h
    · rename_i hw
      exact h.receive hd hw
  | timeout =>
    obtain ⟨-, hs⟩ := Option.ite_none_left_eq_some.mp hs
    cases hs
    exact ⟨fun seq hw => (by cases hw), h.received, h.results⟩
  | server k a =>
    obtain ⟨ha, hs⟩ := Option.ite_none_right_eq_some.mp hs
    obtain ⟨w, hw, hs⟩ := Option.bind_eq_some_iff.mp hs
    obtain ⟨w', hstep, rfl⟩ := Option.map_eq_some_iff.mp hs
    exact h.of_wire
  | filesList k i pattern sends =>
    obtain ⟨w, hw, hs⟩ := Option.bind_eq_some_iff.mp hs
    obtain ⟨l, hl, hs⟩ := Option.bind_eq_some_iff.mp hs
    obtain ⟨w', hstep, rfl⟩ := Option.map_eq_some_iff.mp hs
    exact h.of_wire

/-! ## Soundness -/

theorem Traced.sound (h : Traced c n) (hk : Kept n) : n.Sound c := by
  intro s hs f ip hip
  rw [hk.results s hs f] at hip
  obtain ⟨d, hd, rfl⟩ := Option.map_eq_some_iff.mp hip
  obtain ⟨hreceived, hf⟩ := List.mem_filter.mp (List.mem_of_getLast? hd)
  obtain ⟨⟨x, hx, haddress, hseq, hfiles⟩, t, ht, htseq, hpattern⟩ :=
    h.wire d (hk.received d hreceived) _ f (of_decide_eq_true hf)
  obtain rfl : t = s := h.distinct t ht s (List.mem_of_getLast? hs) htseq
  exact ⟨⟨x, hx, by rw [haddress], hseq, hfiles⟩, hpattern, by rw [hd]; rfl⟩

/-- The results are sound in every run whose files lists and patterns can be carried. -/
theorem sound_of_readable {as : List NetworkAction}
    (hn : ∀ s ∈ servers, ∀ f ∈ s.filesInStorage, Sendable f)
    (hr : run (step c) (start servers) as = some n)
    (hP : Along (step c) (Readable c) (start servers) as) : n.Sound c := by
  have hI := run_invariant (fun n => Traced c n ∧ Kept n)
    (fun n a n' h ha hs => ⟨h.1.step ha hs, h.2.step hs⟩)
    ⟨traced_start hn, kept_start servers⟩ hr hP
  exact hI.1.sound hI.2

/-- One server and a client that searches. -/
def oneServer : Site :=
  ⟨⟨1, 1⟩, fun _ => ⟨9, 9⟩, []⟩

/-- Another client adds a name, and the client searches for an `a`. -/
def searchAfterAdd (filename : Bytes) : List NetworkAction :=
  [.server 0 (.receive (addDatagram ⟨2, 2⟩ 1 filename 2)), .server 0 (.upload 0 .checkAndReserveSpace),
    .server 0 (.upload 0 .addFileToStorage), .search [97] 7 true,
    .server 0 (.receive (simpleDatagram ⟨1, 1⟩ 7 filesListRequest [97])),
    .filesList 0 0 [97] [true], .receive ⟨⟨9, 9⟩, listMessage 7 [filename]⟩, .timeout]

theorem oneLine_sound :
    ∃ n, run (step oneServer) (start [.generateFilesInStorage 10 .empty []])
        (searchAfterAdd [97, 98]) = some n ∧
      n.lastSearchResults [97, 98] = some 9 ∧ n.Sound oneServer := by
  obtain ⟨n, hr, hn⟩ : ∃ n, run (step oneServer) (start [.generateFilesInStorage 10 .empty []])
      (searchAfterAdd [97, 98]) = some n ∧ decide (n.lastSearchResults [97, 98] = some 9) :=
    exists_run_of_any _ (by decide)
  exact ⟨n, hr, of_decide_eq_true hn, sound_of_readable (by decide) hr (by decide)⟩

/-- A name of two lines is two entries, of names that the server does not have. -/
theorem twoLines_not_sound :
    ∃ n, run (step oneServer) (start [.generateFilesInStorage 10 .empty []])
        (searchAfterAdd [97, 10, 98]) = some n ∧
      n.waiting = .nothing ∧ ¬n.Sound oneServer := by
  obtain ⟨n, hr, hn⟩ : ∃ n, run (step oneServer) (start [.generateFilesInStorage 10 .empty []])
      (searchAfterAdd [97, 10, 98]) = some n ∧
      decide (n.waiting = .nothing ∧ n.searches.getLast? = some ⟨7, [97]⟩ ∧
        n.lastSearchResults [98] = some 9 ∧ ∀ h ∈ n.handled, [98] ∉ h.filesInStorage) :=
    exists_run_of_any _ (by decide)
  obtain ⟨hwaiting, hlast, hentry, hstored⟩ := of_decide_eq_true hn
  refine ⟨n, hr, hwaiting, fun h => ?_⟩
  obtain ⟨x, hx, -, -, hf⟩ := (h _ hlast _ _ hentry).stored
  exact hstored x hx hf

end Network

end Netstore
