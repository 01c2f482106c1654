import Netstore.Completeness
import Netstore.Replies

/-!
# What a discovery shows

`Client::receive_discover_response` shows every server that answers a discovery, with its multicast
address and its space. In every run, what the client can take for an answer to a discovery are the
announcements that servers have made for it since it was sent, each with the space that the server
had then, and all of them, and it shows nothing else (`discovers_of_run`) : an answer that is late
is not taken for one to a later discovery, and nothing else that a server sends is taken for an
answer.
-/

namespace Netstore

open Transition

/-- The data and the parameter that are shown of a datagram. -/
def receiveDiscoverResponse (expectedMessageSeq : UInt64) (payload : Bytes) :
    Option (Bytes × UInt64) :=
  let (message, messageLength) := recvfrom payload
  match complexMessageValidation message expectedMessageSeq discoverResponse messageLength [] with
  | .ok _ => some (message.complexData, message.param)
  | .error _ => none

/-! ## The answers -/

section Answers

variable {c rest payload s : Bytes} {seq seq' param : UInt64}

theorem isOk_of_receiveDiscoverResponse {shown : Bytes × UInt64}
    (h : receiveDiscoverResponse seq payload = some shown) :
    complexMessageValidation (recvfrom payload).1 seq discoverResponse (recvfrom payload).2 [] =
        .ok () ∧ shown = ((recvfrom payload).1.complexData, (recvfrom payload).1.param) := by
  rw [receiveDiscoverResponse] at h
  dsimp only at h
  split at h
  case h_1 hok =>
    cases h
    exact ⟨hok, rfl⟩
  case h_2 => cases h

/-- A message with another command is no answer. -/
theorem receiveDiscoverResponse_of_command (h0 : (0 : UInt8) ∉ c) (hne : c ≠ discoverResponse)
    (hm : (recvfrom payload).1.command = fillCommand c) :
    receiveDiscoverResponse seq payload = none := by
  by_contra hsome
  obtain ⟨shown, hshown⟩ := Option.ne_none_iff_exists'.mp hsome
  have hval := (isOk_of_receiveDiscoverResponse hshown).1
  have hcommand : isExpectedCommand (fillCommand c) discoverResponse = false := by
    rw [← Bool.not_eq_true]
    exact fun he => hne ((isExpectedCommand_fillCommand h0 (by decide)).mp he).symm
  rw [complexMessageValidation, responseValidation, hm, hcommand] at hval
  simp only [Bool.not_false, if_true] at hval
  split_ifs at hval

theorem receiveDiscoverResponse_of_sendto {n : UInt16} (hc : c.length ≤ maxCommandLength)
    (h0 : (0 : UInt8) ∉ c) (hne : c ≠ discoverResponse)
    (h : sendto (fillCommand c ++ (Bytes.be64 seq ++ rest)) n = some payload) :
    receiveDiscoverResponse seq' payload = none := by
  by_cases hmin : simpleMessageNoDataSize ≤ payload.length
  · obtain ⟨rest', hrest⟩ := exists_append_of_sendto hc h hmin
    refine receiveDiscoverResponse_of_command h0 hne ?_
    rw [recvfrom_of_sendto h, hrest]
    exact command_append hc _
  · have hsmall : payload.length < complexMessageNoDataSize :=
      (Nat.lt_of_not_le hmin).trans (by decide)
    rw [receiveDiscoverResponse, recvfrom_of_sendto h]
    dsimp only
    rw [complexMessageValidation, responseValidation, if_pos hsmall]

/-- A message of a files list is no answer to a discovery. -/
theorem ListsNames.receiveDiscoverResponse_eq {files : SortedSet Bytes} {pattern : Bytes}
    {names : List Bytes} (h : ListsNames files seq pattern payload names) (seq' : UInt64) :
    receiveDiscoverResponse seq' payload = none := by
  have hc : filesListResponse.length ≤ maxCommandLength := by decide
  refine receiveDiscoverResponse_of_command (c := filesListResponse) (by decide) (by decide) ?_
  rw [h.payload_eq, listMessage_eq, recvfrom_simple_append hc h.le]
  exact command_append hc _

/-- A server's answer to a discovery is one to this discovery only. -/
theorem receiveDiscoverResponse_discoverReply (h0 : (0 : UInt8) ∉ s)
    (hs : s.length ≤ maxComplexDataSize) (seq param : UInt64) :
    ∃ payload, discoverReply seq s param = some payload ∧ ∀ seq',
      receiveDiscoverResponse seq' payload = if seq' = seq then some (s, param) else none := by
  have hc : discoverResponse.length ≤ maxCommandLength := by decide
  have hread : ReadAsComplex (fillCommand discoverResponse ++
      (Bytes.be64 seq ++ (Bytes.be64 param ++ s))) seq discoverResponse s param :=
    readAsComplex_append hc (by decide) param h0 hs
  obtain ⟨hvalid, hdata, hparam⟩ := hread
  refine ⟨_, sendComplex_complexMessage hc seq param h0 hs, fun seq' => ?_⟩
  have hiff := @hvalid seq' discoverResponse [] (by decide) hc
  split_ifs with hseq
  · rw [receiveDiscoverResponse]
    dsimp only
    rw [hiff.mpr ⟨hseq, rfl, Or.inl rfl⟩]
    exact congrArg some (Prod.ext hdata hparam)
  · by_contra hsome
    obtain ⟨shown, hshown⟩ := Option.ne_none_iff_exists'.mp hsome
    exact hseq (hiff.mp (isOk_of_receiveDiscoverResponse hshown).1).1

end Answers

/-! ## The servers -/

namespace World

variable {w w' : World} {a : Action} {multicastAddress : Bytes}

/-- Of what a step sends, but for a files list, only an answer to a discovery is one. -/
theorem receiveDiscoverResponse_of_mem_sends {m : SockAddr × Bytes}
    (hm : m ∈ w.sends multicastAddress a) (ha : a ≠ .discover true) (seq : UInt64) :
    receiveDiscoverResponse seq m.2 = none := by
  obtain ⟨c, hc, hdiscover, seq', rest, n, hp⟩ := exists_command_of_mem_sends hm
  have hcommands : ∀ c ∈ [discoverResponse, fileAddAcceptance, fileAddRefusal, fileGetResponse],
      c.length ≤ maxCommandLength ∧ (0 : UInt8) ∉ c := by decide
  obtain ⟨hlen, h0⟩ := hcommands c hc
  exact receiveDiscoverResponse_of_sendto hlen h0 (fun he => ha (hdiscover he)) hp

theorem discovering_of_discover {ok : Bool} (hs : w.step (.discover ok) = some w') :
    ∃ source seq, w.loop = .discovering source seq := by
  cases move_of_step hs with
  | stay call => simp at call
  | discovered loop => exact ⟨_, _, loop⟩

/-- The loop answers a discovery that it has received. -/
theorem discovering_of_step {source : SockAddr} {seq : UInt64} (hs : w.step a = some w')
    (hloop : w'.loop = .discovering source seq) : w.loop = .discovering source seq ∨
      ∃ d, a = .receive d ∧ d.source = source ∧
        Netstore.receive d.payload = .ok (some (.discover seq)) := by
  cases move_of_step hs with
  | stay call => exact Or.inl hloop
  | @start d r idle request =>
    cases r with
    | discover seq' =>
      cases hloop
      exact Or.inr ⟨d, rfl, rfl, request⟩
    | filesList | upload => exact Or.inl hloop
    | file seq' f =>
      unfold start at hloop
      dsimp only at hloop
      split_ifs at hloop <;> exact Or.inl hloop
    | remove f =>
      unfold start at hloop
      dsimp only at hloop
      split_ifs at hloop
  | discovered loop => cases hloop
  | removal loop next =>
    cases removeNext_cases next with
    | _ => cases hloop
  | upload thread next => exact Or.inl hloop
  | download thread next => exact Or.inl hloop
  | list thread running => exact Or.inl hloop

end World

/-! ## The network -/

/-- What a server has announced to the client. -/
structure Announcement where
  server : ℕ
  messageSeq : UInt64
  /-- The space that the server had. -/
  availableSpace : UInt64
  deriving DecidableEq

/-- What the client shows for a discovery. -/
structure Shown where
  messageSeq : UInt64
  serverIp : UInt32
  multicastAddress : Bytes
  availableSpace : UInt64
  deriving DecidableEq

namespace Network

/-- What a step announces to the client. -/
def announces (c : Site) (n : Network) : NetworkAction → List Announcement
  | .server k (.discover true) =>
    n.worlds[k]?.elim [] fun w =>
      match w.loop with
      | .discovering source messageSeq =>
        if source = c.source then [⟨k, messageSeq, w.server.getAvailableSpace⟩] else []
      | _ => []
  | _ => []

/-- What `receive_discover_response` shows of a datagram. -/
def shows (n : Network) : NetworkAction → List Shown
  | .receive d =>
    -- the client has used no other sequence number since it sent the discovery
    match n.waiting, n.messageSeqs.getLast? with
    | .discoverResponses, some messageSeq =>
      (receiveDiscoverResponse messageSeq d.payload).toList.map fun shown =>
        ⟨messageSeq, d.source.sinAddr, shown.1, shown.2⟩
    | _, _ => []
  | _ => []

/-- What is shown of an announcement. -/
def shownOf (c : Site) (x : Announcement) : Shown :=
  ⟨x.messageSeq, (c.address x.server).sinAddr, c.multicastAddress, x.availableSpace⟩

/-- What the client can take for an answer to the discovery with the sequence number is what the
servers have announced for it since `n₁`, and what it shows for it is of these. -/
structure Discovers (c : Site) (seq : UInt64) (n₁ : Network) (as : List NetworkAction)
    (n : Network) : Prop where
  announced : ∀ d ∈ n.wire, ∀ shown, receiveDiscoverResponse seq d.payload = some shown →
    ∃ x ∈ (trace (step c) (announces c) n₁ as).flatten, x.messageSeq = seq ∧
      d.source = c.address x.server ∧ shown = (c.multicastAddress, x.availableSpace)
  answered : ∀ x ∈ (trace (step c) (announces c) n₁ as).flatten, x.messageSeq = seq →
    ∃ d ∈ n.wire, d.source = c.address x.server ∧
      receiveDiscoverResponse seq d.payload = some (c.multicastAddress, x.availableSpace)
  shown : ∀ y ∈ (trace (step c) shows n₁ as).flatten, y.messageSeq = seq →
    ∃ x ∈ (trace (step c) (announces c) n₁ as).flatten, y = shownOf c x

/-- What the servers have announced, and what is on the wire of it. -/
structure Announced (c : Site) (xs : List Announcement) (n : Network) : Prop where
  spelled : ∀ w ∈ n.worlds, w.Spelled
  requests : ∀ d ∈ n.requests, ∃ seq ∈ n.messageSeqs, ∃ command s,
    command.length ≤ maxCommandLength ∧ simpleRequest seq command s = some d.payload
  loops : ∀ w ∈ n.worlds, ∀ seq, w.loop = .discovering c.source seq → seq ∈ n.messageSeqs
  seqs : ∀ x ∈ xs, x.messageSeq ∈ n.messageSeqs
  announced : ∀ d ∈ n.wire, ∀ seq shown, receiveDiscoverResponse seq d.payload = some shown →
    ∃ x ∈ xs, x.messageSeq = seq ∧ d.source = c.address x.server ∧
      shown = (c.multicastAddress, x.availableSpace)
  answered : ∀ x ∈ xs, ∃ d ∈ n.wire, d.source = c.address x.server ∧
    receiveDiscoverResponse x.messageSeq d.payload = some (c.multicastAddress, x.availableSpace)

variable {c : Site} {n n' : Network} {servers : List Server} {xs : List Announcement}

theorem announced_start (hn : ∀ s ∈ servers, ∀ f ∈ s.filesInStorage, Sendable f) :
    Announced c [] (start servers) where
  spelled w hw := by
    obtain ⟨s, hs, rfl⟩ := List.mem_map.mp hw
    exact World.spelled_initial (hn s hs)
  requests _ hd := (List.not_mem_nil hd).elim
  loops w hw seq hloop := by
    obtain ⟨s, -, rfl⟩ := List.mem_map.mp hw
    cases hloop
  seqs _ hx := (List.not_mem_nil hx).elim
  announced _ hd := (List.not_mem_nil hd).elim
  answered _ hx := (List.not_mem_nil hx).elim

/-- A call of the client changes no server, and may send a request with a new number. -/
theorem Announced.of_client (h : Announced c xs n) (worlds : n'.worlds = n.worlds)
    (wire : n'.wire = n.wire) (hseqs : ∀ seq ∈ n.messageSeqs, seq ∈ n'.messageSeqs)
    (hrequests : ∀ d ∈ n'.requests, d ∈ n.requests ∨ ∃ seq ∈ n'.messageSeqs, ∃ command s,
      command.length ≤ maxCommandLength ∧ simpleRequest seq command s = some d.payload) :
    Announced c xs n' where
  spelled := worlds ▸ h.spelled
  requests d hd := by
    rcases hrequests d hd with hd | hnew
    · obtain ⟨seq, hseq, hsent⟩ := h.requests d hd
      exact ⟨seq, hseqs seq hseq, hsent⟩
    · exact hnew
  loops w hw seq hloop := hseqs seq (h.loops w (worlds ▸ hw) seq hloop)
  seqs x hx := hseqs _ (h.seqs x hx)
  announced := wire ▸ h.announced
  answered := wire ▸ h.answered

/-- A request that is sent has the new sequence number. -/
theorem mem_requests_of_sent {d : Datagram} {seqs : List UInt64} {seq : UInt64}
    {command s : Bytes} {ok : Bool} (hc : command.length ≤ maxCommandLength)
    (hd : d ∈ n.requests ++
      (if ok then simpleRequest seq command s else none).toList.map (⟨c.source, ·⟩)) :
    d ∈ n.requests ∨ ∃ seq' ∈ seqs ++ [seq], ∃ command s,
      command.length ≤ maxCommandLength ∧ simpleRequest seq' command s = some d.payload := by
  refine (List.mem_append.mp hd).imp_right fun hd => ?_
  obtain ⟨payload, hpayload, rfl⟩ := List.mem_map.mp hd
  obtain ⟨-, hsent⟩ := Option.ite_none_right_eq_some.mp (Option.mem_toList.mp hpayload)
  exact ⟨seq, List.mem_append_right _ (List.mem_singleton_self _), command, s, hc, hsent⟩

/-- What a server sends is answers exactly to the discoveries that it announces. -/
structure Sends (c : Site) (k : ℕ) (sent : List (SockAddr × Bytes)) (ys : List Announcement) :
    Prop where
  announced : ∀ m ∈ sent, m.1 = c.source → ∀ seq shown,
    receiveDiscoverResponse seq m.2 = some shown →
      ∃ y ∈ ys, y.messageSeq = seq ∧ shown = (c.multicastAddress, y.availableSpace)
  answered : ∀ y ∈ ys, ∃ m ∈ sent, m.1 = c.source ∧
    receiveDiscoverResponse y.messageSeq m.2 = some (c.multicastAddress, y.availableSpace)
  server : ∀ y ∈ ys, y.server = k

/-- What is no answer to a discovery announces nothing. -/
theorem Sends.of_none {k : ℕ} {sent : List (SockAddr × Bytes)}
    (h : ∀ m ∈ sent, ∀ seq, receiveDiscoverResponse seq m.2 = none) : Sends c k sent [] where
  announced m hm _ seq shown hshown := by cases (h m hm seq).symm.trans hshown
  answered _ hy := (List.not_mem_nil hy).elim
  server _ hy := (List.not_mem_nil hy).elim

/-- An answer of the loop announces the space that the server has. -/
theorem Sends.of_discovering {k : ℕ} {w : World} {source : SockAddr} {seq : UInt64}
    (h0 : (0 : UInt8) ∉ c.multicastAddress) (hlen : c.multicastAddress.length ≤ maxComplexDataSize)
    (hloop : w.loop = .discovering source seq) :
    Sends c k (w.sends c.multicastAddress (.discover true))
      (if source = c.source then [⟨k, seq, w.server.getAvailableSpace⟩] else []) := by
  obtain ⟨payload, hpayload, hanswer⟩ :=
    receiveDiscoverResponse_discoverReply h0 hlen seq w.server.getAvailableSpace
  have hsends : w.sends c.multicastAddress (.discover true) = [(source, payload)] := by
    simp only [World.sends, hloop, hpayload, Option.toList_some, List.map_singleton]
  rw [hsends]
  refine ⟨fun m hm hdest seq' shown hshown => ?_, fun y hy => ?_, fun y hy => ?_⟩
  · obtain rfl := List.mem_singleton.mp hm
    rw [hanswer] at hshown
    obtain ⟨rfl, heq⟩ := Option.ite_none_right_eq_some.mp hshown
    rw [if_pos hdest]
    exact ⟨_, List.mem_singleton_self _, rfl, (Option.some.inj heq).symm⟩
  · split_ifs at hy with hsource
    · obtain rfl := List.mem_singleton.mp hy
      refine ⟨_, List.mem_singleton_self _, hsource, ?_⟩
      rw [hanswer, if_pos rfl]
    · cases hy
  · split_ifs at hy
    · rw [List.mem_singleton.mp hy]
    · cases hy

/-- A step of a server. -/
theorem Announced.of_server (h : Announced c xs n) {k : ℕ} {w w' : World} {a : Action}
    {sent : List (SockAddr × Bytes)} {ys : List Announcement} (hw : n.worlds[k]? = some w)
    (hs : w.step a = some w') (ha : ∀ d, a = .receive d → d.source = c.source → d ∈ n.requests)
    (hsent : Sends c k sent ys) (hys : ∀ y ∈ ys, y.messageSeq ∈ n.messageSeqs)
    (worlds : n'.worlds = n.worlds.set k w') (wire : n'.wire = n.wire ++ c.arriving k sent)
    (requests : n'.requests = n.requests) (messageSeqs : n'.messageSeqs = n.messageSeqs) :
    Announced c (xs ++ ys) n' where
  spelled v hv := by
    rcases mem_set_of_getElem? hw (worlds ▸ hv) with rfl | ⟨j, -, hj⟩
    · exact (h.spelled w (List.mem_of_getElem? hw)).step hs
    · exact h.spelled v (List.mem_of_getElem? hj)
  requests := by
    rw [requests, messageSeqs]
    exact h.requests
  loops v hv seq hloop := by
    rw [messageSeqs]
    rcases mem_set_of_getElem? hw (worlds ▸ hv) with rfl | ⟨j, -, hj⟩
    · rcases World.discovering_of_step hs hloop with hloop | ⟨d, rfl, hsource, hr⟩
      · exact h.loops w (List.mem_of_getElem? hw) seq hloop
      · obtain ⟨seq', hseq, command, s, hc, hp⟩ := h.requests d (ha d rfl hsource)
        exact discover_of_request hc hp hr ▸ hseq
    · exact h.loops v (List.mem_of_getElem? hj) seq hloop
  seqs x hx := by
    rw [messageSeqs]
    rcases List.mem_append.mp hx with hx | hx
    · exact h.seqs x hx
    · exact hys x hx
  announced d hd seq shown hshown := by
    rw [wire] at hd
    rcases List.mem_append.mp hd with hd | hd
    · obtain ⟨x, hx, hfound⟩ := h.announced d hd seq shown hshown
      exact ⟨x, List.mem_append_left _ hx, hfound⟩
    · obtain ⟨m, hm, rfl⟩ := List.mem_map.mp hd
      obtain ⟨hm, hdest⟩ := List.mem_filter.mp hm
      obtain ⟨y, hy, hseq, hspace⟩ :=
        hsent.announced m hm (of_decide_eq_true hdest) seq shown hshown
      exact ⟨y, List.mem_append_right _ hy, hseq, by rw [hsent.server y hy], hspace⟩
  answered x hx := by
    rw [wire]
    rcases List.mem_append.mp hx with hx | hx
    · obtain ⟨d, hd, hanswer⟩ := h.answered x hx
      exact ⟨d, List.mem_append_left _ hd, hanswer⟩
    · obtain ⟨m, hm, hdest, hanswer⟩ := hsent.answered x hx
      refine ⟨⟨c.address k, m.2⟩, List.mem_append_right _ ?_, by rw [hsent.server x hx], hanswer⟩
      exact List.mem_map_of_mem (List.mem_filter.mpr ⟨hm, decide_eq_true hdest⟩)

theorem Announced.server (h : Announced c xs n) (h0 : (0 : UInt8) ∉ c.multicastAddress)
    (hlen : c.multicastAddress.length ≤ maxComplexDataSize) {k : ℕ} {w w' : World} {a : Action}
    (hw : n.worlds[k]? = some w) (hs : w.step a = some w') (ha : n.delivers c a) :
    Announced c (xs ++ announces c n (.server k a)) { n with
      worlds := n.worlds.set k w'
      wire := n.wire ++ c.arriving k (w.sends c.multicastAddress a) } := by
  have hreceive : ∀ d, a = .receive d → d.source = c.source → d ∈ n.requests := by
    rintro d rfl hsource
    simpa [delivers, hsource] using ha
  by_cases hdiscover : a = .discover true
  · subst hdiscover
    obtain ⟨source, seq, hloop⟩ := World.discovering_of_discover hs
    have hannounces : announces c n (.server k (.discover true)) =
        if source = c.source then [⟨k, seq, w.server.getAvailableSpace⟩] else [] := by
      simp only [announces, hw, Option.elim_some, hloop]
    rw [hannounces]
    refine h.of_server hw hs hreceive (Sends.of_discovering h0 hlen hloop) (fun y hy => ?_)
      rfl rfl rfl rfl
    split_ifs at hy with hsource
    · rw [List.mem_singleton.mp hy]
      exact h.loops w (List.mem_of_getElem? hw) seq (hsource ▸ hloop)
    · cases hy
  · have hannounces : announces c n (.server k a) = [] := by
      unfold announces
      split
      · rename_i heq
        cases heq
        exact (hdiscover rfl).elim
      · rfl
    rw [hannounces]
    exact h.of_server hw hs hreceive
      (Sends.of_none fun m hm => World.receiveDiscoverResponse_of_mem_sends hm hdiscover)
      (fun _ hy => (List.not_mem_nil hy).elim) rfl rfl rfl rfl

theorem Announced.step (h : Announced c xs n) (h0 : (0 : UInt8) ∉ c.multicastAddress)
    (hlen : c.multicastAddress.length ≤ maxComplexDataSize) {a : NetworkAction}
    (hs : n.step c a = some n') : Announced c (xs ++ announces c n a) n' := by
  have hnone : ∀ {n'}, Announced c xs n' → Announced c (xs ++ []) n' := fun h => by
    rwa [List.append_nil]
  cases a with
  | search pattern seq ok =>
    obtain ⟨-, hs⟩ := Option.ite_none_right_eq_some.mp hs
    cases hs
    exact hnone (h.of_client rfl rfl (fun _ => List.mem_append_left _)
      fun d => mem_requests_of_sent (by decide))
  | discover seq ok =>
    obtain ⟨-, hs⟩ := Option.ite_none_right_eq_some.mp hs
    cases hs
    exact hnone (h.of_client rfl rfl (fun _ => List.mem_append_left _)
      fun d => mem_requests_of_sent (by decide))
  | receive d =>
    obtain ⟨-, hs⟩ := Option.ite_none_right_eq_some.mp hs
    split at hs <;> cases hs <;> exact hnone (h.of_client rfl rfl (fun _ => id) fun _ => Or.inl)
  | timeout =>
    obtain ⟨-, hs⟩ := Option.ite_none_left_eq_some.mp hs
    cases hs
    exact hnone (h.of_client rfl rfl (fun _ => id) fun _ => Or.inl)
  | server k a =>
    obtain ⟨ha, hs⟩ := Option.ite_none_right_eq_some.mp hs
    obtain ⟨w, hw, hs⟩ := Option.bind_eq_some_iff.mp hs
    obtain ⟨w', hstep, rfl⟩ := Option.map_eq_some_iff.mp hs
    exact h.server h0 hlen hw hstep ha
  | filesList k i pattern sends =>
    obtain ⟨w, hw, hs⟩ := Option.bind_eq_some_iff.mp hs
    obtain ⟨l, -, hs⟩ := Option.bind_eq_some_iff.mp hs
    obtain ⟨w', hstep, rfl⟩ := Option.map_eq_some_iff.mp hs
    refine h.of_server hw hstep (fun d hd => by cases hd) (Sends.of_none fun m hm => ?_)
      (fun _ hy => (List.not_mem_nil hy).elim) rfl rfl rfl rfl
    obtain ⟨payload, hpayload, rfl⟩ := List.mem_map.mp hm
    obtain ⟨names, hnames⟩ :=
      listsNames_of_mem (h.spelled w (List.mem_of_getElem? hw)).index (mem_of_mem_sentOf hpayload)
    exact hnames.receiveDiscoverResponse_eq

/-- What a step shows has been announced. -/
theorem Announced.shows (h : Announced c xs n) {a : NetworkAction} (hs : n.step c a = some n') :
    ∀ y ∈ n.shows a, ∃ x ∈ xs, y = shownOf c x := by
  intro y hy
  cases a with
  | receive d =>
    obtain ⟨hd, -⟩ := Option.ite_none_right_eq_some.mp hs
    rw [Network.shows] at hy
    split at hy
    · obtain ⟨shown, hshown, rfl⟩ := List.mem_map.mp hy
      obtain ⟨x, hx, rfl, haddress, rfl⟩ := h.announced d hd _ shown (Option.mem_toList.mp hshown)
      exact ⟨x, hx, by rw [shownOf, haddress]⟩
    · cases hy
  | _ => cases hy

/-! ## Runs -/

theorem announced_of_run {as : List NetworkAction}
    (hn : ∀ s ∈ servers, ∀ f ∈ s.filesInStorage, Sendable f)
    (h0 : (0 : UInt8) ∉ c.multicastAddress)
    (hlen : c.multicastAddress.length ≤ maxComplexDataSize)
    (hr : run (step c) (start servers) as = some n) :
    Announced c (trace (step c) (announces c) (start servers) as).flatten n :=
  run_induction_trace (announces c) hr (along_true _ _) (Announced c) (announced_start hn)
    fun _ _ _ _ h _ hs => h.step h0 hlen hs

theorem shown_of_run {as : List NetworkAction}
    (hn : ∀ s ∈ servers, ∀ f ∈ s.filesInStorage, Sendable f)
    (h0 : (0 : UInt8) ∉ c.multicastAddress)
    (hlen : c.multicastAddress.length ≤ maxComplexDataSize)
    (hr : run (step c) (start servers) as = some n) :
    ∀ y ∈ (trace (step c) shows (start servers) as).flatten,
      ∃ x ∈ (trace (step c) (announces c) (start servers) as).flatten, y = shownOf c x := by
  refine run_induction_all (fun as n => ∀ y ∈ (trace (step c) shows (start servers) as).flatten,
    ∃ x ∈ (trace (step c) (announces c) (start servers) as).flatten, y = shownOf c x)
    (fun y hy => (List.not_mem_nil hy).elim) (fun as n a n' hr ih hs y hy => ?_) hr
  rw [trace_concat _ hr, List.flatten_append, List.flatten_singleton] at hy ⊢
  have hfound : ∃ x ∈ (trace (step c) (announces c) (start servers) as).flatten,
      y = shownOf c x := by
    rcases List.mem_append.mp hy with hy | hy
    · exact ih y hy
    · exact (announced_of_run hn h0 hlen hr).shows hs y hy
  obtain ⟨x, hx, hy⟩ := hfound
  exact ⟨x, List.mem_append_left _ hx, hy⟩

/-- In every run, what the client can take for an answer to a discovery are the announcements
that servers have made for it since, and all of them ; and it shows nothing else for it. -/
theorem discovers_of_run {as bs : List NetworkAction} {n₁ : Network} {seq : UInt64} {ok : Bool}
    (hn : ∀ s ∈ servers, ∀ f ∈ s.filesInStorage, Sendable f)
    (h0 : (0 : UInt8) ∉ c.multicastAddress)
    (hlen : c.multicastAddress.length ≤ maxComplexDataSize)
    (h₁ : run (step c) (start servers) as = some n₁)
    (hr : run (step c) n₁ (.discover seq ok :: bs) = some n) :
    Discovers c seq n₁ (.discover seq ok :: bs) n := by
  have hrun : run (step c) (start servers) (as ++ .discover seq ok :: bs) = some n := by
    rw [run_append, h₁]
    exact hr
  have hbefore := announced_of_run hn h0 hlen h₁
  have hall := announced_of_run hn h0 hlen hrun
  have hshows := shown_of_run hn h0 hlen hrun
  rw [trace_append (announces c) h₁, List.flatten_append] at hall hshows
  rw [trace_append shows h₁, List.flatten_append] at hshows
  have hfresh : seq ∉ n₁.messageSeqs := by
    rw [run_cons] at hr
    obtain ⟨n₂, hdiscover, -⟩ := Option.bind_eq_some_iff.mp hr
    exact (Option.ite_none_right_eq_some.mp hdiscover).1.2
  -- an announcement for the discovery is none from before it was sent
  have hlater : ∀ x ∈ (trace (step c) (announces c) (start servers) as).flatten ++
      (trace (step c) (announces c) n₁ (.discover seq ok :: bs)).flatten, x.messageSeq = seq →
      x ∈ (trace (step c) (announces c) n₁ (.discover seq ok :: bs)).flatten := by
    intro x hx hseq
    refine (List.mem_append.mp hx).resolve_left fun hx => hfresh ?_
    exact hseq ▸ hbefore.seqs x hx
  refine ⟨fun d hd shown hshown => ?_, fun x hx hseq => ?_, fun y hy hseq => ?_⟩
  · obtain ⟨x, hx, hseq, hfound⟩ := hall.announced d hd seq shown hshown
    exact ⟨x, hlater x hx hseq, hseq, hfound⟩
  · subst hseq
    exact hall.answered x (List.mem_append_right _ hx)
  · obtain ⟨x, hx, rfl⟩ := hshows y (List.mem_append_right _ hy)
    exact ⟨x, hlater x hx hseq, rfl⟩

/-- One server of a multicast group. -/
def groupServer : Site :=
  { oneServer with multicastAddress := ascii ['2', '3', '9', '.', '1', '.', '1', '.', '1'] }

/-- The answer to a discovery comes after the next one has been sent. -/
def lateAnswer : List NetworkAction :=
  ([7, 8].flatMap fun messageSeq =>
      [.server 0 (.receive (simpleDatagram ⟨1, 1⟩ messageSeq discoverRequest [])),
        .server 0 (.discover true)]) ++
    [7, 8].filterMap fun messageSeq =>
      (discoverReply messageSeq groupServer.multicastAddress 10).map fun payload =>
        .receive ⟨⟨9, 9⟩, payload⟩

theorem lateAnswer_discovers :
    ∃ n₁, run (step groupServer) (start [.generateFilesInStorage 10 .empty []])
        [.discover 7 true, .timeout] = some n₁ ∧
      ∃ n, run (step groupServer) n₁ (.discover 8 true :: lateAnswer) = some n ∧
        n.wire.length = 2 ∧
        (trace (step groupServer) shows n₁ (.discover 8 true :: lateAnswer)).flatten =
          [⟨8, 9, groupServer.multicastAddress, 10⟩] ∧
        Discovers groupServer 8 n₁ (.discover 8 true :: lateAnswer) n := by
  obtain ⟨n₁, h₁, h⟩ : ∃ n₁, run (step groupServer) (start [.generateFilesInStorage 10 .empty []])
        [.discover 7 true, .timeout] = some n₁ ∧
      decide ((run (step groupServer) n₁ (.discover 8 true :: lateAnswer)).any
          (·.wire.length = 2) ∧
        (trace (step groupServer) shows n₁ (.discover 8 true :: lateAnswer)).flatten =
          [⟨8, 9, groupServer.multicastAddress, 10⟩]) :=
    exists_run_of_any _ (by decide)
  obtain ⟨hany, hshows⟩ := of_decide_eq_true h
  obtain ⟨n, hr, hn⟩ := exists_run_of_any _ hany
  exact ⟨n₁, h₁, n, hr, of_decide_eq_true hn, hshows,
    discovers_of_run (by decide) (by decide) (by decide) h₁ hr⟩

end Network

end Netstore
