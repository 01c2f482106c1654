import Netstore.Search

/-!
# What a search finds

A files list leaves out one name for each message that it sends because the next name does not
fit (`listLoses`), so of the names that match at least 255 in 256 reach a client that receives
every message. A client that receives all that a server has sent it for its last search has
every name that the server found and listed in its results, whatever else it was sent, and
however often it has searched before (`complete_of_readable`).
-/

namespace Netstore

/-! ## The names that a files list leaves out -/

section Losses

variable {names cur : List Bytes} {ps : List (List Bytes)} {files : SortedSet Bytes}
  {messageSeq : UInt64} {pattern : Bytes}

/-- A name is packed, or a message is full and the name is left out. -/
theorem length_foldl_packName (p : List (List Bytes) × List Bytes) (names : List Bytes) :
    (names.foldl packName p).1.flatten.length + (names.foldl packName p).2.length +
      (names.foldl packName p).1.length =
        p.1.flatten.length + p.2.length + p.1.length + names.length := by
  induction names generalizing p with
  | nil => rfl
  | cons f names ih =>
    rw [List.foldl_cons, ih]
    unfold packName
    split_ifs <;> simp <;> omega

/-- A message that is full has at least 255 names. -/
theorem length_of_full {cur : List Bytes} {f : Bytes} (hcur : ∀ g ∈ cur, g.length ≤ 255)
    (hf : f.length ≤ 255)
    (hfull : ¬maxSimpleDataSize > (Bytes.joinLines cur).length + f.length) :
    255 ≤ cur.length := by
  have hmax : maxSimpleDataSize = 65489 := rfl
  have hne : cur ≠ [] := by
    rintro rfl
    simp only [Bytes.joinLines_nil, List.length_nil] at hfull
    omega
  have hsum : (cur.map fun s => s.length + 1).sum ≤ cur.length * 256 := by
    have := List.sum_le_card_nsmul (cur.map fun s => s.length + 1) 256 fun n hn => by
      obtain ⟨g, hg, rfl⟩ := List.mem_map.mp hn
      have := hcur g hg
      omega
    simpa using this
  have hlines := Bytes.length_joinLines hne
  omega

theorem length_of_mem_foldl_packName (p : List (List Bytes) × List Bytes)
    (hp : ∀ l ∈ p.1, 255 ≤ l.length) (hcur : ∀ g ∈ p.2, g.length ≤ 255)
    (hn : ∀ f ∈ names, f.length ≤ 255) :
    ∀ l ∈ (names.foldl packName p).1, 255 ≤ l.length := by
  induction names generalizing p with
  | nil => exact hp
  | cons f names ih =>
    have hf := hn f (List.mem_cons_self ..)
    rw [List.foldl_cons]
    refine ih (packName p f) ?_ ?_ fun g hg => hn g (List.mem_cons_of_mem _ hg)
    · unfold packName
      split_ifs with hfit
      · exact hp
      · intro l hl
        rcases List.mem_append.mp hl with hl | hl
        · exact hp l hl
        · rw [List.mem_singleton.mp hl]
          exact length_of_full hcur hf hfit
    · unfold packName
      split_ifs
      · intro g hg
        rcases List.mem_append.mp hg with hg | hg
        · exact hcur g hg
        · rwa [List.mem_singleton.mp hg]
      · simp

/-- What a client that receives a files list gets of the names that contain the pattern, when
so many messages are sent. -/
structure ListLoses (files : SortedSet Bytes) (pattern : Bytes) (received : List Bytes)
    (sent : ℕ) : Prop where
  sublist : received.Sublist (matching files pattern)
  /-- A name is left out for each message, but perhaps for the last. -/
  lost : (matching files pattern).length = received.length + sent ∨
    (matching files pattern).length + 1 = received.length + sent
  most : 255 * (matching files pattern).length ≤ 256 * received.length

theorem ListLoses.of_pack (hn : ∀ f ∈ files, Listable f) : ListLoses files pattern
    (pack (matching files pattern)).flatten (pack (matching files pattern)).length := by
  have hle : ∀ f ∈ matching files pattern, f.length ≤ 255 :=
    fun f hf => (hn f (mem_matching.mp hf).1).length_le
  have hsub := flatten_foldl_packName_sublist ([], []) (matching files pattern)
  have hlen := length_foldl_packName ([], []) (matching files pattern)
  have hfull := length_of_mem_foldl_packName ([], []) (fun l hl => (List.not_mem_nil hl).elim)
    (fun g hg => (List.not_mem_nil hg).elim) hle
  rw [← flatten_pack] at hsub
  have hpack := congrArg List.length (flatten_pack (matching files pattern))
  rw [List.length_append] at hpack
  refine ⟨by simpa using hsub, ?_, ?_⟩
  · unfold pack at hpack ⊢
    dsimp only at hpack ⊢
    split_ifs with hlast
    · rw [if_pos hlast] at hpack
      simp only [List.flatten_nil, List.length_nil] at hlen
      omega
    · rw [if_neg hlast] at hpack
      simp only [List.flatten_nil, List.length_nil] at hlen
      rw [List.length_append, List.length_singleton]
      omega
  · have hsum : ((matching files pattern).foldl packName ([], [])).1.length * 255 ≤
        ((matching files pattern).foldl packName ([], [])).1.flatten.length := by
      rw [List.length_flatten]
      have := List.card_nsmul_le_sum
        (((matching files pattern).foldl packName ([], [])).1.map List.length) 255 fun n hn => by
          obtain ⟨l, hl, rfl⟩ := List.mem_map.mp hn
          exact hfull l hl
      simpa using this
    simp only [List.flatten_nil, List.length_nil] at hlen
    omega

/-- A files list of names that can be listed loses at most one name in 256. -/
theorem listLoses (hn : ∀ f ∈ files, Listable f) : ListLoses files pattern
    ((handleFilesListRequest files messageSeq pattern).flatMap (receiveSearchRespond messageSeq))
    (handleFilesListRequest files messageSeq pattern).length := by
  rw [flatMap_receiveSearchRespond hn, (handleFilesListRequest_eq hn).1, List.length_map]
  exact ListLoses.of_pack hn

end Losses

theorem twoNames_listLoses : ListLoses (SortedSet.ofList [[97], [98]]) []
    ((handleFilesListRequest (SortedSet.ofList [[97], [98]]) 7 []).flatMap (receiveSearchRespond 7))
    (handleFilesListRequest (SortedSet.ofList [[97], [98]]) 7 []).length :=
  listLoses (by decide)

/-! ## What a step can do to the network -/

/-- All messages for the search could be sent. -/
def Handled.Sent (h : Handled) (s : Search) : Prop :=
  sentOf (handleFilesListRequest h.filesInStorage s.messageSeq s.pattern) h.sends =
    handleFilesListRequest h.filesInStorage s.messageSeq s.pattern

instance (h : Handled) (s : Search) : Decidable (h.Sent s) :=
  inferInstanceAs (Decidable (_ = _))

/-- The step that the server with the index makes. -/
def NetworkAction.onServer (k : ℕ) : NetworkAction → Option Action
  | .server j a => if j = k then some a else none
  | .filesList j i _ sends => if j = k then some (.filesList i sends) else none
  | _ => none

namespace Network

open Transition

/-- What a step can do to the servers, the wire and the searches. -/
inductive StepCase (c : Site) (n : Network) : NetworkAction → Network → Prop
  | search {pattern seq ok n'} (fresh : seq ∉ n.messageSeqs) (worlds : n'.worlds = n.worlds)
      (wire : n'.wire = n.wire) (handled : n'.handled = n.handled)
      (searches : n'.searches = n.searches ++ [⟨seq, pattern⟩]) :
      StepCase c n (.search pattern seq ok) n'
  | client {a n'} (call : ∀ k, a.onServer k = none) (worlds : n'.worlds = n.worlds)
      (wire : n'.wire = n.wire) (handled : n'.handled = n.handled)
      (searches : n'.searches = n.searches) : StepCase c n a n'
  | server {k a w w' n'} (world : n.worlds[k]? = some w) (step : w.step a = some w')
      (worlds : n'.worlds = n.worlds.set k w')
      (wire : n'.wire = n.wire ++ c.arriving k (w.sends c.multicastAddress a))
      (handled : n'.handled = n.handled) (searches : n'.searches = n.searches) :
      StepCase c n (.server k a) n'
  | filesList {k i pattern sends w l w' n'} (world : n.worlds[k]? = some w)
      (listing : w.listings[i]? = some l) (step : w.step (.filesList i sends) = some w')
      (worlds : n'.worlds = n.worlds.set k w')
      (wire : n'.wire = n.wire ++ c.arriving k
        ((sentOf (handleFilesListRequest w.server.filesInStorage l.messageSeq pattern) sends).map
          (l.destinationAddress, ·)))
      (handled : n'.handled = n.handled ++ if l.destinationAddress = c.source then
        [⟨k, l.messageSeq, w.server.filesInStorage, sends⟩] else [])
      (searches : n'.searches = n.searches) : StepCase c n (.filesList k i pattern sends) n'

theorem step_cases {c : Site} {n n' : Network} {a : NetworkAction} (h : n.step c a = some n') :
    StepCase c n a n' := by
  cases a with
  | search pattern seq ok =>
    obtain ⟨hnew, h⟩ := Option.ite_none_right_eq_some.mp h
    cases h
    exact .search hnew.2 rfl rfl rfl rfl
  | discover seq ok =>
    obtain ⟨-, h⟩ := Option.ite_none_right_eq_some.mp h
    cases h
    exact .client (fun _ => rfl) rfl rfl rfl rfl
  | receive d =>
    obtain ⟨-, h⟩ := Option.ite_none_right_eq_some.mp h
    split at h <;> cases h <;> exact .client (fun _ => rfl) rfl rfl rfl rfl
  | timeout =>
    obtain ⟨-, h⟩ := Option.ite_none_left_eq_some.mp h
    cases h
    exact .client (fun _ => rfl) rfl rfl rfl rfl
  | server k a =>
    obtain ⟨-, h⟩ := Option.ite_none_right_eq_some.mp h
    obtain ⟨w, hw, h⟩ := Option.bind_eq_some_iff.mp h
    obtain ⟨w', hstep, rfl⟩ := Option.map_eq_some_iff.mp h
    exact .server hw hstep rfl rfl rfl rfl
  | filesList k i pattern sends =>
    obtain ⟨w, hw, h⟩ := Option.bind_eq_some_iff.mp h
    obtain ⟨l, hl, h⟩ := Option.bind_eq_some_iff.mp h
    obtain ⟨w', hstep, rfl⟩ := Option.map_eq_some_iff.mp h
    exact .filesList hw hl hstep rfl rfl rfl rfl

/-! ## Searches among many servers -/

/-- What is sent of a handled request reaches the client's socket. -/
structure Answered (c : Site) (n : Network) : Prop where
  searched : ∀ h ∈ n.handled, ∃ s ∈ n.searches, s.messageSeq = h.messageSeq
  sent : ∀ h ∈ n.handled, ∀ s ∈ n.searches, s.messageSeq = h.messageSeq →
    ∀ payload ∈ sentOf (handleFilesListRequest h.filesInStorage s.messageSeq s.pattern) h.sends,
      ⟨c.address h.server, payload⟩ ∈ n.wire

/-- The client has received all that the server has sent it for the search. -/
def Heard (c : Site) (n : Network) (s : Search) (k : ℕ) : Prop :=
  ∀ d ∈ n.wire, d.source = c.address k → receiveSearchRespond s.messageSeq d.payload ≠ [] →
    d ∈ n.received

/-- The names that the results have of those which a server found for a search. -/
structure Finds (c : Site) (n : Network) (s : Search) (files : SortedSet Filename)
    (found : List Filename) : Prop where
  sublist : found.Sublist (matching files s.pattern)
  most : 255 * (matching files s.pattern).length ≤ 256 * found.length
  all : (Bytes.joinLines (matching files s.pattern)).length ≤ maxSimpleDataSize →
    found = matching files s.pattern
  entries : ∀ f ∈ found, ∃ ip, n.lastSearchResults f = some ip ∧ n.Entry c s f ip

variable {c : Site} {n n' : Network} {servers : List Server}

theorem answered_start (servers : List Server) : Answered c (start servers) where
  searched _ hh := (List.not_mem_nil hh).elim
  sent _ hh := (List.not_mem_nil hh).elim

/-- A step that handles no files list request of the client and begins no search. -/
theorem Answered.of_wire (h : Answered c n) (hhandled : n'.handled = n.handled)
    (hsearches : n'.searches = n.searches) (hwire : ∀ d ∈ n.wire, d ∈ n'.wire) :
    Answered c n' where
  searched x hx := hsearches ▸ h.searched x (hhandled ▸ hx)
  sent x hx s hs he payload hp :=
    hwire _ (h.sent x (hhandled ▸ hx) s (hsearches ▸ hs) he payload hp)

/-- A new search has a sequence number that no handled request has. -/
theorem Answered.search (h : Answered c n) (ht : Traced c n) {s : Search}
    (hseq : s.messageSeq ∉ n.messageSeqs) (hhandled : n'.handled = n.handled)
    (hsearches : n'.searches = n.searches ++ [s]) (hwire : n'.wire = n.wire) :
    Answered c n' where
  searched x hx := by
    obtain ⟨t, ht, he⟩ := h.searched x (hhandled ▸ hx)
    exact ⟨t, hsearches ▸ List.mem_append_left _ ht, he⟩
  sent x hx t hmem he payload hp := by
    rw [hhandled] at hx
    rw [hsearches] at hmem
    rw [hwire]
    rcases List.mem_append.mp hmem with hmem | hmem
    · exact h.sent x hx t hmem he payload hp
    · obtain ⟨r, hr, her⟩ := h.searched x hx
      rw [List.mem_singleton.mp hmem] at he
      exact (hseq (he ▸ her ▸ ht.seqs r hr)).elim

/-- A handler of the client's request makes its messages from the pattern of the search. -/
theorem Answered.filesList (h : Answered c n) (ht : Traced c n) {k i : ℕ} {pattern : Bytes}
    {sends : List Bool} {w : World} {l : Listing} (hw : n.worlds[k]? = some w)
    (hl : w.listings[i]? = some l) (hP : n.Readable c (.filesList k i pattern sends))
    (hhandled : n'.handled = n.handled ++ if l.destinationAddress = c.source then
      [⟨k, l.messageSeq, w.server.filesInStorage, sends⟩] else [])
    (hsearches : n'.searches = n.searches)
    (hwire : n'.wire = n.wire ++ c.arriving k
      ((sentOf (handleFilesListRequest w.server.filesInStorage l.messageSeq pattern) sends).map
        (l.destinationAddress, ·))) :
    Answered c n' := by
  have hnew : ∀ x ∈ n'.handled, x ∈ n.handled ∨ l.destinationAddress = c.source ∧
      x = ⟨k, l.messageSeq, w.server.filesInStorage, sends⟩ := by
    intro x hx
    rw [hhandled, List.mem_append] at hx
    refine hx.imp_right fun hx => ?_
    split_ifs at hx with hdest
    · exact ⟨hdest, List.mem_singleton.mp hx⟩
    · cases hx
  refine ⟨fun x hx => ?_, fun x hx s hs he payload hp => ?_⟩
  · rw [hsearches]
    rcases hnew x hx with hx | ⟨hdest, rfl⟩
    · exact h.searched x hx
    · exact ⟨_, ht.listings w (List.mem_of_getElem? hw) l (List.mem_of_getElem? hl) hdest, rfl⟩
  · rw [hsearches] at hs
    rw [hwire, List.mem_append]
    rcases hnew x hx with hx | ⟨hdest, rfl⟩
    · exact Or.inl (h.sent x hx s hs he payload hp)
    · -- the search of the listing is the only one with its sequence number
      have hmem := ht.listings w (List.mem_of_getElem? hw) l (List.mem_of_getElem? hl) hdest
      obtain rfl := ht.distinct s hs _ hmem he
      obtain ⟨rfl, -⟩ := hP w hw l hl hdest
      refine Or.inr (List.mem_map.mpr ⟨(l.destinationAddress, payload), ?_, rfl⟩)
      exact List.mem_filter.mpr ⟨List.mem_map_of_mem hp, decide_eq_true hdest⟩

theorem Answered.step (h : Answered c n) (ht : Traced c n) {a : NetworkAction}
    (hP : n.Readable c a) (hs : n.step c a = some n') : Answered c n' := by
  cases step_cases hs with
  | search fresh worlds wire handled searches =>
    exact h.search ht fresh handled searches wire
  | client call worlds wire handled searches =>
    exact h.of_wire handled searches fun d hd => wire ▸ hd
  | server world step worlds wire handled searches =>
    exact h.of_wire handled searches fun d hd => wire ▸ List.mem_append_left _ hd
  | filesList world listing step worlds wire handled searches =>
    exact h.filesList ht world listing hP handled searches wire

/-- The names of a message that the client has received are in its results. -/
theorem Kept.isSome_of_mem (h : Kept n) {s : Search} (hs : n.searches.getLast? = some s)
    {d : Datagram} (hd : d ∈ n.received) {f : Bytes}
    (hf : f ∈ receiveSearchRespond s.messageSeq d.payload) : (n.lastSearchResults f).isSome := by
  have hmem : d ∈ n.received.filter fun d => f ∈ receiveSearchRespond s.messageSeq d.payload :=
    List.mem_filter.mpr ⟨hd, decide_eq_true hf⟩
  rw [h.results s hs f, Option.isSome_map, lastListing]
  exact Option.isSome_iff_ne_none.mpr fun hnone =>
    List.ne_nil_of_mem hmem (List.getLast?_eq_none_iff.mp hnone)

/-- The results have what is packed for a search that is heard. -/
theorem Answered.isSome_of_heard (h : Answered c n) (hk : Kept n) {s : Search}
    (hs : n.searches.getLast? = some s) {x : Handled} (hx : x ∈ n.handled)
    (he : s.messageSeq = x.messageSeq) (hn : ∀ f ∈ x.filesInStorage, Listable f)
    (hsends : x.Sent s) (hheard : n.Heard c s x.server) {f : Bytes}
    (hf : f ∈ (pack (matching x.filesInStorage s.pattern)).flatten) :
    (n.lastSearchResults f).isSome := by
  obtain ⟨hmessages, hfits⟩ := @handleFilesListRequest_eq s.messageSeq s.pattern _ hn
  obtain ⟨names, hnames, hf⟩ := List.mem_flatten.mp hf
  have hlist := @receiveSearchRespond_listMessage s.messageSeq names (hfits names hnames)
  have hsent := h.sent x hx s (List.mem_of_getLast? hs) he
  rw [hsends, hmessages] at hsent
  have hwire := hsent _ (List.mem_map_of_mem hnames)
  refine hk.isSome_of_mem hs (hheard _ hwire rfl ?_) ?_
  · rw [hlist]
    exact List.ne_nil_of_mem hf
  · rwa [hlist]

/-- A search that is heard finds what is packed for it. -/
theorem Answered.finds (h : Answered c n) (ht : Traced c n) (hk : Kept n) {s : Search}
    (hs : n.searches.getLast? = some s) {x : Handled} (hx : x ∈ n.handled)
    (he : s.messageSeq = x.messageSeq) (hlist : ∀ f ∈ x.filesInStorage, Listable f)
    (hsends : x.Sent s) (hheard : n.Heard c s x.server) :
    n.Finds c s x.filesInStorage (pack (matching x.filesInStorage s.pattern)).flatten := by
  have hpack := @ListLoses.of_pack x.filesInStorage s.pattern hlist
  refine ⟨hpack.sublist, hpack.most, fun hle => ?_, fun f hf => ?_⟩
  · rw [flatten_pack, foldl_packName_of_le
      (fun f hf => (hlist f (mem_matching.mp hf).1).length_le) hle]
    rfl
  · obtain ⟨ip, hip⟩ :=
      Option.isSome_iff_exists.mp (h.isSome_of_heard hk hs hx he hlist hsends hheard hf)
    exact ⟨ip, hip, ht.sound hk s hs f ip hip⟩

theorem answered_of_run {as : List NetworkAction}
    (hn : ∀ s ∈ servers, ∀ f ∈ s.filesInStorage, Sendable f)
    (hr : run (Network.step c) (start servers) as = some n)
    (hP : Along (Network.step c) (Readable c) (start servers) as) :
    Traced c n ∧ Kept n ∧ Answered c n :=
  run_invariant (fun n => Traced c n ∧ Kept n ∧ Answered c n)
    (fun _ _ _ h ha hs => ⟨h.1.step ha hs, h.2.1.step hs, h.2.2.step h.1 ha hs⟩)
    ⟨traced_start hn, kept_start servers, answered_start servers⟩ hr hP

/-- A search finds most of the names that a server found for it and the client has heard of,
and all of them if they fit in one message. -/
theorem complete_of_readable {as : List NetworkAction}
    (hn : ∀ s ∈ servers, ∀ f ∈ s.filesInStorage, Sendable f)
    (hr : run (Network.step c) (start servers) as = some n)
    (hP : Along (Network.step c) (Readable c) (start servers) as) {s : Search}
    (hs : n.searches.getLast? = some s) {x : Handled} (hx : x ∈ n.handled)
    (he : s.messageSeq = x.messageSeq) (hlist : ∀ f ∈ x.filesInStorage, Listable f)
    (hsends : x.Sent s) (hheard : n.Heard c s x.server) :
    n.Finds c s x.filesInStorage (pack (matching x.filesInStorage s.pattern)).flatten := by
  obtain ⟨ht, hk, ha⟩ := answered_of_run hn hr hP
  exact ha.finds ht hk hs hx he hlist hsends hheard

theorem oneLine_complete :
    ∃ n, run (Network.step oneServer) (start [.generateFilesInStorage 10 .empty []])
        (searchAfterAdd [97, 98]) = some n ∧
      ∃ x ∈ n.handled, [97, 98] ∈ x.filesInStorage ∧
        n.Finds oneServer ⟨7, [97]⟩ x.filesInStorage
          (pack (matching x.filesInStorage [97])).flatten := by
  obtain ⟨n, hr, hn⟩ : ∃ n,
      run (Network.step oneServer) (start [.generateFilesInStorage 10 .empty []])
        (searchAfterAdd [97, 98]) = some n ∧
      decide (n.searches.getLast? = some ⟨7, [97]⟩ ∧ n.wire = n.received ∧
        ∃ x ∈ n.handled, [97, 98] ∈ x.filesInStorage ∧ (7 : UInt64) = x.messageSeq ∧
          (∀ f ∈ x.filesInStorage, Listable f) ∧ x.Sent ⟨7, [97]⟩) :=
    exists_run_of_any _ (by decide)
  obtain ⟨hlast, hwire, x, hx, hstored, he, hlist, hsends⟩ := of_decide_eq_true hn
  exact ⟨n, hr, x, hx, hstored, complete_of_readable (by decide) hr (by decide) hlast hx he hlist
    hsends fun d hd _ _ => hwire ▸ hd⟩

end Network

end Netstore
