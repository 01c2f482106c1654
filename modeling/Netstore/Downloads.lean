import Netstore.Commands
import Netstore.Grammar
import Netstore.Naming
import Netstore.Path
import Netstore.Reports

/-!
# Where downloads are written

What the user can fetch is a line of a list that the last search took, and any host can
send one. The validation of the list, the results and the command line let every line
pass, and the reply to the request only has to repeat it. So the path that a fetch opens
is an entry of the output folder exactly if the lists have no other lines, but for those
that cannot be typed and those that are too long for a reply (`downloadsInside_iff`).
-/

namespace Netstore

open Netstore.Path

/-! ## The results of a search -/

/-- What a search keeps of the datagrams that it receives. -/
def searchResults (expectedMessageSeq : UInt64) (received : List Datagram) : SearchResults :=
  received.foldl (fun results d =>
    updateSearchResults results (receiveSearchRespond expectedMessageSeq d.payload)
      d.source.sinAddr) fun _ => none

section SearchResults

variable {seq : UInt64} {received : List Datagram} {f : Bytes}

theorem searchResults_apply : searchResults seq received f =
    (received.filter fun d => f ∈ receiveSearchRespond seq d.payload).getLast?.map
      (·.source.sinAddr) := by
  induction received using List.reverseRecOn with
  | nil => rfl
  | append_singleton received d ih =>
    have hlast : searchResults seq (received ++ [d]) = updateSearchResults
        (searchResults seq received) (receiveSearchRespond seq d.payload) d.source.sinAddr :=
      List.foldl_concat ..
    rw [hlast, Network.updateSearchResults_apply, ih, List.filter_append]
    by_cases hf : f ∈ receiveSearchRespond seq d.payload <;> simp [hf]

/-- A client that searches in a network has these results. -/
theorem Network.Kept.lastSearchResults_eq {n : Network} (h : Network.Kept n) {s : Search}
    (hs : n.searches.getLast? = some s) :
    n.lastSearchResults = searchResults s.messageSeq n.received :=
  funext fun f => (h.results s hs f).trans searchResults_apply.symm

theorem mem_receiveSearchRespond {payload : Bytes} : f ∈ receiveSearchRespond seq payload ↔
    simpleMessageValidation (recvfrom payload).1 seq filesListResponse (recvfrom payload).2 [] =
      .ok () ∧ f ∈ (recvfrom payload).1.simpleData.splitOn Bytes.newline := by
  rw [receiveSearchRespond]
  dsimp only
  rcases simpleMessageValidation (recvfrom payload).1 seq filesListResponse
    (recvfrom payload).2 [] with e | _ <;> simp

theorem isSome_searchResults : (searchResults seq received f).isSome ↔
    ∃ d ∈ received, f ∈ receiveSearchRespond seq d.payload := by
  simp [searchResults_apply]

end SearchResults

/-- A line has no other bytes than what it is a line of. -/
theorem subset_of_mem_splitOn {a : UInt8} {line data : Bytes} (h : line ∈ data.splitOn a) :
    line ⊆ data := by
  induction data generalizing line with
  | nil =>
    rw [List.splitOn_nil, List.mem_singleton] at h
    rw [h]
    exact List.nil_subset _
  | cons b data ih =>
    obtain ⟨l, ls, hls⟩ := List.exists_cons_of_ne_nil (List.splitOn_ne_nil a data)
    rw [List.splitOn_cons_eq_if_modifyHead, hls] at h
    split_ifs at h
    · rcases List.mem_cons.mp h with rfl | h
      · exact List.nil_subset _
      · exact List.Subset.trans (ih (hls ▸ h)) (List.subset_cons_self ..)
    · rcases List.mem_cons.mp h with rfl | h
      · exact List.cons_subset_cons _ (ih (hls ▸ List.mem_cons_self ..))
      · exact List.Subset.trans (ih (hls ▸ List.mem_cons_of_mem _ h)) (List.subset_cons_self ..)

/-! ## The path of a download -/

/-- Every fetch of a result of the search opens an entry of the output folder, whatever it
receives. The constructor of the client appends the slash. -/
def DownloadsInside (cwd : List Bytes) (folder : Bytes) (messageSeq : UInt64)
    (received : List Datagram) : Prop :=
  ∀ line filename serverIp,
    iteration (searchResults messageSeq received) line = .fetch filename serverIp →
    ∀ c : FetchCommand, c.filename = filename →
      (∀ d ∈ c.received, d.payload.length ≤ maxDatagramSize) →
      ∀ path ∈ (c.fetch (folder ++ [slash])).filePath,
        IsName filename ∧ resolve cwd path = resolve cwd (folder ++ [slash]) ++ [filename]

/-- A reply to the request with the sequence number 1. -/
def connectMe (filename : Bytes) : Datagram :=
  ⟨⟨0, 0⟩, fillCommand fileGetResponse ++ (Bytes.be64 1 ++ (Bytes.be64 1 ++ filename))⟩

/-- A fetch that gets the reply it asks for. -/
def answeredFetch (filename : Bytes) : FetchCommand where
  messageSeq := 1
  filename := filename
  socketError := none
  received := [connectMe filename]
  connectError := none
  isOpen := true
  pieces := []
  readError := none

section Downloads

variable {cwd : List Bytes} {folder f : Bytes} {seq : UInt64} {received : List Datagram}

theorem length_connectMe_le (hf : f.length ≤ maxComplexDataSize) :
    (connectMe f).payload.length ≤ maxDatagramSize := by
  have hmax : maxComplexDataSize = 65481 := rfl
  have hheader : complexMessageNoDataSize = 26 := rfl
  have hdatagram : maxDatagramSize = 65507 := rfl
  rw [connectMe, length_complex_append (by decide)]
  omega

/-- A name without a zero that a reply can carry can be fetched. -/
theorem connects_answeredFetch (h0 : (0 : UInt8) ∉ f) (hf : f.length ≤ maxComplexDataSize) :
    (answeredFetch f).Connects := by
  have hread : ReadAsComplex (connectMe f).payload 1 fileGetResponse f 1 :=
    readAsComplex_append (by decide) (by decide) 1 h0 hf
  refine ⟨rfl, ?_, ⟨connectMe f, ?_, ?_⟩, rfl⟩
  · have hdata : maxComplexDataSize = 65481 := rfl
    have hheader : simpleMessageNoDataSize = 18 := rfl
    have hdatagram : maxDatagramSize = 65507 := rfl
    have hlen : (answeredFetch f).filename.length = f.length := rfl
    rw [simpleRequest_eq, if_pos (by omega)]
    rfl
  · have hok := (hread.valid_iff (c := fileGetResponse) (by decide) (by decide)).mpr
      ⟨rfl, rfl, Or.inr rfl⟩
    have hreply : (answeredFetch f).isReply (connectMe f) := FetchCommand.isReply_iff.mpr hok
    exact List.find?_cons_of_pos hreply
  · rw [hread.param_eq]
    decide

/-- What a reply repeats is no longer than it can be. -/
theorem length_le_of_connects {c : FetchCommand} (h : c.Connects)
    (hc : ∀ d ∈ c.received, d.payload.length ≤ maxDatagramSize) :
    c.filename.length ≤ maxComplexDataSize := by
  obtain ⟨d, hd, -⟩ := h.port
  have hd' := hc d (List.mem_of_find?_eq_some hd)
  have hreply : c.isReply d := List.find?_some hd
  obtain ⟨params, s, zeros, hpayload, hparams, -, hdata⟩ :=
    (@responseValidation_eq_ok_iff 8 _ _ _ _ hd' (by decide)).mp
      (FetchCommand.isReply_iff.mp hreply)
  rcases hdata with hempty | rfl
  · rw [hempty]
    exact Nat.zero_le _
  · have hmax : maxComplexDataSize = 65481 := rfl
    have hheader : simpleMessageNoDataSize = 18 := rfl
    have hdatagram : maxDatagramSize = 65507 := rfl
    rw [hpayload, length_simple_append (by decide), List.length_append, List.length_append,
      hparams] at hd'
    omega

/-- Every download is an entry of the output folder exactly if each line of the lists is a
name, or cannot be typed, or is too long to be fetched. -/
theorem downloadsInside_iff : DownloadsInside cwd folder seq received ↔
    ∀ d ∈ received,
      simpleMessageValidation (recvfrom d.payload).1 seq filesListResponse
        (recvfrom d.payload).2 [] = .ok () →
      ∀ f ∈ (recvfrom d.payload).1.simpleData.splitOn Bytes.newline,
        f.length ≤ maxComplexDataSize → SinglySpaced f → IsName f := by
  constructor
  · intro h d hd hok f hf hlen hspaced
    have h0 : (0 : UInt8) ∉ f := fun h =>
      Bytes.zero_not_mem_cString _ _ (subset_of_mem_splitOn hf h)
    obtain ⟨ip, hip⟩ := Option.isSome_iff_exists.mp
      (isSome_searchResults.mpr ⟨d, hd, mem_receiveSearchRespond.mpr ⟨hok, hf⟩⟩)
    have hfetch := iteration_fetch hspaced (searchResults seq received)
    rw [hip] at hfetch
    refine (h _ f ip hfetch (answeredFetch f) rfl (fun x hx => ?_) _
      (FetchCommand.filePath_fetch (connects_answeredFetch h0 hlen) _)).1
    rw [List.mem_singleton.mp hx]
    exact length_connectMe_le hlen
  · intro h line filename ip hfetch c hc hreceived path hpath
    obtain ⟨hip, hspaced⟩ := of_iteration_eq_fetch hfetch
    obtain ⟨d, hd, hf⟩ := isSome_searchResults.mp (Option.isSome_of_eq_some hip)
    obtain ⟨hok, hf⟩ := mem_receiveSearchRespond.mp hf
    have hconnects : c.Connects := by
      by_contra hnot
      obtain ⟨e, he⟩ := FetchCommand.fetch_of_not_connects hnot (folder ++ [slash])
      rw [he] at hpath
      cases hpath
    have hname := h d hd hok filename hf (hc ▸ length_le_of_connects hconnects hreceived) hspaced
    obtain rfl := Option.some.inj ((FetchCommand.filePath_fetch hconnects _).symm.trans hpath)
    refine ⟨hname, ?_⟩
    rw [hc, List.append_assoc]
    exact resolve_append hname

end Downloads

/-- The name `../x`. -/
def parentName : Bytes := dotDot ++ [slash, 120]

/-- A list with `../x` is taken, and the file is written beside the output folder. -/
theorem parentName_not_downloadsInside :
    resolve [] ([111] ++ [slash] ++ parentName) = [[120]] ∧
      ¬DownloadsInside [] [111] 7 [⟨⟨9, 9⟩, listMessage 7 [parentName]⟩] := by
  refine ⟨by decide, fun h => ?_⟩
  have hfetch : iteration (searchResults 7 [⟨⟨9, 9⟩, listMessage 7 [parentName]⟩])
      (Word.fetch ++ space :: parentName) = .fetch parentName 9 := by decide
  have hpath : ((answeredFetch parentName).fetch ([111] ++ [slash])).filePath =
      some ([111] ++ [slash] ++ parentName) := by decide
  have hreply : ∀ d ∈ (answeredFetch parentName).received, d.payload.length ≤ maxDatagramSize := by
    decide
  exact absurd (h _ _ _ hfetch (answeredFetch parentName) rfl hreply _ hpath).1 (by decide)

end Netstore
