import Netstore.Search

/-!
# What the server answers

A running server is asked by datagrams that its loop receives, and answers from the loop and
from its handlers, in any order. Of a discovery, a files list request, a download and an
upload each gets at most one answer, a removal gets none, and what is sent goes to the sender
of a request that it answers (`answered_once`). So there are never more answers with a sequence
number than requests with it.
-/

namespace Netstore

open Transition

/-! ## Requests and answers -/

/-- A request with the address that it came from. -/
abbrev Question := SockAddr × Request

/-- What a server sends for one request. -/
structure Reply where
  /-- The server when it sends. -/
  server : Server
  destinationAddress : SockAddr
  /-- One datagram, or the messages of a files list that could be sent. -/
  payloads : List Bytes

/-- The reply is to the sender, and says what the request asks for. -/
def Answers (multicastAddress : Bytes) (q : Question) (r : Reply) : Prop :=
  r.destinationAddress = q.1 ∧
    match q.2 with
    | .discover seq =>
      r.payloads = (discoverReply seq multicastAddress r.server.getAvailableSpace).toList
    | .filesList seq pattern =>
      ∃ sends, r.payloads =
        sentOf (handleFilesListRequest r.server.filesInStorage seq pattern) sends
    | .file seq filename =>
      ∃ port : UInt16, r.payloads = (fileReply seq filename port.toUInt64).toList
    | .upload seq filename _ =>
      (∃ port : UInt16, r.payloads = (addAcceptance seq filename port.toUInt64).toList) ∨
        r.payloads = (addRefusal seq filename).toList
    | .remove _ => False

/-- The request that the loop receives. -/
def Action.asks : Action → List Question
  | .receive d =>
    match Netstore.receive d.payload with
    | .ok (some r) => [(d.source, r)]
    | _ => []
  | _ => []

/-! ## What is not answered yet -/

namespace UploadPc

/-- The handler has neither announced its port nor refused. -/
def silent : UploadPc → Bool
  | start | reserved | nameTaken | refusing | accepted => true
  | _ => false

end UploadPc

/-- The discovery that the loop has still to answer. -/
def Loop.asks : Loop → Multiset Question
  | .discovering source seq => {(source, .discover seq)}
  | _ => 0

namespace Upload

variable (s : Server) (u : Upload)

/-- The request of an upload, until it is accepted or refused. -/
def asks : Multiset Question :=
  if u.pc.silent then {(u.destinationAddress, .upload u.messageSeq u.filename u.fileSize)} else 0

/-- What a call of an upload sends. -/
def replies : UploadCall → List Reply
  | .announce (some port) => [⟨s, u.destinationAddress, (u.acceptance port).toList⟩]
  | .refuse true => [⟨s, u.destinationAddress, u.refusal.toList⟩]
  | _ => []

end Upload

namespace Download

variable (s : Server) (u : Download)

/-- The request of a download, until its port is announced. -/
def asks : Multiset Question :=
  if u.pc = .announcing then {(u.destinationAddress, .file u.messageSeq u.filename)} else 0

/-- What a call of a download sends. -/
def replies : DownloadCall → List Reply
  | .announce (some port) => [⟨s, u.destinationAddress, (u.response port).toList⟩]
  | _ => []

end Download

namespace Listing

variable (s : Server) (l : Listing)

/-- The request of a files list, until it is sent. -/
def asks : Multiset Question :=
  if l.ended then 0 else {(l.destinationAddress, .filesList l.messageSeq l.pattern)}

/-- What a files list handler sends. -/
def reply (sends : List Bool) : Reply :=
  ⟨s, l.destinationAddress,
    sentOf (handleFilesListRequest s.filesInStorage l.messageSeq l.pattern) sends⟩

end Listing

namespace World

variable (w : World)

/-- The requests that may still be answered. -/
def asks : Multiset Question :=
  w.loop.asks + (w.uploads.map Upload.asks).sum + (w.downloads.map Download.asks).sum +
    (w.listings.map Listing.asks).sum

/-- What a step sends. -/
def replies (multicastAddress : Bytes) : Action → List Reply
  | .discover true =>
    match w.loop with
    | .discovering source seq => [⟨w.server, source,
      (discoverReply seq multicastAddress w.server.getAvailableSpace).toList⟩]
    | _ => []
  | .upload i c => w.uploads[i]?.elim [] fun u => u.replies w.server c
  | .download i c => w.downloads[i]?.elim [] fun u => u.replies w.server c
  | .filesList i sends => w.listings[i]?.elim [] fun l => [l.reply w.server sends]
  | _ => []

/-- The datagrams of the replies are what a step sends, but for a files list. -/
theorem flatMap_replies (multicastAddress : Bytes) {a : Action}
    (ha : ∀ i sends, a ≠ .filesList i sends) :
    (w.replies multicastAddress a).flatMap
      (fun r => r.payloads.map (r.destinationAddress, ·)) = w.sends multicastAddress a := by
  cases a with
  | filesList i sends => exact (ha i sends rfl).elim
  | discover ok =>
    cases ok
    · rfl
    · cases hloop : w.loop <;> simp [replies, sends, hloop]
  | upload i c =>
    cases hu : w.uploads[i]? with
    | none => simp [replies, sends, hu]
    | some u =>
      simp only [replies, sends, hu, Option.elim_some]
      cases c with
      | announce port =>
        cases port
        · rfl
        · exact List.append_nil _
      | refuse ok =>
        cases ok
        · rfl
        · exact List.append_nil _
      | _ => rfl
  | download i c =>
    cases c with
    | announce port => cases port <;> cases hu : w.downloads[i]? <;>
        simp [replies, sends, hu, Download.replies]
    | _ => cases hu : w.downloads[i]? <;> simp [replies, sends, hu, Download.replies]
  | _ => rfl

end World

/-! ## One answer for a request -/

section Steps

variable {multicastAddress : Bytes} {s s' : Server}

/-- An upload handler answers its request while it is silent, and then no more. -/
theorem Upload.asks_next {u : Upload} {c : UploadCall} {pc : UploadPc}
    (h : u.next s c = some (s', pc)) : ∃ bs : List Question,
      List.Forall₂ (Answers multicastAddress) bs (u.replies s c) ∧
        bs + ({ u with pc := pc } : Upload).asks ≤ u.asks := by
  have hanswer {r : Reply} (hr : Answers multicastAddress
      (u.destinationAddress, .upload u.messageSeq u.filename u.fileSize) r)
      (hreplies : u.replies s c = [r]) (before : u.pc.silent) (after : pc.silent = false) :
      ∃ bs : List Question, List.Forall₂ (Answers multicastAddress) bs (u.replies s c) ∧
        bs + ({ u with pc := pc } : Upload).asks ≤ u.asks := by
    refine ⟨[(u.destinationAddress, .upload u.messageSeq u.filename u.fileSize)], ?_, ?_⟩
    · rw [hreplies]
      exact .cons hr .nil
    · simp [asks, before, after]
  have hsilent (hreplies : u.replies s c = []) (hpc : pc.silent → u.pc.silent) :
      ∃ bs : List Question, List.Forall₂ (Answers multicastAddress) bs (u.replies s c) ∧
        bs + ({ u with pc := pc } : Upload).asks ≤ u.asks := by
    refine ⟨[], by rw [hreplies]; exact .nil, ?_⟩
    unfold asks
    dsimp only
    split_ifs with after before
    · simp
    · exact (before (hpc after)).elim
    · simp
    · simp
  cases next_cases h with
  | announce before port =>
    exact hanswer ⟨rfl, Or.inl ⟨port, rfl⟩⟩ rfl (by rw [before]; rfl) rfl
  | refuse before ok =>
    cases ok
    · exact hsilent rfl nofun
    · exact hanswer ⟨rfl, Or.inr rfl⟩ rfl (by rw [before]; rfl) rfl
  | reserve before | reject before | add before | taken before | freeTaken before =>
    exact hsilent rfl fun _ => by rw [before]; rfl
  | close | closeFail =>
    refine hsilent rfl fun hpc => ?_
    unfold afterTransfer at hpc
    split_ifs at hpc <;> cases hpc
  | _ => exact hsilent rfl nofun

theorem Download.asks_next {u : Download} {c : DownloadCall} {pc : DownloadPc}
    (h : u.next s c = some pc) : ∃ bs : List Question,
      List.Forall₂ (Answers multicastAddress) bs (u.replies s c) ∧
        bs + ({ u with pc := pc } : Download).asks ≤ u.asks := by
  have hsilent (hreplies : u.replies s c = []) (hpc : pc ≠ .announcing) :
      ∃ bs : List Question, List.Forall₂ (Answers multicastAddress) bs (u.replies s c) ∧
        bs + ({ u with pc := pc } : Download).asks ≤ u.asks := by
    refine ⟨[], by rw [hreplies]; exact .nil, ?_⟩
    simp [asks, hpc]
  cases next_cases h with
  | announce before port =>
    refine ⟨[(u.destinationAddress, .file u.messageSeq u.filename)],
      .cons ⟨rfl, port, rfl⟩ .nil, ?_⟩
    simp [asks, before]
  | _ => exact hsilent rfl nofun

end Steps

namespace World

variable {multicastAddress : Bytes} {w w' : World}

/-- What a step does to the loop and to each kind of handler. -/
inductive Move (w : World) : Action → World → Prop
  | stay {a} (call : a = .receiveFails ∨
      ∃ d, a = .receive d ∧ ∀ r, Netstore.receive d.payload ≠ .ok (some r)) : Move w a w
  | start {d r} (idle : w.loop = .idle) (request : Netstore.receive d.payload = .ok (some r)) :
      Move w (.receive d) (w.start d.source r)
  | discovered {ok source seq} (loop : w.loop = .discovering source seq) :
      Move w (.discover ok) { w with loop := .idle }
  | removal {c f pc w'} (loop : w.loop = .removing f pc) (next : w.removeNext f pc c = some w') :
      Move w (.remove c) w'
  | upload {i c u s pc t} (thread : w.uploads[i]? = some u)
      (next : u.next w.server c = some (s, pc)) :
      Move w (.upload i c)
        { w with server := s, uploads := w.uploads.set i { u with pc := pc }, terminated := t }
  | download {i c u pc t} (thread : w.downloads[i]? = some u)
      (next : u.next w.server c = some pc) :
      Move w (.download i c)
        { w with downloads := w.downloads.set i { u with pc := pc }, terminated := t }
  | list {i sends l} (thread : w.listings[i]? = some l) (running : l.ended = false) :
      Move w (.filesList i sends) { w with listings := w.listings.set i { l with ended := true } }

/-- An exception that the loop catches leaves it idle. -/
theorem throw_of_idle {c : CallSite} (hc : c.caught) (hidle : w.loop = .idle) : w.throw c = w := by
  rw [throw, if_pos hc, ← hidle]

theorem move_of_step {a : Action} (h : w.step a = some w') : w.Move a w' := by
  unfold step at h
  rw [ite_eq_iff] at h
  obtain ⟨-, h⟩ := h.resolve_left (by simp)
  cases a with
  | receive d =>
    dsimp only at h
    split_ifs at h with hidle
    split at h <;> rename_i hd <;> cases h
    · rw [throw_of_idle (by decide) hidle]
      exact .stay (Or.inr ⟨d, rfl, fun r hr => by cases hd.symm.trans hr⟩)
    · exact .stay (Or.inr ⟨d, rfl, fun r hr => by cases hd.symm.trans hr⟩)
    · exact .start hidle hd
  | receiveFails =>
    dsimp only at h
    split_ifs at h with hidle
    cases h
    rw [throw_of_idle (by decide) hidle]
    exact .stay (Or.inl rfl)
  | discover ok =>
    dsimp only at h
    split at h <;> cases h
    have hthrow : w.throw .discoverSend = { w with loop := .idle } := if_pos (by decide)
    rw [hthrow, ite_self]
    exact .discovered (by assumption)
  | remove c =>
    dsimp only at h
    split at h
    · exact .removal (by assumption) h
    · cases h
  | upload i c =>
    obtain ⟨u, hu, h⟩ := Option.bind_eq_some_iff.mp h
    obtain ⟨⟨s, pc⟩, hn, h⟩ := Option.map_eq_some_iff.mp h
    cases h
    exact .upload hu hn
  | download i c =>
    obtain ⟨u, hu, h⟩ := Option.bind_eq_some_iff.mp h
    obtain ⟨pc, hn, h⟩ := Option.map_eq_some_iff.mp h
    cases h
    exact .download hu hn
  | filesList i sends =>
    obtain ⟨l, hl, h⟩ := Option.bind_eq_some_iff.mp h
    split_ifs at h with hended hsends <;> cases h
    · exact .list hl (by simpa using hended)
    · exact (hsends (by simp [CallSite.caught, CallSite.catches, CallSite.raises])).elim

/-- The loop has no more to answer than the request that it starts to handle. -/
theorem asks_start (source : SockAddr) (r : Request) (hidle : w.loop = .idle) :
    (w.start source r).asks ≤ w.asks + {(source, r)} := by
  cases r with
  | discover seq =>
    simp only [start, asks, hidle, Loop.asks, zero_add]
    exact le_of_eq (by ac_rfl)
  | filesList seq pattern =>
    simp only [start, asks, Listing.asks, List.map_append, List.map_singleton, List.sum_append,
      List.sum_singleton]
    exact le_of_eq (by simp [add_assoc])
  | file seq filename =>
    unfold start
    dsimp only
    split_ifs
    · simp only [asks, Download.asks, List.map_append, List.map_singleton, List.sum_append,
        List.sum_singleton, if_true]
      exact le_of_eq (by ac_rfl)
    · exact Multiset.le_add_right ..
  | remove filename =>
    refine le_trans (le_of_eq ?_) (Multiset.le_add_right ..)
    unfold start asks
    dsimp only
    split_ifs <;> simp [hidle, Loop.asks]
  | upload seq filename fileSize =>
    simp only [start, asks, Upload.asks, UploadPc.silent, List.map_append, List.map_singleton,
      List.sum_append, List.sum_singleton, if_true]
    exact le_of_eq (by ac_rfl)

/-- A step answers some of what is asked. -/
theorem asks_step {a : Action} (h : w.step a = some w') : ∃ bs : List Question,
    List.Forall₂ (Answers multicastAddress) bs (w.replies multicastAddress a) ∧
      bs + w'.asks ≤ w.asks + (a.asks : Multiset Question) := by
  have hsilent (hreplies : w.replies multicastAddress a = []) (hle : w'.asks ≤ w.asks) :
      ∃ bs : List Question, List.Forall₂ (Answers multicastAddress) bs
        (w.replies multicastAddress a) ∧ bs + w'.asks ≤ w.asks + (a.asks : Multiset Question) :=
    ⟨[], by rw [hreplies]; exact .nil, by simpa using hle.trans (Multiset.le_add_right ..)⟩
  cases move_of_step h with
  | stay call => exact hsilent (by rcases call with rfl | ⟨d, rfl, -⟩ <;> rfl) le_rfl
  | @start d r idle request =>
    refine ⟨[], .nil, ?_⟩
    simpa [Action.asks, request] using asks_start d.source r idle
  | @discovered ok source seq loop =>
    cases ok
    · refine hsilent rfl ?_
      unfold asks
      gcongr
      exact Multiset.zero_le _
    · refine ⟨[(source, .discover seq)], ?_, ?_⟩
      · simp only [replies, loop]
        exact .cons ⟨rfl, rfl⟩ .nil
      · simp [asks, loop, Loop.asks, Action.asks]
  | removal loop next =>
    refine hsilent rfl ?_
    cases removeNext_cases next <;> simp [asks, loop, Loop.asks]
  | @upload i c u s pc t thread next =>
    obtain ⟨bs, hanswers, hle⟩ := @Upload.asks_next multicastAddress _ _ _ _ _ next
    have hsum := add_sum_map_set_le Upload.asks thread hle
    refine ⟨bs, by simpa [replies, thread] using hanswers, ?_⟩
    calc bs + (w.loop.asks + ((w.uploads.set i { u with pc := pc }).map Upload.asks).sum +
          (w.downloads.map Download.asks).sum + (w.listings.map Listing.asks).sum)
        = w.loop.asks + (bs + ((w.uploads.set i { u with pc := pc }).map Upload.asks).sum) +
          (w.downloads.map Download.asks).sum + (w.listings.map Listing.asks).sum := by ac_rfl
      _ ≤ w.asks := by unfold asks; gcongr
      _ ≤ _ := Multiset.le_add_right ..
  | @download i c u pc t thread next =>
    obtain ⟨bs, hanswers, hle⟩ := @Download.asks_next multicastAddress _ _ _ _ next
    have hsum := add_sum_map_set_le Download.asks thread hle
    refine ⟨bs, by simpa [replies, thread] using hanswers, ?_⟩
    calc bs + (w.loop.asks + (w.uploads.map Upload.asks).sum +
          ((w.downloads.set i { u with pc := pc }).map Download.asks).sum +
          (w.listings.map Listing.asks).sum)
        = w.loop.asks + (w.uploads.map Upload.asks).sum +
          (bs + ((w.downloads.set i { u with pc := pc }).map Download.asks).sum) +
          (w.listings.map Listing.asks).sum := by ac_rfl
      _ ≤ w.asks := by unfold asks; gcongr
      _ ≤ _ := Multiset.le_add_right ..
  | @list i sends l thread running =>
    have hle : ({(l.destinationAddress, .filesList l.messageSeq l.pattern)} : Multiset Question) +
        ({ l with ended := true } : Listing).asks ≤ l.asks := by
      simp [Listing.asks, running]
    have hsum := add_sum_map_set_le Listing.asks thread hle
    refine ⟨[(l.destinationAddress, .filesList l.messageSeq l.pattern)], ?_, ?_⟩
    · simp only [replies, thread, Option.elim_some]
      exact .cons ⟨rfl, sends, rfl⟩ .nil
    · rw [Multiset.coe_singleton]
      unfold asks
      dsimp only
      rw [add_left_comm]
      exact (add_le_add_right hsum _).trans (Multiset.le_add_right ..)

/-- In every run, what the server sends answers requests that it has received, each at most
once. -/
theorem answered_once {s : Server} {as : List Action} (hr : run (initial s) as = some w) :
    ∃ bs : List Question, bs.Subperm (as.flatMap Action.asks) ∧
      List.Forall₂ (Answers multicastAddress) bs
        (trace step (fun w => w.replies multicastAddress) (initial s) as).flatten := by
  obtain ⟨bs, hanswers, hle⟩ := exists_settled asks (fun _ a => a.asks)
    (fun w => w.replies multicastAddress) (fun _ _ _ => asks_step) hr
  refine ⟨bs, Multiset.coe_le.mp ?_, hanswers⟩
  rw [trace_eq_map Action.asks hr, ← List.flatMap_def] at hle
  exact (Multiset.le_add_right ..).trans (hle.trans (le_of_eq (by simp [asks, initial, Loop.asks])))

end World

end Netstore
