import Netstore.DownloadLoops
import Netstore.UploadReport

/-!
# The loops of an upload

The client of an upload sends its file as the handler of a download does, and counts down
what is left. The handler reads pieces of it until nothing is left of the size that it was
told, and counts down too. `Exchange.Uploading` relates the places of the two sides to the
file, from where the client connects on (`Exchange.connected_of_run`).

If no call fails, the handler's file is the client's, both counters come to zero without
wrapping, and both loops end. `loops_identity` says this of both directions.
-/

namespace Netstore

open Transition

/-! ## The client -/

namespace Client

/-- The client has written the blocks of its file before the offset, and the counter is what
is left. -/
def Sends (c : Client) (sent : Bytes) : ClientPc → Prop
  | .opening => sent = []
  | .reading toUpload offset =>
    sent = c.content.take offset ∧ toUpload.toNat + offset = c.content.length
  | .writing toUpload offset block more =>
    sent = c.content.take offset ∧ toUpload.toNat + (offset + block.length) = c.content.length ∧
      block = (c.content.drop offset).take maxBufferSize ∧
      more = decide (block.length = maxBufferSize)
  | .succeeded _ => sent = c.content
  | _ => False

/-- The counter of the client is what is not read of its file, and is zero after the last block. -/
def Counts (c : Client) : ClientPc → Prop
  | .opening | .succeeded _ => True
  | .reading toUpload offset => toUpload.toNat + offset = c.content.length
  | .writing toUpload offset block more =>
    toUpload.toNat + (offset + block.length) = c.content.length ∧ (more = false → toUpload = 0)
  | _ => False

end Client

/-- The calls that open the file and send it, and the close of the connection. -/
def ClientCall.inLoop (call : ClientCall) : Bool :=
  call = .openFile true || call = .readFile none || call = .write none || call = .close

/-- The steps that are left of a client with a file of `n` bytes. -/
def ClientPc.left (n : ℕ) : ClientPc → ℕ
  | opening => blockSteps n 0 + 2
  | reading _ offset => blockSteps n offset + 1
  | writing _ offset block more => if more then blockSteps n (offset + block.length) + 2 else 2
  | succeeded closed => if closed then 0 else 1
  | _ => 0

/-- The handler has taken the connection, and is not at its end. -/
def UploadPc.joined : UploadPc → Bool
  | connecting | opening _ | receiving .. | closing .. => true
  | _ => false

theorem Upload.joined_of_next {s s' : Server} {u : Upload} {call : UploadCall} {pc : UploadPc}
    (hn : u.next s call = some (s', pc)) (hpc : pc.joined) :
    u.pc.joined ∨ call = .select .ready := by
  cases next_cases hn with
  | ready before => exact Or.inr rfl
  | accept before | create before | piece before | endOfStream before | readFail before
  | flush before | spoil before | close before | closeFail before =>
    exact Or.inl (by rw [before]; rfl)
  | _ => cases hpc

/-- The steps that are left of a handler of a file of `n` bytes. -/
def UploadPc.left (n taken : ℕ) : UploadPc → ℕ
  | waiting => n - taken + 5
  | connecting => n - taken + 4
  | opening _ => n - taken + 3
  | receiving .. => n - taken + 2
  | closing .. => 1
  | _ => 0

namespace Client

variable {c : Client} {sent : Bytes} {pc pc' : ClientPc}

theorem Sends.begins (h : c.Sends sent pc) : sent <+: c.content := by
  cases pc with
  | opening =>
    obtain rfl : sent = [] := h
    exact List.nil_prefix
  | reading toUpload offset =>
    obtain ⟨rfl, -⟩ := h
    exact List.take_prefix _ _
  | writing toUpload offset block more =>
    obtain ⟨rfl, -⟩ := h
    exact List.take_prefix _ _
  | succeeded closed =>
    obtain rfl : sent = c.content := h
    exact List.prefix_rfl
  | _ => exact h.elim

/-- The last block is short, and leaves nothing. -/
theorem Sends.last {toUpload : UInt64} {offset : ℕ} {block : Bytes}
    (h : c.Sends sent (.writing toUpload offset block false)) :
    toUpload = 0 ∧ sent ++ block = c.content := by
  obtain ⟨rfl, hleft, rfl, hmore⟩ := h
  have hshort := of_decide_eq_false hmore.symm
  have hall : c.content.length ≤ offset + ((c.content.drop offset).take maxBufferSize).length := by
    rw [List.length_take, List.length_drop] at hshort ⊢
    omega
  refine ⟨UInt64.toNat_inj.mp (by rw [UInt64.toNat_zero]; omega), ?_⟩
  rw [take_block, List.take_of_length_le hall]

theorem Sends.sent_of_reported (h : c.Sends sent pc) (hpc : pc.reported) : sent = c.content := by
  cases pc with
  | succeeded closed => exact h
  | _ => cases hpc

theorem Sends.sent_of_closed (h : c.Sends sent pc) (hpc : pc.closed) : sent = c.content := by
  cases pc with
  | succeeded closed => exact h
  | failed closed => exact h.elim
  | _ => cases hpc

theorem Sends.counts (h : c.Sends sent pc) : c.Counts pc := by
  cases pc with
  | reading toUpload offset => exact h.2
  | writing toUpload offset block more =>
    refine ⟨h.2.1, ?_⟩
    rintro rfl
    exact h.last.1
  | opening | succeeded closed => trivial
  | _ => exact h.elim

/-- Each call of the client moves it on. -/
theorem sends_next {call : ClientCall} (h : c.Sends sent pc) (hc : call.inLoop)
    (hn : c.next pc call = some pc') :
    c.Sends (sent ++ pc.written call) pc' ∧
      pc'.left c.content.length + 1 ≤ pc.left c.content.length := by
  have hmax : maxBufferSize = 65536 := rfl
  have hc : call = .openFile true ∨ call = .readFile none ∨ call = .write none ∨ call = .close := by
    simpa [ClientCall.inLoop, or_assoc] using hc
  cases pc with
  | opening =>
    obtain rfl : sent = [] := h
    rcases hc with rfl | rfl | rfl | rfl <;> cases hn
    exact ⟨⟨rfl, c.toNat_fileSize⟩, le_rfl⟩
  | reading toUpload offset =>
    obtain ⟨rfl, hleft⟩ := h
    rcases hc with rfl | rfl | rfl | rfl <;> cases hn
    have hlen : ((c.content.drop offset).take maxBufferSize).length ≤ toUpload.toNat := by
      rw [List.length_take, List.length_drop]
      omega
    refine ⟨⟨List.append_nil _, ?_, rfl, rfl⟩, ?_⟩
    · rw [toNat_sub_ofNat hlen]
      omega
    · simp only [ClientPc.left, blockSteps, List.length_take, List.length_drop, decide_eq_true_eq,
        hmax]
      split_ifs <;> omega
  | writing toUpload offset block more =>
    cases more with
    | true =>
      obtain ⟨rfl, hleft, rfl, -⟩ := h
      rcases hc with rfl | rfl | rfl | rfl <;> cases hn
      exact ⟨⟨take_block c.content offset, hleft⟩, by simp [ClientPc.left]⟩
    | false =>
      obtain ⟨rfl, hwritten⟩ := h.last
      rcases hc with rfl | rfl | rfl | rfl <;> cases hn
      exact ⟨hwritten, by simp [ClientPc.left]⟩
  | succeeded closed =>
    obtain rfl : sent = c.content := h
    cases closed with
    | true => rcases hc with rfl | rfl | rfl | rfl <;> cases hn
    | false =>
      rcases hc with rfl | rfl | rfl | rfl <;> cases hn
      exact ⟨List.append_nil _, le_rfl⟩
  | _ => exact h.elim

end Client

/-! ## The two sides -/

/-- A step of an upload handler of a server that is up. -/
theorem World.step_upload {w : World} {i : ℕ} {u : Upload} (hlive : w.terminated = false)
    (hu : w.uploads[i]? = some u) (call : UploadCall) :
    w.step (.upload i call) = (u.next w.server call).map fun (s, pc) =>
      { w with
        server := s
        uploads := w.uploads.set i { u with pc := pc }
        terminated := match pc with | .uncaught _ => true | _ => false } := by
  rw [step, if_neg (by simp [hlive]), hu]
  rfl

/-- What a step of an upload handler does, if no exception leaves its thread. -/
theorem World.of_step_upload {w w' : World} {i : ℕ} {u : Upload} {call : UploadCall}
    (hlive : w.terminated = false) (hu : w.uploads[i]? = some u)
    (hs : w.step (.upload i call) = some w') :
    ∃ pc, u.next w.server call = some (w'.server, pc) ∧
      w'.uploads[i]? = some { u with pc := pc } ∧
      ((∀ e, pc ≠ .uncaught e) → w'.terminated = false) := by
  rw [step_upload hlive hu] at hs
  obtain ⟨⟨s, pc⟩, hn, rfl⟩ := Option.map_eq_some_iff.mp hs
  refine ⟨pc, hn, (getElem?_set_eq_some hu).mpr (Or.inl ⟨rfl, rfl⟩), fun hpc => ?_⟩
  cases pc with
  | uncaught e => exact (hpc e rfl).elim
  | _ => rfl

namespace ExchangeAction

/-- A call of one of the two sides that does not fail. -/
def inLoops : ExchangeAction → Bool
  | .handler (.select r) => r = .ready
  | .handler (.read r) => r ≠ .failure
  | .handler (.accept ok) | .handler (.openFile ok) | .handler (.flush _ ok)
  | .handler (.closeFile ok) => ok
  | .client call => call.inLoop
  | _ => false

/-- The step is no call of a loop : the stream writes to the file. -/
def isFlush : ExchangeAction → Bool
  | .handler (.flush _ _) => true
  | _ => false

end ExchangeAction

namespace Exchange

variable {c : Client} {x x' : Exchange}

/-- The client has just connected to the handler of its request. -/
structure Connected (c : Client) (x : Exchange) : Prop where
  live : x.world.terminated = false
  connected : x.connected
  sender : x.pc = .opening
  sent : x.sent = []
  receiver : x.world.uploads[0]? = some (c.handler .waiting)
  openable : x.world.server.folder.openable c.filename
  taken : x.taken = 0

/-- The handler has received what it has taken, and the counter is what is left. -/
def Receives (c : Client) (x : Exchange) (folder : Folder Filename) : UploadPc → Prop
  | .waiting | .connecting => x.taken = 0 ∧ folder.openable c.filename
  | .opening failed => failed = false ∧ x.taken = 0 ∧ folder.openable c.filename
  | .receiving failed st toUpload received =>
    failed = false ∧ received = x.sent.take x.taken ∧ x.taken ≤ x.sent.length ∧
      toUpload.toNat + x.taken = c.content.length ∧
      Fetch.Holds folder c.filename st received
  | .closing failed st toUpload received =>
    failed = false ∧ toUpload = 0 ∧ received = c.content ∧
      Fetch.Holds folder c.filename st received
  | .kept received => received = c.content ∧ folder.content c.filename = some c.content
  | _ => False

/-- The two sides of an upload of which no call has failed. -/
structure Uploading (c : Client) (x : Exchange) : Prop where
  live : x.world.terminated = false
  connected : x.connected
  sends : c.Sends x.sent x.pc
  receives : ∃ pc, x.world.uploads[0]? = some (c.handler pc) ∧
    x.Receives c x.world.server.folder pc

/-- The steps that are left of the two sides of a file of `n` bytes. -/
def left (n : ℕ) (x : Exchange) : ℕ :=
  x.pc.left n + x.world.uploads[0]?.elim 0 fun u => u.pc.left n x.taken

theorem Connected.uploading (h : x.Connected c) : x.Uploading c := by
  refine ⟨h.live, h.connected, ?_, _, h.receiver, h.taken, h.openable⟩
  rw [h.sender, h.sent]
  exact rfl

/-- What the handler has is there after another write. -/
theorem Receives.append {folder : Folder Filename} {pc : UploadPc} (h : x.Receives c folder pc)
    (bs : Bytes) (cpc : ClientPc) (connected : Bool) :
    Receives c { x with pc := cpc, connected := connected, sent := x.sent ++ bs } folder pc := by
  cases pc with
  | receiving failed st toUpload received =>
    obtain ⟨hfailed, hreceived, hle, hleft, hholds⟩ := h
    refine ⟨hfailed, ?_, ?_, hleft, hholds⟩
    · rw [hreceived, List.take_append_of_le_length hle]
    · exact hle.trans (by rw [List.length_append]; omega)
  | _ => exact h

/-- Each call of a handler moves it on. -/
theorem receives_next {s' : Server} {upc pc : UploadPc} {call : UploadCall}
    (h : x.Receives c x.world.server.folder upc) (hsends : c.Sends x.sent x.pc)
    (hc : ExchangeAction.inLoops (.handler call)) (hoff : x.offers (c.handler upc) call)
    (hn : (c.handler upc).next x.world.server call = some (s', pc)) (w : World)
    (answers : List Bytes) :
    Receives c { x with
        world := w, answers := answers, port := call.announced.or x.port
        taken := x.taken + call.readLength } s'.folder pc ∧
      pc.left c.content.length (x.taken + call.readLength) +
          (!ExchangeAction.isFlush (.handler call)).toNat ≤
        upc.left c.content.length x.taken := by
  have hle := hsends.begins.length_le
  cases Upload.next_cases hn with
  | ready before =>
    obtain rfl : upc = .waiting := before
    exact ⟨h, le_rfl⟩
  | @notReady r before result =>
    cases r with
    | ready => exact (result rfl).elim
    | timeout | failure => cases hc
  | @accept before ok =>
    obtain rfl : upc = .connecting := before
    obtain rfl : ok = true := hc
    exact ⟨⟨rfl, h⟩, le_rfl⟩
  | @create failed ino folder before opened =>
    obtain rfl : upc = .opening failed := before
    obtain ⟨rfl, htaken, -⟩ := h
    rw [htaken]
    refine ⟨⟨rfl, rfl, Nat.zero_le _, c.toNat_fileSize, ?_⟩, le_rfl⟩
    exact Fetch.holds_openTruncate opened
  | @piece failed st toUpload received bs before pos le =>
    obtain rfl : upc = .receiving failed st toUpload received := before
    obtain ⟨rfl, rfl, htaken, hleft, hholds⟩ := h
    have hlen := Bytes.add_length_le_of_prefix hoff htaken
    have hbs : bs.length ≤ toUpload.toNat := le.trans (min_le_right ..)
    refine ⟨⟨rfl, (Bytes.take_add_of_prefix hoff).symm, hlen, ?_, hholds.write bs⟩, ?_⟩
    · rw [toNat_sub_ofNat hbs]
      dsimp only [UploadCall.readLength]
      omega
    · simp only [UploadPc.left, UploadCall.readLength, ExchangeAction.isFlush, Bool.not_false,
        Bool.toNat_true]
      omega
  | @endOfStream failed st toUpload received before =>
    obtain rfl : upc = .receiving failed st toUpload received := before
    obtain ⟨rfl, rfl, htaken, hleft, hholds⟩ := h
    -- the read asks for nothing, or the client has closed after its last block
    have hall : toUpload.toNat = 0 ∧ x.sent = c.content := by
      have hoff : toUpload = 0 ∨ x.pc.closed ∧ x.sent.length ≤ x.taken := hoff
      rcases hoff with rfl | ⟨hclosed, hend⟩
      · rw [UInt64.toNat_zero, Nat.zero_add] at hleft
        exact ⟨rfl, hsends.begins.eq_of_length (by omega)⟩
      · have hsent := hsends.sent_of_closed hclosed
        rw [hsent] at hend
        exact ⟨by omega, hsent⟩
    obtain ⟨hzero, hsent⟩ := hall
    have hreceived : x.sent.take x.taken = c.content := by
      rw [hsent, List.take_of_length_le (by omega)]
    refine ⟨⟨rfl, UInt64.toNat_inj.mp hzero, hreceived, hholds⟩, ?_⟩
    simp only [UploadPc.left, ExchangeAction.isFlush, Bool.not_false, Bool.toNat_true]
    omega
  | @flush failed st toUpload received before n =>
    obtain rfl : upc = .receiving failed st toUpload received := before
    obtain ⟨rfl, rfl, htaken, hleft, hholds⟩ := h
    exact ⟨⟨rfl, rfl, htaken, hleft, hholds.flush n⟩, le_rfl⟩
  | @close failed st toUpload received before =>
    obtain rfl : upc = .closing failed st toUpload received := before
    obtain ⟨rfl, rfl, rfl, hholds⟩ := h
    exact ⟨⟨rfl, hholds.content_close⟩, le_rfl⟩
  | _ => cases hc

namespace Uploading

/-- Each call keeps the places of the two sides related, and leaves less to do. -/
theorem step (h : x.Uploading c) {a : ExchangeAction} (ha : a.inLoops)
    (hs : x.step c a = some x') :
    x'.Uploading c ∧
      x'.left c.content.length + (!a.isFlush).toNat ≤ x.left c.content.length := by
  obtain ⟨upc, hu, hreceives⟩ := h.receives
  cases a with
  | deliver | server => cases ha
  | handler call =>
    simp only [Exchange.step, hu, Option.bind_some] at hs
    split_ifs at hs with hoff
    obtain ⟨w, hw, rfl⟩ := Option.map_eq_some_iff.mp hs
    obtain ⟨pc, hn, hset, hlive⟩ := World.of_step_upload h.live hu hw
    obtain ⟨hreceives', hleft⟩ := receives_next hreceives h.sends ha hoff hn w
      (x.answers ++ (c.handler upc).answers call)
    refine ⟨⟨hlive fun e he => ?_, h.connected, h.sends, pc, hset, hreceives'⟩, ?_⟩
    · rw [he] at hreceives'
      exact hreceives'
    · rw [left, left, hset, hu, Option.elim_some, Option.elim_some]
      dsimp only [Client.handler]
      omega
  | client call =>
    simp only [Exchange.step] at hs
    split_ifs at hs
    obtain ⟨pc, hn, rfl⟩ := Option.map_eq_some_iff.mp hs
    obtain ⟨hsends, hleft⟩ := Client.sends_next h.sends ha hn
    have hconnected : call.connects x.connected := by
      cases call with
      | connect ok => cases ha
      | _ => exact h.connected
    refine ⟨⟨h.live, hconnected, hsends, upc, hu, hreceives.append _ _ _⟩, ?_⟩
    rw [left, left]
    simp only [ExchangeAction.isFlush, Bool.not_false, Bool.toNat_true]
    omega

/-- A client that has not closed the connection can go on. -/
theorem progress_client (h : x.Uploading c) (hend : x.pc ≠ .succeeded true) :
    ∃ call x', ExchangeAction.inLoops (.client call) ∧ x.step c (.client call) = some x' := by
  have hsends := h.sends
  cases hpc : x.pc with
  | opening =>
    exact ⟨.openFile true, _, rfl, by simp [Exchange.step, allows, Client.next, hpc]; rfl⟩
  | reading toUpload offset =>
    exact ⟨.readFile none, _, rfl, by simp [Exchange.step, allows, Client.next, hpc]; rfl⟩
  | writing toUpload offset block more =>
    exact ⟨.write none, _, rfl, by simp [Exchange.step, allows, Client.next, hpc]; rfl⟩
  | succeeded closed =>
    cases closed with
    | true => exact (hend hpc).elim
    | false => exact ⟨.close, _, rfl, by simp [Exchange.step, allows, Client.next, hpc]; rfl⟩
  | _ =>
    rw [hpc] at hsends
    exact hsends.elim

theorem exists_step_handler (h : x.Uploading c) {upc pc : UploadPc} (call : UploadCall)
    {s : Server} (hu : x.world.uploads[0]? = some (c.handler upc))
    (hn : (c.handler upc).next x.world.server call = some (s, pc))
    (hoff : x.offers (c.handler upc) call) : ∃ x', x.step c (.handler call) = some x' := by
  simp [Exchange.step, hu, hoff, World.step_upload h.live hu, hn]

/-- A handler whose client has written its file can go on until it has kept the file. -/
theorem progress_handler (h : x.Uploading c) (hend : x.pc = .succeeded true)
    (hkept : ∀ bs, x.world.uploads[0]? ≠ some (c.handler (.kept bs))) :
    ∃ call x', ExchangeAction.inLoops (.handler call) ∧
      ExchangeAction.isFlush (.handler call) = false ∧ x.step c (.handler call) = some x' := by
  obtain ⟨upc, hu, hreceives⟩ := h.receives
  have hsent : x.sent = c.content := h.sends.sent_of_closed (by rw [hend]; rfl)
  cases upc with
  | waiting =>
    obtain ⟨x', hs⟩ := h.exists_step_handler (.select .ready) hu rfl h.connected
    exact ⟨_, x', rfl, rfl, hs⟩
  | connecting =>
    obtain ⟨x', hs⟩ := h.exists_step_handler (.accept true) hu rfl h.connected
    exact ⟨_, x', rfl, rfl, hs⟩
  | opening failed =>
    obtain ⟨-, -, hopen⟩ := hreceives
    obtain ⟨⟨ino, folder⟩, hopened⟩ := Option.isSome_iff_exists.mp hopen
    have hn : (c.handler (.opening failed)).next x.world.server (.openFile true) =
        some ({ x.world.server with folder := folder },
          .receiving failed ⟨ino, 0, [], true⟩ c.fileSize []) := by
      simp [Upload.next, Client.handler, hopened]
    obtain ⟨x', hs⟩ := h.exists_step_handler (.openFile true) hu hn trivial
    exact ⟨_, x', rfl, rfl, hs⟩
  | receiving failed st toUpload received =>
    obtain ⟨-, -, htaken, hleft, -⟩ := hreceives
    by_cases hzero : toUpload = 0
    · obtain ⟨x', hs⟩ := h.exists_step_handler (.read .endOfStream) hu rfl (Or.inl hzero)
      exact ⟨_, x', rfl, rfl, hs⟩
    · -- a read may give as little as one byte
      set bs := (x.sent.drop x.taken).take 1 with hbs
      have hpos : toUpload.toNat ≠ 0 := fun he => hzero (UInt64.toNat_inj.mp he)
      have hlen : bs.length = 1 := by
        rw [hbs, List.length_take, List.length_drop, hsent]
        omega
      have hlimit : bs.length ≤ Upload.readLimit toUpload := by
        have hmax : maxBufferSize = 65536 := rfl
        rw [hlen, Upload.readLimit]
        omega
      have hn : (c.handler (.receiving failed st toUpload received)).next x.world.server
          (.read (.piece bs)) = some (x.world.server, .receiving failed (st.write bs)
            (toUpload - UInt64.ofNat bs.length) (received ++ bs)) := by
        simp only [Upload.next, Client.handler]
        rw [if_pos ⟨by omega, hlimit⟩]
      obtain ⟨x', hs⟩ := h.exists_step_handler (.read (.piece bs)) hu hn (List.take_prefix ..)
      exact ⟨_, x', rfl, rfl, hs⟩
  | closing failed st toUpload received =>
    obtain ⟨x', hs⟩ := h.exists_step_handler (.closeFile true) hu rfl trivial
    exact ⟨_, x', rfl, rfl, hs⟩
  | kept received => exact (hkept received hu).elim
  | _ => exact hreceives.elim

end Uploading

/-- The counter of the handler is what it has not received, and is zero after the last read. What
it has kept is the file of the client. -/
def Counts (c : Client) (x : Exchange) : UploadPc → Prop
  | .waiting | .connecting | .opening _ => True
  | .receiving _ _ toUpload received => toUpload.toNat + received.length = c.content.length
  | .closing _ _ toUpload received => toUpload = 0 ∧ received = c.content
  | .kept received =>
    received = c.content ∧ x.world.server.folder.content c.filename = some c.content
  | _ => False

theorem Receives.counts {pc : UploadPc} (h : x.Receives c x.world.server.folder pc) :
    x.Counts c pc := by
  cases pc with
  | waiting | connecting | opening failed => trivial
  | receiving failed st toUpload received =>
    obtain ⟨-, rfl, htaken, hleft, -⟩ := h
    rw [Counts, List.length_take]
    omega
  | closing failed st toUpload received => exact ⟨h.2.1, h.2.2.1⟩
  | _ => exact h

/-- What the two sides have come to after the actions. -/
structure Delivers (c : Client) (as : List ExchangeAction) (x : Exchange) : Prop where
  sender : c.Counts x.pc
  sent : x.pc.reported → x.sent = c.content
  receiver : ∃ pc, x.world.uploads[0]? = some (c.handler pc) ∧ x.Counts c pc
  bounded : as.countP (fun a => !a.isFlush) ≤
    (blockSteps c.content.length 0 + 2) + (c.content.length + 5)
  goesOn : x.pc = .succeeded true ∧
      (∃ received, x.world.uploads[0]? = some (c.handler (.kept received))) ∨
    ∃ a x', a.inLoops ∧ a.isFlush = false ∧ x.step c a = some x'

theorem Connected.left_eq (h : x.Connected c) : x.left c.content.length =
    (blockSteps c.content.length 0 + 2) + (c.content.length + 5) := by
  rw [left, h.sender, h.receiver, Option.elim_some, h.taken]
  rfl

theorem Connected.delivers {as : List ExchangeAction} (h : x.Connected c)
    (has : ∀ a ∈ as, a.inLoops) (hr : run (step c) x as = some x') : x'.Delivers c as := by
  obtain ⟨hd, hle⟩ := countP_le_of_decreasing (left c.content.length)
    (fun y a y' (hy : y.Uploading c) (ha : a.inLoops) hs => hy.step ha hs) h.uploading has hr
  rw [h.left_eq] at hle
  obtain ⟨pc, hu, hreceives⟩ := hd.receives
  refine ⟨hd.sends.counts, hd.sends.sent_of_reported, ⟨pc, hu, hreceives.counts⟩,
    le_of_add_le_right hle, ?_⟩
  by_cases hend : x'.pc = .succeeded true
  · by_cases hkept : ∃ received, x'.world.uploads[0]? = some (c.handler (.kept received))
    · exact Or.inl ⟨hend, hkept⟩
    · obtain ⟨call, y, hc, hflush, hs⟩ := hd.progress_handler hend (not_exists.mp hkept)
      exact Or.inr ⟨_, y, hc, hflush, hs⟩
  · obtain ⟨call, y, hc, hs⟩ := hd.progress_client hend
    exact Or.inr ⟨_, y, hc, rfl, hs⟩

/-! ## The connection -/

/-- A handler that has a connection has it from the client. -/
def Joined (x : Exchange) : Prop :=
  ∀ u ∈ x.world.uploads, u.pc.joined → x.connected

theorem Joined.world (h : x.Joined) {a : Action} {w : World} (hs : x.world.step a = some w)
    (ha : ∀ i, a = .upload i (.select .ready) → x.connected) : Joined { x with world := w } := by
  intro u hu hjoined
  obtain ⟨i, hi⟩ := List.getElem?_of_mem hu
  cases World.thread_cases hs hi with
  | called action before next after =>
    subst after
    rcases Upload.joined_of_next next hjoined with hbefore | rfl
    · exact h _ (List.mem_of_getElem? before) hbefore
    · exact ha i action
  | same before => exact h u (List.mem_of_getElem? before) hjoined
  | new before start =>
    rw [start] at hjoined
    cases hjoined

theorem Joined.step (h : x.Joined) (hw : c.Wrote x.pc x.connected x.sent) {a : ExchangeAction}
    (hs : x.step c a = some x') : x'.Joined := by
  cases a with
  | deliver =>
    simp only [Exchange.step] at hs
    split_ifs at hs
    obtain ⟨payload, -, hs⟩ := Option.bind_eq_some_iff.mp hs
    obtain ⟨w, hw, rfl⟩ := Option.map_eq_some_iff.mp hs
    exact h.world hw fun i ha => by cases ha
  | handler call =>
    simp only [Exchange.step] at hs
    obtain ⟨u, -, hs⟩ := Option.bind_eq_some_iff.mp hs
    split_ifs at hs with hoff
    obtain ⟨w, hw, rfl⟩ := Option.map_eq_some_iff.mp hs
    refine h.world hw fun i ha => ?_
    cases ha
    exact hoff
  | server a =>
    simp only [Exchange.step] at hs
    split_ifs at hs with ha
    obtain ⟨w, hw, rfl⟩ := Option.map_eq_some_iff.mp hs
    refine h.world hw ?_
    rintro i rfl
    cases ha
  | client call =>
    simp only [Exchange.step] at hs
    split_ifs at hs with hallow
    obtain ⟨pc, hn, rfl⟩ := Option.map_eq_some_iff.mp hs
    exact fun u hu hjoined => (connects_of_step hw hallow (by simp [hn])).1 (h u hu hjoined)

/-- A client that connects finds its handler waiting. -/
theorem InStep.connected (h : InStep c x) (hjoined : x.Joined)
    (hs : x.step c (.client (.connect true)) = some x')
    (hopen : x.world.server.folder.openable c.filename) : x'.Connected c := by
  simp only [Exchange.step] at hs
  split_ifs at hs with hallow
  obtain ⟨cpc, hn, rfl⟩ := Option.map_eq_some_iff.mp hs
  cases hpc : x.pc with
  | connecting port =>
    have hw := h.wrote
    rw [hpc] at hw hn
    cases hn
    obtain ⟨hconn, hsent⟩ := hw
    simp only [allows, hpc, listens, Bool.and_eq_true, decide_eq_true_eq] at hallow
    obtain ⟨hport, hany⟩ := hallow
    obtain ⟨pc, hup, hh⟩ := h.handling.resolve_left fun he => by
      simp [he.2.1] at hport
    have htook := hh.took
    have hend : pc.ended = false := by simpa [hup, Client.handler] using hany
    have hjoin : pc.joined = false := by
      by_contra hj
      have := hjoined (c.handler pc) (by simp [hup]) (by simpa [Client.handler] using hj)
      rw [hconn] at this
      cases this
    unfold Took at htook
    cases pc with
    | waiting =>
      exact ⟨h.live, rfl, rfl, (List.append_nil _).trans hsent, by simp [hup], hopen, htook⟩
    | start | reserved | nameTaken | refusing | refused | accepted =>
      rw [show x.port = none from htook.1] at hport
      cases hport
    | connecting | opening failed | receiving failed st toUpload received
    | closing failed st toUpload received => cases hjoin
    | kept received => cases hend
    | checking | removing | releasing | forgetting | failed =>
      cases hpc.symm.trans (show x.pc = .failed true from htook)
    | _ => exact htook.elim
  | _ =>
    rw [hpc] at hn
    cases hn

/-- In a run in which nothing fails at the handler, the loops start when the client connects. -/
theorem connected_of_run {max : UInt64} {folder : Folder Filename} {listing : List Filename}
    {as : List ExchangeAction} (hl : World.Lists listing folder)
    (hr : run (step c) (start (World.initial (Server.generateFilesInStorage max folder listing)))
      as = some x)
    (hP : Along (step c) (fun x a => x.GoesWell a ∧ x.NotRemoved c a)
      (start (World.initial (Server.generateFilesInStorage max folder listing))) as)
    (hopen : folder.openable c.filename)
    (hs : x.step c (.client (.connect true)) = some x') : x'.Connected c := by
  have hx : InStep c x ∧ x.Joined ∧ x.world.server.folder.openable c.filename :=
    run_invariant (fun x => InStep c x ∧ x.Joined ∧ x.world.server.folder.openable c.filename)
      (fun y a y' ⟨hin, hjoined, hopen⟩ ha hs =>
        ⟨hin.step ha.1 ha.2 hs, hjoined.step hin.wrote hs, openable_step hopen hs⟩)
      ⟨inStep_start hl, fun u hu => (List.not_mem_nil hu).elim,
        by simpa [start, World.initial] using hopen⟩ hr hP
  exact hx.1.connected hx.2.1 hs hx.2.2

end Exchange

/-- If no call fails from the connection on, the receiver of a download or an upload gets the
sender's file, and both sides end. -/
theorem loops_identity {f : Filename} {i : ℕ} {content : Bytes} {x x' : Fetch}
    {as : List FetchAction} {c : Client} {y y' : Exchange} {bs : List ExchangeAction}
    (hx : x.Connected f i content) (has : ∀ a ∈ as, a.inLoops i)
    (hr : run (Fetch.step f) x as = some x')
    (hy : y.Connected c) (hbs : ∀ b ∈ bs, b.inLoops)
    (hr' : run (Exchange.step c) y bs = some y') :
    x'.Delivers f i content as ∧ y'.Delivers c bs :=
  ⟨hx.delivers has hr, hy.delivers hbs hr'⟩

/-- A file of two bytes is uploaded, and a client connects to fetch it. -/
def connectToFetch : List FetchAction :=
  Fetch.uploadOfTwo.map .server ++ [.server (.upload 0 (.closeFile true)),
    .server (.receive (simpleDatagram ⟨2, 2⟩ 2 fileGetRequest [97])),
    .server (.download 0 (.announce (some 6))), .client (.connect (some 0))]

/-- The client reads the two bytes one by one. -/
def fetchTwoBytes : List FetchAction :=
  [.client (.openFile true), .server (.download 0 (.select .ready)),
    .server (.download 0 (.accept true)), .server (.download 0 (.openFile true)),
    .server (.download 0 (.readFile none)), .server (.download 0 (.write none)),
    .client (.read (.piece [1])), .client (.flush 1 true), .client (.read (.piece [2])),
    .client (.read .endOfStream), .client (.closeFile true)]

/-- A client connects to upload three bytes. -/
def connectToUpload : List ExchangeAction :=
  [.deliver, .handler .checkAndReserveSpace, .handler .addFileToStorage,
    .handler (.announce (some 5)),
    .client (.answer (complexMessage 1 fileAddAcceptance [] 5)), .client (.connect true)]

/-- The server reads one byte, and then two. -/
def uploadThreeBytes : List ExchangeAction :=
  [.client (.openFile true), .client (.readFile none), .client (.write none), .client .close,
    .handler (.select .ready), .handler (.accept true), .handler (.openFile true),
    .handler (.read (.piece [1])), .handler (.flush 1 true),
    .handler (.read (.piece [2, 3])), .handler (.read .endOfStream), .handler (.closeFile true)]

theorem twoFiles_identity : ∃ x x' y y',
    run (Fetch.step [97]) (Fetch.start (World.started 10) .empty) connectToFetch = some x ∧
      run (Fetch.step [97]) x fetchTwoBytes = some x' ∧
      run (Exchange.step Exchange.threeBytes) (Exchange.start (World.started 10)) connectToUpload =
        some y ∧
      run (Exchange.step Exchange.threeBytes) y uploadThreeBytes = some y' ∧
      x'.Delivers [97] 0 [1, 2] fetchTwoBytes ∧
      y'.Delivers Exchange.threeBytes uploadThreeBytes := by
  obtain ⟨x, hx, hxc⟩ : ∃ x, run (Fetch.step [97]) (Fetch.start (World.started 10) .empty)
      connectToFetch = some x ∧ ((x.world.downloads[0]?.any fun u => decide (u.pc = .waiting ∧
        x.world.server.folder.content u.filename = some [1, 2])) &&
      decide (x.world.terminated = false ∧ x.handler = some 0 ∧ x.pc = .opening ∧
        x.folder.openable [97] ∧ x.taken = 0 ∧ x.reports = []) &&
      (run (Fetch.step [97]) x fetchTwoBytes).isSome) := exists_run_of_any _ (by decide)
  obtain ⟨y, hy, hyc⟩ : ∃ y, run (Exchange.step Exchange.threeBytes)
      (Exchange.start (World.started 10)) connectToUpload = some y ∧
      (decide (y.world.terminated = false ∧ y.connected ∧ y.pc = .opening ∧ y.sent = [] ∧
        y.world.uploads[0]? = some (Exchange.threeBytes.handler .waiting) ∧
        y.world.server.folder.openable [97] ∧ y.taken = 0) &&
      (run (Exchange.step Exchange.threeBytes) y uploadThreeBytes).isSome) :=
    exists_run_of_any _ (by decide)
  rw [Bool.and_eq_true, Bool.and_eq_true, Option.any_eq_true] at hxc
  obtain ⟨⟨⟨u, hu, hsender⟩, hxc⟩, hxr⟩ := hxc
  obtain ⟨hlive, hhandler, hpc, hopen, htaken, hreports⟩ := of_decide_eq_true hxc
  obtain ⟨x', hx'⟩ := Option.isSome_iff_exists.mp hxr
  obtain ⟨hyc, hyr⟩ := Bool.and_eq_true_iff.mp hyc
  obtain ⟨hlive', hconn', hpc', hsent', hu', hopen', htaken'⟩ := of_decide_eq_true hyc
  obtain ⟨y', hy'⟩ := Option.isSome_iff_exists.mp hyr
  exact ⟨x, x', y, y', hx, hx', hy, hy', loops_identity
    ⟨hlive, hhandler, ⟨u, hu, of_decide_eq_true hsender⟩, hpc, hopen, htaken, hreports⟩ (by decide)
    hx' ⟨hlive', hconn', hpc', hsent', hu', hopen', htaken'⟩ (by decide) hy'⟩

end Netstore
