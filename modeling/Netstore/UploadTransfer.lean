import Netstore.UploadTrace

/-!
# The transfer of an upload

The loop of `upload_file_via_tcp` reads pieces of the connection until as many bytes have
come as were declared, and writes them to a file stream that it never asks for its state.
An upload that runs alone, from the point where its file is opened, is kept exactly if all
the bytes have come and no read has failed. What it keeps is what came exactly if no byte
was lost on the way to the file (`Lossless`), so it does what is expected of it unless a
write fails that loses bytes of a transfer that is complete, or a read fails after one
(`keptExactly_iff`).
-/

namespace Netstore

/-- What a call reads from the connection. -/
def UploadCall.readBytes : UploadCall → Bytes
  | read (.piece bs) => bs
  | _ => []

namespace Upload

open Transition

/-- What the calls read from the connection, in order. -/
def receivedBytes (calls : List UploadCall) : Bytes :=
  calls.flatMap UploadCall.readBytes

/-- The call loses no byte on its way to the file : the stream is good when a piece is written
to it, and its buffer is empty when a write to the file fails. -/
def Lossless (x : Server × UploadPc) (c : UploadCall) : Prop :=
  match x.2, c with
  | .receiving _ st _ _, .read (.piece _) => st.good
  | .receiving _ st _ _, .flush _ false => st.buffer = []
  | .closing _ st _ _, .closeFile false => st.buffer = []
  | _, _ => True

instance (x : Server × UploadPc) (c : UploadCall) : Decidable (Lossless x c) := by
  obtain ⟨s, pc⟩ := x
  cases pc <;> cases c <;> first
    | exact .isTrue trivial
    | rename_i r
      cases r <;> unfold Lossless <;> infer_instance

variable (u : Upload) (x₀ : Server × UploadPc) (calls : List UploadCall)

/-- An upload that has opened its file at `x₀` and ended at `x` is kept exactly if all its bytes
are received and written. Then the file is what was received, and otherwise the file, the space
and the name are released. It never takes more than is left of the declared size. -/
structure KeptExactly (x : Server × UploadPc) : Prop where
  iff : (∃ bs, x.2 = .kept bs) ↔
    (receivedBytes calls).length = u.fileSize.toNat ∧ Along (alone u) Lossless x₀ calls
  kept : ∀ bs, x.2 = .kept bs → bs = receivedBytes calls ∧
    x.1.folder.content u.filename = some bs ∧ x.1.usedSpace = x₀.1.usedSpace ∧
    x.1.filesInStorage = x₀.1.filesInStorage
  released : (¬∃ bs, x.2 = .kept bs) → x.1.folder.entries u.filename = none ∧
    x.1.usedSpace = x₀.1.usedSpace - u.fileSize ∧
    x.1.filesInStorage = x₀.1.filesInStorage.erase u.filename
  bound : ∀ pre y failed st toUpload received, pre <+: calls → run (alone u) x₀ pre = some y →
    y.2 = .receiving failed st toUpload received →
      toUpload.toNat + (receivedBytes pre).length = u.fileSize.toNat

/-- How far the open file has got with the bytes `received`. -/
structure Written (lossless : Prop) (d : Folder Filename) (f : Filename) (st : Stream)
    (received : Bytes) : Prop where
  inode : d.inode f = some st.ino
  offset : (d.contents st.ino).length = st.offset
  bad : st.good = false → st.buffer = []
  all : lossless → received = d.contents st.ino ++ st.buffer
  short : ¬lossless → st.good = false ∧ st.offset < received.length

/-- Where an upload has got to after the calls. -/
def Got (x : Server × UploadPc) : Prop :=
  match x.2 with
  | .receiving failed st toUpload received =>
    (failed = false ∧ .read .failure ∉ calls) ∧ received = receivedBytes calls ∧
      toUpload.toNat + received.length = u.fileSize.toNat ∧
      Written (Along (alone u) Lossless x₀ calls) x.1.folder u.filename st received ∧
      x.1.usedSpace = x₀.1.usedSpace ∧ x.1.filesInStorage = x₀.1.filesInStorage
  | .closing failed st toUpload received =>
    (failed ↔ .read .failure ∈ calls) ∧ received = receivedBytes calls ∧
      toUpload.toNat + received.length = u.fileSize.toNat ∧
      Written (Along (alone u) Lossless x₀ calls) x.1.folder u.filename st received ∧
      x.1.usedSpace = x₀.1.usedSpace ∧ x.1.filesInStorage = x₀.1.filesInStorage
  | .kept bs =>
    .read .failure ∉ calls ∧ bs = receivedBytes calls ∧ bs.length = u.fileSize.toNat ∧
      (x.1.folder.content u.filename = some bs ↔ Along (alone u) Lossless x₀ calls) ∧
      x.1.usedSpace = x₀.1.usedSpace ∧ x.1.filesInStorage = x₀.1.filesInStorage
  | .checking | .removing =>
    ((receivedBytes calls).length = u.fileSize.toNat → .read .failure ∈ calls) ∧
      x.1.folder.inode u.filename ≠ none ∧ x.1.usedSpace = x₀.1.usedSpace ∧ x.1.filesInStorage = x₀.1.filesInStorage
  | .releasing =>
    ((receivedBytes calls).length = u.fileSize.toNat → .read .failure ∈ calls) ∧
      x.1.folder.entries u.filename = none ∧ x.1.usedSpace = x₀.1.usedSpace ∧
      x.1.filesInStorage = x₀.1.filesInStorage
  | .forgetting =>
    ((receivedBytes calls).length = u.fileSize.toNat → .read .failure ∈ calls) ∧
      x.1.folder.entries u.filename = none ∧ x.1.usedSpace = x₀.1.usedSpace - u.fileSize ∧
      x.1.filesInStorage = x₀.1.filesInStorage
  | .failed =>
    ((receivedBytes calls).length = u.fileSize.toNat → .read .failure ∈ calls) ∧
      x.1.folder.entries u.filename = none ∧ x.1.usedSpace = x₀.1.usedSpace - u.fileSize ∧
      x.1.filesInStorage = x₀.1.filesInStorage.erase u.filename
  | .uncaught _ => True
  | _ => False

section Written

variable {lossless lossless' : Prop} {d : Folder Filename} {f : Filename} {st : Stream}
  {received bs : Bytes}

/-- The file is opened empty. -/
theorem written_openTruncate {d' : Folder Filename} {ino : ℕ}
    (h : d.openTruncate f = some (ino, d')) (hl : lossless) :
    Written lossless d' f ⟨ino, 0, [], true⟩ [] := by
  have hempty := d.inode_openTruncate h
  exact ⟨hempty.1, by simp [hempty.2], fun _ => rfl, fun _ => by simp [hempty.2],
    fun hno => (hno hl).elim⟩

theorem Written.of_iff (h : Written lossless d f st received) (hl : lossless' ↔ lossless) :
    Written lossless' d f st received := by
  rwa [propext hl]

/-- A piece is received; it is lost if the stream is bad. -/
theorem Written.write (h : Written lossless d f st received) (hpos : 0 < bs.length)
    (hl : lossless' ↔ lossless ∧ st.good) :
    Written lossless' d f (st.write bs) (received ++ bs) := by
  obtain ⟨hinode, hoff, hbad, hall, hshort⟩ := h
  cases hg : st.good with
  | true =>
    have hw : st.write bs = { st with buffer := st.buffer ++ bs } := by
      rw [Stream.write, if_pos hg]
    rw [hg] at hl
    rw [hw]
    refine ⟨hinode, hoff, by simp [hg], fun hl' => ?_, fun hl' => ?_⟩
    · rw [hall (hl.mp hl').1, List.append_assoc]
    · exact absurd (hshort fun h => hl' (hl.mpr ⟨h, rfl⟩)).1 (by simp [hg])
  | false =>
    have hw : st.write bs = st := by
      rw [Stream.write, if_neg (by simp [hg])]
    rw [hg] at hl
    rw [hw]
    refine ⟨hinode, hoff, hbad, fun hl' => by simp at hl; exact (hl hl').elim, fun _ => ⟨hg, ?_⟩⟩
    rw [List.length_append]
    by_cases h : lossless
    · have := congrArg List.length (hall h)
      rw [List.length_append, hoff] at this
      omega
    · have := (hshort h).2
      omega

theorem Written.flush (h : Written lossless d f st received) (n : ℕ) :
    Written lossless (st.flush d n).1 f (st.flush d n).2 received := by
  obtain ⟨hinode, hoff, hbad, hall, hshort⟩ := h
  have hcont : (st.flush d n).1.contents st.ino = d.contents st.ino ++ st.buffer.take n := by
    refine (Function.update_self ..).trans ?_
    rw [← hoff, Bytes.overwrite_length_self]
  refine ⟨hinode, ?_, fun hg => ?_, fun hl => ?_, fun hl => ?_⟩
  · exact (congrArg List.length hcont).trans (by rw [List.length_append, hoff]; rfl)
  · exact List.drop_eq_nil_of_le (by simp [hbad hg])
  · refine Eq.trans ?_ (congrArg (· ++ st.buffer.drop n) hcont.symm)
    rw [List.append_assoc, List.take_append_drop]
    exact hall hl
  · -- a stream that has lost bytes has an empty buffer
    obtain ⟨hg, hlt⟩ := hshort hl
    exact ⟨hg, by simpa [Stream.flush, hbad hg] using hlt⟩

/-- A write to the file fails and loses what is in the buffer. -/
theorem Written.spoil (h : Written lossless d f st received)
    (hl : lossless' ↔ lossless ∧ st.buffer = []) : Written lossless' d f st.spoil received := by
  obtain ⟨hinode, hoff, hbad, hall, hshort⟩ := h
  refine ⟨hinode, hoff, fun _ => rfl, fun hl' => ?_, fun hl' => ⟨rfl, ?_⟩⟩
  · obtain ⟨h, hbuf⟩ := hl.mp hl'
    rw [hall h, hbuf]
    rfl
  · by_cases h : lossless
    · have hbuf : st.buffer.length ≠ 0 := fun h0 =>
        hl' (hl.mpr ⟨h, List.length_eq_zero_iff.mp h0⟩)
      have := congrArg List.length (hall h)
      rw [List.length_append, hoff] at this
      simp only [Stream.spoil]
      omega
    · exact (hshort h).2

/-- The file is what was received exactly if no byte was lost. -/
theorem Written.content_iff (h : Written lossless d f st received) (hbuf : st.buffer = []) :
    d.content f = some received ↔ lossless := by
  have hc : d.content f = some (d.contents st.ino) := by rw [Folder.content, h.inode]; rfl
  rw [hc, Option.some.injEq]
  constructor
  · intro he
    by_contra hl
    have := (h.short hl).2
    rw [← he, h.offset] at this
    exact lt_irrefl _ this
  · intro hl
    rw [h.all hl, hbuf, List.append_nil]

end Written

variable {u x₀ calls} {x x' : Server × UploadPc} {c : UploadCall}

theorem receivedBytes_concat (calls : List UploadCall) (c : UploadCall) :
    receivedBytes (calls ++ [c]) = receivedBytes calls ++ c.readBytes := by
  simp [receivedBytes]

theorem got_afterTransfer {failed : Bool} {toUpload : UInt64} {received : Bytes} {s : Server}
    (hfailed : failed ↔ .read .failure ∈ calls) (hrec : received = receivedBytes calls)
    (hleft : toUpload.toNat + received.length = u.fileSize.toNat)
    (hcont : s.folder.content u.filename = some received ↔ Along (alone u) Lossless x₀ calls)
    (hinode : s.folder.inode u.filename ≠ none) (hused : s.usedSpace = x₀.1.usedSpace)
    (hfiles : s.filesInStorage = x₀.1.filesInStorage) :
    Got u x₀ calls (s, afterTransfer failed toUpload received) := by
  unfold afterTransfer
  split_ifs with h
  · refine ⟨fun hlen => ?_, hinode, hused, hfiles⟩
    rw [hrec, hlen] at hleft
    exact hfailed.mp (h.resolve_right fun h0 =>
      h0 (UInt64.toNat_inj.mp (by rw [UInt64.toNat_zero]; omega)))
  · simp only [not_or, Bool.not_eq_true, not_not] at h
    refine ⟨fun hmem => ?_, hrec, ?_, hcont, hused, hfiles⟩
    · simpa [h.1] using hfailed.mpr hmem
    · simpa [h.2] using hleft

/-- Every call of the upload leads where it is expected. -/
theorem Got.next (h : Got u x₀ calls x) (hr : run (alone u) x₀ calls = some x)
    (hn : alone u x c = some x') : Got u x₀ (calls ++ [c]) x' := by
  have hl := along_concat (P := Lossless) (a := c) hr
  obtain ⟨s, p⟩ := x
  obtain ⟨s', pc⟩ := x'
  unfold Got at h
  have hbytes := receivedBytes_concat calls c
  have hquiet : c.readBytes = [] → receivedBytes (calls ++ [c]) = receivedBytes calls := by
    intro hc
    rw [hbytes, hc, List.append_nil]
  have hstill : c.readBytes = [] →
      ((receivedBytes calls).length = u.fileSize.toNat → .read .failure ∈ calls) →
      (receivedBytes (calls ++ [c])).length = u.fileSize.toNat → .read .failure ∈ calls ++ [c] :=
    fun hc h hlen => List.mem_append_left _ (h (hquiet hc ▸ hlen))
  have hsame : Lossless (s, p) c → (Along (alone u) Lossless x₀ (calls ++ [c]) ↔
      Along (alone u) Lossless x₀ calls) := fun hc => hl.trans (and_iff_left hc)
  cases next_cases hn with
  | reserve before | reject before | add before | taken before | freeTaken before
  | freeAnnounce before | announce before | announceFail before | refuse before | ready before
  | notReady before | accept before | create before | openFail before =>
    dsimp only at before
    rw [before] at h
    exact h.elim
  | forget before =>
    rcases before with before | before <;> dsimp only at before <;> rw [before] at h
    · exact h.elim
    · obtain ⟨hend, he, hused, hfiles⟩ := h
      exact ⟨hstill rfl hend, he, hused, congrArg (SortedSet.erase · u.filename) hfiles⟩
  | free before =>
    obtain rfl : p = .releasing := before
    obtain ⟨hend, he, hused, hfiles⟩ := h
    exact ⟨hstill rfl hend, he, congrArg (· - u.fileSize) hused, hfiles⟩
  | @piece failed st toUpload received bs before pos le =>
    obtain rfl : p = .receiving failed st toUpload received := before
    obtain ⟨⟨rfl, hno⟩, hrec, hleft, hw, hstate⟩ := h
    have hle : bs.length ≤ toUpload.toNat := le.trans (min_le_right _ _)
    refine ⟨⟨rfl, by simpa using hno⟩, ?_, ?_, hw.write pos hl, hstate⟩
    · rw [hbytes, hrec]
      rfl
    · rw [toNat_sub_ofNat hle, List.length_append]
      omega
  | @endOfStream failed st toUpload received before =>
    obtain rfl : p = .receiving failed st toUpload received := before
    obtain ⟨⟨rfl, hno⟩, hrec, hleft, hw, hstate⟩ := h
    exact ⟨by simpa using hno, hrec.trans (hquiet rfl).symm, hleft, hw.of_iff (hsame trivial),
      hstate⟩
  | @readFail failed st toUpload received before =>
    obtain rfl : p = .receiving failed st toUpload received := before
    obtain ⟨-, hrec, hleft, hw, hstate⟩ := h
    exact ⟨by simp, hrec.trans (hquiet rfl).symm, hleft, hw.of_iff (hsame trivial), hstate⟩
  | @flush failed st toUpload received before n =>
    obtain rfl : p = .receiving failed st toUpload received := before
    obtain ⟨⟨rfl, hno⟩, hrec, hleft, hw, hstate⟩ := h
    exact ⟨⟨rfl, by simpa using hno⟩, hrec.trans (hquiet rfl).symm, hleft,
      (hw.flush n).of_iff (hsame trivial), hstate⟩
  | @spoil failed st toUpload received before n =>
    obtain rfl : p = .receiving failed st toUpload received := before
    obtain ⟨⟨rfl, hno⟩, hrec, hleft, hw, hstate⟩ := h
    exact ⟨⟨rfl, by simpa using hno⟩, hrec.trans (hquiet rfl).symm, hleft, hw.spoil hl, hstate⟩
  | @close failed st toUpload received before =>
    obtain rfl : p = .closing failed st toUpload received := before
    obtain ⟨hfailed, hrec, hleft, hw, hused, hfiles⟩ := h
    have hcont := ((hw.flush st.buffer.length).of_iff (hsame trivial)).content_iff
      (List.drop_length ..)
    exact got_afterTransfer (by simpa using hfailed) (hrec.trans (hquiet rfl).symm) hleft hcont
      (ne_of_eq_of_ne hw.inode nofun) hused hfiles
  | @closeFail failed st toUpload received before =>
    obtain rfl : p = .closing failed st toUpload received := before
    obtain ⟨hfailed, hrec, hleft, hw, hused, hfiles⟩ := h
    exact got_afterTransfer (by simpa using hfailed) (hrec.trans (hquiet rfl).symm) hleft
      ((hw.spoil hl).content_iff rfl) (ne_of_eq_of_ne hw.inode nofun) hused hfiles
  | found before exist =>
    obtain rfl : p = .checking := before
    obtain ⟨hend, hstate⟩ := h
    exact ⟨hstill rfl hend, hstate⟩
  | absent before exist =>
    obtain rfl : p = .checking := before
    obtain ⟨-, hinode, -⟩ := h
    exact (hinode (s.folder.inode_of_not_exists exist)).elim
  | remove before removed =>
    obtain rfl : p = .removing := before
    obtain ⟨hend, -, hstate⟩ := h
    exact ⟨hstill rfl hend, s.folder.entries_remove removed, hstate⟩
  | existsThrows | removeThrows => trivial

/-- What there is when the file is opened. -/
theorem got_openFile {s : Server} (h : alone u (s, .opening false) (.openFile true) = some x₀) :
    Got u x₀ [] x₀ := by
  obtain ⟨s', pc⟩ := x₀
  cases next_cases h with
  | @create failed ino folder before opened =>
    cases before
    exact ⟨⟨rfl, List.not_mem_nil⟩, rfl, rfl, written_openTruncate opened trivial, rfl, rfl⟩

theorem got_of_run (h0 : Got u x₀ [] x₀) (hr : run (alone u) x₀ calls = some x) :
    Got u x₀ calls x :=
  run_induction_all (Got u x₀) h0 (fun _ _ _ _ hr h hn => h.next hr hn) hr

/-- An upload that runs alone, from the opening of its file to its end, is kept exactly when it
is complete on the disk if, once all its bytes have come, a read fails exactly if a byte was
lost. -/
theorem keptExactly_iff {s : Server}
    (hopen : alone u (s, .opening false) (.openFile true) = some x₀)
    (hr : run (alone u) x₀ calls = some x) (hend : x.2 = .failed ∨ ∃ bs, x.2 = .kept bs) :
    KeptExactly u x₀ calls x ↔ ((receivedBytes calls).length = u.fileSize.toNat →
      (.read .failure ∈ calls ↔ ¬Along (alone u) Lossless x₀ calls)) := by
  have h0 := got_openFile hopen
  have h := got_of_run h0 hr
  have hbound : ∀ pre y failed st toUpload received, pre <+: calls →
      run (alone u) x₀ pre = some y → y.2 = .receiving failed st toUpload received →
        toUpload.toNat + (receivedBytes pre).length = u.fileSize.toNat := by
    intro pre y failed st toUpload received _ hr hy
    have h := got_of_run h0 hr
    simp only [Got, hy] at h
    rw [← h.2.1]
    exact h.2.2.1
  obtain ⟨s', pc⟩ := x
  rcases hend with hend | ⟨bs, hend⟩
  · obtain rfl : pc = .failed := hend
    obtain ⟨hread, hentry, hused, hfiles⟩ := h
    have hno : ¬∃ bs, UploadPc.failed = .kept bs := by simp
    constructor
    · intro hk hlen
      exact ⟨fun _ hl => hno (hk.iff.mpr ⟨hlen, hl⟩), fun _ => hread hlen⟩
    · intro hc
      refine ⟨⟨fun h => (hno h).elim, fun h => ?_⟩, nofun, fun _ => ⟨hentry, hused, hfiles⟩, hbound⟩
      exact ((hc h.1).mp (hread h.1) h.2).elim
  · obtain rfl : pc = .kept bs := hend
    obtain ⟨hread, rfl, hlen, hcont, hused, hfiles⟩ := h
    constructor
    · intro hk _
      exact ⟨fun h => (hread h).elim, fun h => (h (hk.iff.mp ⟨_, rfl⟩).2).elim⟩
    · intro hc
      have hl : Along (alone u) Lossless x₀ calls := by
        by_contra h
        exact hread ((hc hlen).mpr h)
      refine ⟨⟨fun _ => ⟨hlen, hl⟩, fun _ => ⟨_, rfl⟩⟩, fun bs hbs => ?_, fun h => (h ⟨_, rfl⟩).elim,
        hbound⟩
      obtain rfl := UploadPc.kept.inj hbs
      exact ⟨rfl, hcont.mpr hl, hused, hfiles⟩

/-- The calls of an upload before its file is opened. -/
def accepting : List UploadCall :=
  [.checkAndReserveSpace, .addFileToStorage, .announce (some 5), .select .ready, .accept true]

/-- One byte comes, and its write to the file succeeds or fails. -/
def oneRead (ok : Bool) : List UploadCall :=
  [.read (.piece [1]), .flush 1 ok, .read .endOfStream, .closeFile true]

/-- The upload of one byte after the calls, on a server that starts empty. -/
def oneByteRun (calls : List UploadCall) : Option (Server × UploadPc) :=
  run (alone (oneByte [97])) (Server.generateFilesInStorage 10 .empty [], .start) calls

theorem oneRead_keptExactly : ∃ s x₀ x, oneByteRun accepting = some (s, .opening false) ∧
    alone (oneByte [97]) (s, .opening false) (.openFile true) = some x₀ ∧
    run (alone (oneByte [97])) x₀ (oneRead true) = some x ∧
      KeptExactly (oneByte [97]) x₀ (oneRead true) x := by
  obtain ⟨⟨s, pc⟩, h, hpc⟩ : ∃ x, oneByteRun accepting = some x ∧ decide (x.2 = .opening false) :=
    exists_run_of_any _ (by decide)
  obtain rfl : pc = .opening false := of_decide_eq_true hpc
  obtain ⟨x₀, h₀, hl⟩ : ∃ x₀, oneByteRun (accepting ++ [.openFile true]) = some x₀ ∧
      decide (Along (alone (oneByte [97])) Lossless x₀ (oneRead true)) :=
    exists_run_of_any _ (by decide)
  obtain ⟨x, hx, hkept⟩ : ∃ x, oneByteRun (accepting ++ [.openFile true] ++ oneRead true) = some x ∧
      decide (x.2 = .kept [1]) := exists_run_of_any _ (by decide)
  have hopen := step_of_concat h h₀
  have hr := run_of_append h₀ hx
  exact ⟨s, x₀, x, h, hopen, hr, (keptExactly_iff hopen hr
    (Or.inr ⟨[1], of_decide_eq_true hkept⟩)).mpr fun _ =>
      iff_of_false (by decide) (not_not.mpr (of_decide_eq_true hl))⟩

/-- The write fails, and the upload is kept with an empty file. -/
theorem oneRead_not_keptExactly : ∃ s x₀ x, oneByteRun accepting = some (s, .opening false) ∧
    alone (oneByte [97]) (s, .opening false) (.openFile true) = some x₀ ∧
    run (alone (oneByte [97])) x₀ (oneRead false) = some x ∧ x.2 = .kept [1] ∧
      ¬KeptExactly (oneByte [97]) x₀ (oneRead false) x := by
  obtain ⟨⟨s, pc⟩, h, hpc⟩ : ∃ x, oneByteRun accepting = some x ∧ decide (x.2 = .opening false) :=
    exists_run_of_any _ (by decide)
  obtain rfl : pc = .opening false := of_decide_eq_true hpc
  obtain ⟨x₀, h₀, -⟩ : ∃ x₀, oneByteRun (accepting ++ [.openFile true]) = some x₀ ∧
      decide (x₀.2 ≠ .checking) := exists_run_of_any _ (by decide)
  obtain ⟨x, hx, hkept⟩ : ∃ x, oneByteRun (accepting ++ [.openFile true] ++ oneRead false) = some x ∧
      decide (x.2 = .kept [1] ∧ x.1.folder.content [97] = some []) :=
    exists_run_of_any _ (by decide)
  obtain ⟨hpc, hcont⟩ := of_decide_eq_true hkept
  refine ⟨s, x₀, x, h, step_of_concat h h₀, run_of_append h₀ hx, hpc, fun hk => ?_⟩
  have := (hk.kept _ hpc).2.1
  dsimp only [oneByte] at this
  rw [hcont] at this
  cases this

end Upload

end Netstore
