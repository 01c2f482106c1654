import Netstore.Admission

/-!
# Uploads one after another

`Server.handleUpload` is the upload handler alone on the server : the check, the name,
and the release if the name is taken. Requests that are handled concurrently are
`Serialisable` if some order of them gives each the same answer one after another and
leaves the same counter and index.

They are, but for those that are missed : refused, although the server they leave
would accept them (`Server.misses`). A request is missed only if it asked for space
while another one held a reservation that it gave back, because its name was taken
(`serialisable_of_not_missed`). Without any such request the order is that of the
uploads that are kept, then all others.
-/

namespace Netstore

/-- The upload is accepted, and complete. -/
def Upload.isKept (u : Upload) : Bool :=
  u.pc.keptBytes.isSome

namespace Server

variable (s : Server)

/-! ## One request at a time -/

/-- The answer to an upload, and the server after it; a transfer that begins completes. -/
def handleUpload (filename : Filename) (fileSize : UInt64) : Bool × Server :=
  if acceptableName filename then
    let (reserved, s) := s.checkAndReserveSpace fileSize
    if reserved then
      let (added, s) := s.addFileToStorage filename
      (added, if added then s else s.freeSpace fileSize)
    else (false, s)
  else (false, s)

/-- The answers to uploads that are handled in order, and the server after the last. -/
def handleUploads (s : Server) : List Upload → List Bool × Server
  | [] => ([], s)
  | u :: us =>
    let (answer, s) := s.handleUpload u.filename u.fileSize
    let (answers, s) := s.handleUploads us
    (answer :: answers, s)

/-- The upload was refused, and would not be now. -/
def misses (u : Upload) : Bool :=
  !u.isKept && (s.handleUpload u.filename u.fileSize).1

variable {s} {s' : Server} {f : Filename} {n : UInt64}

/-- What is accepted takes its space and its name; what is refused leaves the server as it
was, for what it reserved is given back. -/
theorem handleUpload_eq : s.handleUpload f n =
    if acceptableName f ∧ (s.checkAndReserveSpace n).1 ∧ f ∉ s.filesInStorage then
      (true, { s with
        usedSpace := s.usedSpace + n
        filesInStorage := s.filesInStorage.insert f })
    else (false, s) := by
  unfold handleUpload
  by_cases hname : acceptableName f
  · cases hroom : (s.checkAndReserveSpace n).1 with
    | false =>
      have heq : s.checkAndReserveSpace n = (false, s) :=
        Prod.ext hroom (s.checkAndReserveSpace_of_false hroom)
      simp [hname, heq]
    | true =>
      have heq : s.checkAndReserveSpace n = (true, { s with usedSpace := s.usedSpace + n }) :=
        Prod.ext hroom (s.checkAndReserveSpace_of_true hroom)
      rw [if_pos hname, heq]
      by_cases hf : f ∈ s.filesInStorage
      · have hset : s.filesInStorage.insert f = s.filesInStorage := by
          rw [SortedSet.insert, dif_pos hf]
        simp [addFileToStorage, freeSpace, hf, hset]
      · simp [addFileToStorage, hname, hf]
  · simp [hname]

theorem handleUpload_fst_iff : (s.handleUpload f n).1 ↔
    acceptableName f ∧ s.usedSpace.toNat + n.toNat ≤ s.maxAvailableSpace.toNat ∧
      f ∉ s.filesInStorage := by
  rw [← s.checkAndReserveSpace_iff n, handleUpload_eq]
  split_ifs with h <;> simp [h]

theorem handleUpload_of_fst (h : (s.handleUpload f n).1) : (s.handleUpload f n).2 =
    { s with
      usedSpace := s.usedSpace + n
      filesInStorage := s.filesInStorage.insert f } := by
  obtain ⟨hname, hroom, hf⟩ := handleUpload_fst_iff.mp h
  rw [handleUpload_eq, if_pos ⟨hname, (s.checkAndReserveSpace_iff n).mpr hroom, hf⟩]

theorem handleUpload_of_not_fst (h : (s.handleUpload f n).1 = false) :
    s.handleUpload f n = (false, s) := by
  rw [handleUpload_eq] at h ⊢
  split_ifs at h ⊢
  rfl

/-- The answer depends on the index and the counter only. -/
theorem handleUpload_fst_congr (hmax : s'.maxAvailableSpace = s.maxAvailableSpace)
    (hused : s'.usedSpace = s.usedSpace) (hfiles : s'.filesInStorage = s.filesInStorage) :
    (s'.handleUpload f n).1 = (s.handleUpload f n).1 := by
  rw [Bool.eq_iff_iff, handleUpload_fst_iff, handleUpload_fst_iff, hmax, hused, hfiles]

/-! ## One after another -/

theorem handleUploads_append (us vs : List Upload) : s.handleUploads (us ++ vs) =
    ((s.handleUploads us).1 ++ ((s.handleUploads us).2.handleUploads vs).1,
      ((s.handleUploads us).2.handleUploads vs).2) := by
  induction us generalizing s with
  | nil => rfl
  | cons u us ih => simp only [List.cons_append, handleUploads, ih]

/-- What a server grows into as it handles uploads : no name and no space is given up. -/
structure Grows (s s' : Server) : Prop where
  maxAvailableSpace : s'.maxAvailableSpace = s.maxAvailableSpace
  used : s.usedSpace.toNat ≤ s'.usedSpace.toNat
  index : ∀ f ∈ s.filesInStorage, f ∈ s'.filesInStorage

theorem Grows.trans {s'' : Server} (h : Grows s s') (h' : Grows s' s'') : Grows s s'' where
  maxAvailableSpace := h'.maxAvailableSpace.trans h.maxAvailableSpace
  used := h.used.trans h'.used
  index f hf := h'.index f (h.index f hf)

theorem grows_refl (s : Server) : Grows s s :=
  ⟨rfl, le_rfl, fun _ => id⟩

theorem grows_handleUpload : Grows s (s.handleUpload f n).2 := by
  cases h : (s.handleUpload f n).1 with
  | false =>
    rw [handleUpload_of_not_fst h]
    exact grows_refl s
  | true =>
    have hadd := s.usedSpace_checkAndReserveSpace (handleUpload_fst_iff.mp h).2.1
    rw [handleUpload_of_fst h]
    refine ⟨rfl, ?_, fun g hg => SortedSet.mem_insert.mpr (Or.inr hg)⟩
    rw [hadd]
    omega

theorem grows_handleUploads (s : Server) (us : List Upload) : Grows s (s.handleUploads us).2 := by
  induction us generalizing s with
  | nil => exact grows_refl s
  | cons u us ih => exact grows_handleUpload.trans (ih _)

/-- A server that accepts an upload would have accepted it before. -/
theorem Grows.handleUpload_fst (h : Grows s s') (hf : (s'.handleUpload f n).1) :
    (s.handleUpload f n).1 := by
  obtain ⟨hname, hroom, hfresh⟩ := handleUpload_fst_iff.mp hf
  rw [h.maxAvailableSpace] at hroom
  have := h.used
  exact handleUpload_fst_iff.mpr ⟨hname, by omega, fun hg => hfresh (h.index f hg)⟩

theorem length_handleUploads (us : List Upload) : (s.handleUploads us).1.length = us.length := by
  induction us generalizing s with
  | nil => rfl
  | cons u us ih => exact congrArg Nat.succ ih

/-- Uploads that have new names and all fit are accepted in any order. -/
theorem handleUploads_of_fits {us : List Upload} (hname : ∀ u ∈ us, acceptableName u.filename)
    (hroom : us = [] ∨ s.usedSpace.toNat + (us.map fun u => u.fileSize.toNat).sum ≤
      s.maxAvailableSpace.toNat)
    (hfresh : ∀ u ∈ us, u.filename ∉ s.filesInStorage)
    (hne : us.Pairwise fun u v => u.filename ≠ v.filename) :
    (s.handleUploads us).1 = us.map (fun _ => true) ∧
      (s.handleUploads us).2.usedSpace.toNat =
        s.usedSpace.toNat + (us.map fun u => u.fileSize.toNat).sum ∧
      ∀ f, f ∈ (s.handleUploads us).2.filesInStorage ↔
        f ∈ s.filesInStorage ∨ ∃ u ∈ us, u.filename = f := by
  induction us generalizing s with
  | nil => exact ⟨rfl, rfl, fun f => by simp [handleUploads]⟩
  | cons u us ih =>
    have hroom := hroom.resolve_left (List.cons_ne_nil u us)
    rw [List.map_cons, List.sum_cons] at hroom
    rw [List.forall_mem_cons] at hname hfresh
    have hu : (s.handleUpload u.filename u.fileSize).1 :=
      handleUpload_fst_iff.mpr ⟨hname.1, by omega, hfresh.1⟩
    have hadd : (s.usedSpace + u.fileSize).toNat = s.usedSpace.toNat + u.fileSize.toNat :=
      s.usedSpace_checkAndReserveSpace (by omega)
    have hs := handleUpload_of_fst hu
    set s₁ := (s.handleUpload u.filename u.fileSize).2
    have hused : s₁.usedSpace.toNat = s.usedSpace.toNat + u.fileSize.toNat := by
      rw [hs]
      exact hadd
    have hmem : ∀ f, f ∈ s₁.filesInStorage ↔ f = u.filename ∨ f ∈ s.filesInStorage := by
      intro f
      rw [hs]
      exact SortedSet.mem_insert
    obtain ⟨hanswers, htotal, hindex⟩ := ih hname.2
      (Or.inr (by rw [hused, hs]; dsimp only; omega))
      (fun v hv hmem' => ((hmem _).mp hmem').elim
        (fun he => (List.pairwise_cons.mp hne).1 v hv he.symm) (hfresh.2 v hv))
      (List.pairwise_cons.mp hne).2
    refine ⟨?_, ?_, fun f => ?_⟩
    · change (s.handleUpload u.filename u.fileSize).1 :: (s₁.handleUploads us).1 = _
      rw [hu, hanswers, List.map_cons]
    · change (s₁.handleUploads us).2.usedSpace.toNat = _
      rw [htotal, hused, List.map_cons, List.sum_cons]
      omega
    · change f ∈ (s₁.handleUploads us).2.filesInStorage ↔ _
      rw [hindex f, hmem f]
      simp only [List.mem_cons, exists_eq_or_imp, eq_comm (a := f)]
      tauto

/-- Uploads that the server refuses leave it as it is. -/
theorem handleUploads_of_refused {us : List Upload}
    (h : ∀ u ∈ us, (s.handleUpload u.filename u.fileSize).1 = false) :
    s.handleUploads us = (us.map fun _ => false, s) := by
  induction us with
  | nil => rfl
  | cons u us ih =>
    rw [List.forall_mem_cons] at h
    simp only [handleUploads, handleUpload_of_not_fst h.1, ih h.2, List.map_cons]

/-! ## Serialisable uploads -/

/-- In some order of the uploads, each gets the answer it has one after another from the
server `s₀`, and the counter and the index become those of `s`. -/
def Serialisable (s₀ : Server) (us : List Upload) (s : Server) : Prop :=
  ∃ order : List Upload, order.Perm us ∧ (s₀.handleUploads order).1 = order.map Upload.isKept ∧
    (s₀.handleUploads order).2.usedSpace = s.usedSpace ∧
    (s₀.handleUploads order).2.filesInStorage = s.filesInStorage

/-- None of them is missed : what the last server accepts, every server before it does. -/
theorem Serialisable.not_misses {s₀ : Server} {us : List Upload} (h : Serialisable s₀ us s)
    (hmax : s.maxAvailableSpace = s₀.maxAvailableSpace) {u : Upload} (hu : u ∈ us) :
    s.misses u = false := by
  obtain ⟨order, hperm, hanswers, hused, hfiles⟩ := h
  obtain ⟨before, after, rfl⟩ := List.append_of_mem (hperm.mem_iff.mpr hu)
  have hgrows := grows_handleUploads (s₀.handleUploads before).2 (u :: after)
  rw [handleUploads_append] at hanswers hused hfiles
  rw [List.map_append] at hanswers
  have hlast := (grows_handleUploads s₀ before).trans hgrows
  have hanswer : ((s₀.handleUploads before).2.handleUpload u.filename u.fileSize).1 = u.isKept := by
    have := (List.append_inj hanswers (by rw [length_handleUploads, List.length_map])).2
    exact List.head_eq_of_cons_eq this
  by_contra hmiss
  obtain ⟨hkept, haccepts⟩ : u.isKept = false ∧ (s.handleUpload u.filename u.fileSize).1 := by
    simpa [misses] using hmiss
  rw [← handleUpload_fst_congr (hlast.maxAvailableSpace.trans hmax.symm) hused hfiles] at haccepts
  rw [hgrows.handleUpload_fst haccepts, hkept] at hanswer
  cases hanswer

end Server

/-! ## What decides an upload -/

namespace UploadPc

/-- The handler has added its name to the index, whatever it has done since. -/
def added : UploadPc → Bool
  | start | reserved | nameTaken | refusing | refused => false
  | _ => true

/-- The handler has reserved space, and is not on its way to refuse. -/
def passed : UploadPc → Bool
  | start | refusing | refused => false
  | _ => true

/-- The handler has found that it must refuse. -/
def turnedAway : UploadPc → Bool
  | nameTaken | refusing | refused => true
  | _ => false

theorem added_of_admitted {pc : UploadPc} (h : pc.admitted) : pc.added := by
  cases pc <;> first | rfl | cases h

theorem passed_of_keptBytes {pc : UploadPc} (h : pc.keptBytes.isSome) : pc.passed := by
  cases pc <;> first | rfl | cases h

/-- A handler that holds space and has not added its name is between the two. -/
theorem reserved_of_charged {pc : UploadPc} (hc : pc.charged) (ha : pc.added = false) :
    pc = .reserved ∨ pc = .nameTaken := by
  cases pc <;> first
    | exact Or.inl rfl
    | exact Or.inr rfl
    | exact Bool.noConfusion ha
    | exact Bool.noConfusion hc

end UploadPc

namespace Upload

variable {s s' : Server} {u : Upload} {c : UploadCall} {pc : UploadPc}

theorem added_next (h : u.next s c = some (s', pc)) (ha : u.pc.added) : pc.added := by
  cases next_cases h with
  | close | closeFail =>
    unfold afterTransfer
    split_ifs <;> rfl
  | reserve before | reject before | add before | taken before | freeTaken before
  | refuse before => rw [before] at ha; cases ha
  | _ => rfl

theorem passed_next (h : u.next s c = some (s', pc)) (hp : pc.passed) : u.pc.passed ∨
    acceptableName u.filename ∧ s.usedSpace.toNat + u.fileSize.toNat ≤
      s.maxAvailableSpace.toNat := by
  cases next_cases h with
  | reserve before name fits => exact Or.inr ⟨name, fits⟩
  | reject | freeTaken | refuse => cases hp
  | forget before => rcases before with before | before <;> exact Or.inl (by rw [before]; rfl)
  | add before | taken before | freeAnnounce before | free before | announce before
  | announceFail before | ready before | notReady before | accept before | create before
  | openFail before | piece before | endOfStream before | readFail before | flush before
  | spoil before | close before | closeFail before | found before | absent before
  | existsThrows before | remove before | removeThrows before =>
    exact Or.inl (by rw [before]; rfl)

/-- An upload is turned away by its name, or when it is checked. -/
theorem turnedAway_next (h : u.next s c = some (s', pc)) (ht : pc.turnedAway) : u.pc.turnedAway ∨
    u.filename ∈ s.filesInStorage ∨
      c = .checkAndReserveSpace ∧
        ¬(acceptableName u.filename ∧ (s.checkAndReserveSpace u.fileSize).1) := by
  cases next_cases h with
  | reject before unfit => exact Or.inr (Or.inr ⟨rfl, unfit⟩)
  | taken before mem => exact Or.inr (Or.inl mem)
  | freeTaken before | refuse before => exact Or.inl (by rw [before]; rfl)
  | close | closeFail =>
    unfold afterTransfer at ht
    split_ifs at ht <;> cases ht
  | _ => cases ht

end Upload

namespace World

open Transition

/-- The name was in the index at the start, or an upload has added it. -/
def Taken (s₀ : Server) (w : World) (f : Filename) : Prop :=
  f ∈ s₀.filesInStorage ∨ ∃ j, w.Has UploadPc.added j f

/-- The `i`-th upload asked for `n` bytes at a step at which they did not fit. -/
def FoundFull (s₀ : Server) (as : List Action) (i : ℕ) (n : UInt64) : Prop :=
  ∃ bs cs v, as = bs ++ .upload i .checkAndReserveSpace :: cs ∧
    run (initial s₀) bs = some v ∧ (v.server.checkAndReserveSpace n).1 = false

/-- Why uploads are where they are after the steps `as` from the server `s₀`. -/
structure Decided (s₀ : Server) (as : List Action) (w : World) : Prop where
  passed : ∀ (i : ℕ) u, w.uploads[i]? = some u → u.pc.passed →
    acceptableName u.filename ∧ s₀.usedSpace.toNat ≤ s₀.maxAvailableSpace.toNat
  turnedAway : ∀ (i : ℕ) u, w.uploads[i]? = some u → u.pc.turnedAway →
    acceptableName u.filename = false ∨ Taken s₀ w u.filename ∨ FoundFull s₀ as i u.fileSize

variable {s₀ : Server} {as : List Action} {w w' : World} {a : Action} {i : ℕ}

theorem decided_initial (s₀ : Server) : Decided s₀ [] (initial s₀) where
  passed i u hu := by simp [initial] at hu
  turnedAway i u hu := by simp [initial] at hu

theorem FoundFull.concat {n : UInt64} (h : FoundFull s₀ as i n) (a : Action) :
    FoundFull s₀ (as ++ [a]) i n := by
  obtain ⟨bs, cs, v, rfl, hr, hfull⟩ := h
  exact ⟨bs, cs ++ [a], v, by simp, hr, hfull⟩

theorem Taken.step {f : Filename} (h : Taken s₀ w f) (hs : w.step a = some w') :
    Taken s₀ w' f := by
  refine h.imp_right fun ⟨j, u, hu, ha, hf⟩ => ?_
  obtain ⟨u', hu', hcase⟩ := thread_step hs hu
  rcases hcase with rfl | ⟨c, s, pc, _, hn, rfl⟩
  · exact ⟨j, u', hu', ha, hf⟩
  · exact ⟨j, _, hu', u.added_next hn ha, hf⟩

theorem Decided.step (h : Decided s₀ as w) (hadm : Admission s₀ w)
    (hr : run (initial s₀) as = some w) (hs : w.step a = some w') :
    Decided s₀ (as ++ [a]) w' := by
  have hused : s₀.usedSpace.toNat ≤ w.server.usedSpace.toNat := by
    have := hadm.used
    omega
  have hkeep : ∀ {i u}, w.uploads[i]? = some u → u.pc.turnedAway →
      acceptableName u.filename = false ∨ Taken s₀ w' u.filename ∨
        FoundFull s₀ (as ++ [a]) i u.fileSize := fun hu ht =>
    (h.turnedAway _ _ hu ht).imp_right (Or.imp (Taken.step · hs) (FoundFull.concat · a))
  refine ⟨fun i u' hu' hp => ?_, fun i u' hu' ht => ?_⟩
  · cases thread_cases hs hu' with
    | @called c u s pc action before next after =>
      subst after
      rcases Upload.passed_next next hp with hp | ⟨hname, hroom⟩
      · exact h.passed i u before hp
      · rw [hadm.maxAvailableSpace] at hroom
        exact ⟨hname, by omega⟩
    | same before => exact h.passed i _ before hp
    | new before start =>
      rw [start] at hp
      cases hp
  · cases thread_cases hs hu' with
    | @called c u s pc action before next after =>
      subst action after
      rcases Upload.turnedAway_next next ht with ht | hmem | ⟨rfl, hunfit⟩
      · have hreason := hkeep before ht
        exact hreason
      · have htaken : Taken s₀ w u.filename := ((hadm.index _).mp hmem).imp_right fun ⟨j, v, hv, hadmits, hf⟩ =>
          ⟨j, v, hv, UploadPc.added_of_admitted hadmits, hf⟩
        exact Or.inr (Or.inl (htaken.step hs))
      · by_cases hname : acceptableName u.filename
        · refine Or.inr (Or.inr ⟨as, [], w, rfl, hr, ?_⟩)
          simpa [hname] using hunfit
        · exact Or.inl (by simpa using hname)
    | same before => exact hkeep before ht
    | new before start =>
      rw [start] at ht
      cases ht

/-! ## The order -/

/-- Every upload has been refused, or has its file kept. -/
def Decisive (w : World) : Prop :=
  ∀ u ∈ w.uploads, u.pc = .refused ∨ u.isKept

instance (w : World) : Decidable w.Decisive :=
  inferInstanceAs (Decidable (∀ u ∈ w.uploads, _))

section Order

variable (hend : w.Decisive)

include hend

theorem Decisive.charged_iff {u : Upload} (hu : u ∈ w.uploads) : u.pc.charged = u.isKept := by
  rcases hend u hu with he | he
  · rw [Upload.isKept, he]
    rfl
  · rw [Upload.isKept] at he ⊢
    rw [UploadPc.charged, he, Bool.or_true]

theorem Decisive.admitted_iff {u : Upload} (hu : u ∈ w.uploads) : u.pc.admitted = u.isKept := by
  rcases hend u hu with he | he
  · rw [Upload.isKept, he]
    rfl
  · rw [Upload.isKept] at he ⊢
    rw [UploadPc.admitted, he, Bool.or_true]

/-- What is charged in the end is the sizes of the files that are kept. -/
theorem Decisive.sum_charge : (w.uploads.map Upload.charge).sum =
    ((w.uploads.filter Upload.isKept).map fun u => u.fileSize.toNat).sum := by
  have hsum : ∀ {us : List Upload}, (∀ u ∈ us, u.pc.charged = u.isKept) →
      (us.map Upload.charge).sum =
        ((us.filter Upload.isKept).map fun u => u.fileSize.toNat).sum := by
    intro us hus
    induction us with
    | nil => rfl
    | cons u us ih =>
      rw [List.forall_mem_cons] at hus
      rw [List.map_cons, List.sum_cons, ih hus.2, Upload.charge, hus.1]
      by_cases hk : u.isKept <;> simp [hk]
  exact hsum fun u => hend.charged_iff

theorem Decisive.admits_iff {f : Filename} :
    (∃ i, w.Admits i f) ↔ ∃ u ∈ w.uploads.filter Upload.isKept, u.filename = f := by
  constructor
  · rintro ⟨i, u, hu, hadm, hf⟩
    have hmem := List.mem_of_getElem? hu
    exact ⟨u, List.mem_filter.mpr ⟨hmem, hend.admitted_iff hmem ▸ hadm⟩, hf⟩
  · rintro ⟨u, hu, hf⟩
    obtain ⟨hmem, hk⟩ := List.mem_filter.mp hu
    obtain ⟨i, hi⟩ := List.mem_iff_getElem?.mp hmem
    exact ⟨i, u, hi, (hend.admitted_iff hmem).symm ▸ hk, hf⟩

/-- The uploads that are kept lead from the first server to the last. -/
theorem Decisive.handleUploads_kept (hadm : Admission s₀ w) (hdec : Decided s₀ as w) :
    let us := w.uploads.filter Upload.isKept
    (s₀.handleUploads us).1 = us.map (fun _ => true) ∧
      (s₀.handleUploads us).2.usedSpace = w.server.usedSpace ∧
      (s₀.handleUploads us).2.filesInStorage = w.server.filesInStorage := by
  intro us
  have hpassed : ∀ u ∈ us, acceptableName u.filename ∧
      s₀.usedSpace.toNat ≤ s₀.maxAvailableSpace.toNat := by
    intro u hu
    obtain ⟨hmem, hk⟩ := List.mem_filter.mp hu
    obtain ⟨i, hi⟩ := List.mem_iff_getElem?.mp hmem
    exact hdec.passed i u hi (UploadPc.passed_of_keptBytes hk)
  have hroom : us = [] ∨ s₀.usedSpace.toNat + (us.map fun u => u.fileSize.toNat).sum ≤
      s₀.maxAvailableSpace.toNat := by
    rcases List.eq_nil_or_concat' us with hnil | ⟨us', u, hus⟩
    · exact Or.inl hnil
    · have hle := (hpassed u (by rw [hus]; simp)).2
      have hbound := hadm.bound
      rw [max_eq_right hle, hadm.used, hend.sum_charge] at hbound
      exact Or.inr hbound
  have hfresh : ∀ u ∈ us, u.filename ∉ s₀.filesInStorage := by
    intro u hu
    obtain ⟨i, hi⟩ := hend.admits_iff.mpr ⟨u, hu, rfl⟩
    exact hadm.new hi
  have hne : us.Pairwise fun u v => u.filename ≠ v.filename := by
    have hall : w.uploads.Pairwise fun u v => u.isKept → v.isKept → u.filename ≠ v.filename := by
      rw [List.pairwise_iff_getElem]
      intro i j hi hj hij hu hv he
      have hmem : ∀ {k : ℕ} (hk : k < w.uploads.length), w.uploads[k].isKept →
          w.Admits k w.uploads[k].filename := fun hk hkept =>
        ⟨_, List.getElem?_eq_getElem hk,
          (hend.admitted_iff (List.getElem_mem hk)).symm ▸ hkept, rfl⟩
      exact hij.ne (hadm.unique (hmem hi hu) (he ▸ hmem hj hv))
    exact (hall.filter _).imp_of_mem fun hu hv h =>
      h (List.mem_filter.mp hu).2 (List.mem_filter.mp hv).2
  obtain ⟨hanswers, hused, hfiles⟩ :=
    Server.handleUploads_of_fits (fun u hu => (hpassed u hu).1) hroom hfresh hne
  refine ⟨hanswers, ?_, ?_⟩
  · rw [← UInt64.toNat_inj, hused, hadm.used, hend.sum_charge]
  · ext f
    rw [hfiles f, hadm.index f, hend.admits_iff]

/-- Without the uploads that are missed, the kept uploads and then all others are an order. -/
theorem Decisive.serialisable (hadm : Admission s₀ w) (hdec : Decided s₀ as w) :
    s₀.Serialisable (w.uploads.filter fun u => !w.server.misses u) w.server := by
  set us := w.uploads.filter fun u => !w.server.misses u
  have hkept : us.filter Upload.isKept = w.uploads.filter Upload.isKept := by
    rw [List.filter_filter]
    refine List.filter_congr fun u _ => ?_
    cases hk : u.isKept <;> simp [Server.misses, hk]
  obtain ⟨hanswers, hused, hfiles⟩ := hend.handleUploads_kept hadm hdec
  rw [← hkept] at hanswers hused hfiles
  have hmax := (Server.grows_handleUploads s₀ (us.filter Upload.isKept)).maxAvailableSpace
  have hrefused : ∀ u ∈ us.filter fun u => !u.isKept,
      ((s₀.handleUploads (us.filter Upload.isKept)).2.handleUpload u.filename u.fileSize).1 =
        false := by
    intro u hu
    rw [Server.handleUpload_fst_congr (hmax.trans hadm.maxAvailableSpace.symm) hused hfiles]
    obtain ⟨hmem, hk⟩ := List.mem_filter.mp hu
    have hmiss := (List.mem_filter.mp hmem).2
    simp only [Bool.not_eq_true'] at hk hmiss
    simpa [Server.misses, hk] using hmiss
  refine ⟨_, List.filter_append_perm Upload.isKept us, ?_, ?_, ?_⟩
  · rw [Server.handleUploads_append, hanswers, Server.handleUploads_of_refused hrefused,
      List.map_append]
    dsimp only
    congr 1
    · exact List.map_congr_left fun u hu => (List.mem_filter.mp hu).2.symm
    · refine List.map_congr_left fun u hu => ?_
      have hk := (List.mem_filter.mp hu).2
      exact (Bool.not_eq_true' _ ▸ hk : u.isKept = false).symm
  · rw [Server.handleUploads_append, Server.handleUploads_of_refused hrefused, hused]
  · rw [Server.handleUploads_append, Server.handleUploads_of_refused hrefused, hfiles]

end Order

/-! ## What is missed -/

/-- What stays of an upload : its arguments, and that it has added its name. -/
structure Follows (u u' : Upload) : Prop where
  filename : u'.filename = u.filename
  fileSize : u'.fileSize = u.fileSize
  added : u.pc.added → u'.pc.added

theorem exists_follows {v w : World} {cs : List Action} (hr : run v cs = some w) {j : ℕ}
    {u : Upload} (hu : v.uploads[j]? = some u) : ∃ u', w.uploads[j]? = some u' ∧ Follows u u' := by
  have h0 : ∃ u', v.uploads[j]? = some u' ∧ Follows u u' := ⟨u, hu, rfl, rfl, id⟩
  refine run_induction_all (fun _ w => ∃ u', w.uploads[j]? = some u' ∧ Follows u u') h0 ?_ hr
  rintro _ w a w' _ ⟨u', hu', h⟩ hs
  obtain ⟨u'', hu'', hcase⟩ := thread_step hs hu'
  rcases hcase with rfl | ⟨c, s, pc, _, hn, rfl⟩
  · exact ⟨u'', hu'', h⟩
  · exact ⟨_, hu'', h.filename, h.fileSize, fun ha => u'.added_next hn (h.added ha)⟩

/-- A name that was taken is in the index in the end. -/
theorem Decisive.mem_of_taken (hend : w.Decisive) (hadm : Admission s₀ w) {f : Filename}
    (h : Taken s₀ w f) : f ∈ w.server.filesInStorage := by
  refine (hadm.index f).mpr (h.imp_right fun ⟨j, u, hu, ha, hf⟩ => ⟨j, u, hu, ?_, hf⟩)
  have hmem := List.mem_of_getElem? hu
  rw [hend.admitted_iff hmem]
  exact (hend u hmem).resolve_left fun he => by
    rw [he] at ha
    cases ha

/-- A request that is missed asked while one that is refused in the end, for its name, held a
reservation. -/
theorem Decisive.rival_of_misses (hend : w.Decisive) (hr : run (initial s₀) as = some w)
    (hP : Along step NoRemoval (initial s₀) as) (hadm : Admission s₀ w) (hdec : Decided s₀ as w)
    {i : ℕ} {u : Upload} (hu : w.uploads[i]? = some u) (hmiss : w.server.misses u) :
    ∃ bs cs v, as = bs ++ .upload i .checkAndReserveSpace :: cs ∧
      run (initial s₀) bs = some v ∧ (v.server.checkAndReserveSpace u.fileSize).1 = false ∧
      ∃ (j : ℕ) (r r' : Upload), v.uploads[j]? = some r ∧ (r.pc = .reserved ∨ r.pc = .nameTaken) ∧
        w.uploads[j]? = some r' ∧ r'.pc = .refused := by
  obtain ⟨hkept, haccepts⟩ := Bool.and_eq_true_iff.mp hmiss
  rw [Bool.not_eq_true'] at hkept
  obtain ⟨hname, hroom, hfresh⟩ := Server.handleUpload_fst_iff.mp haccepts
  have href : u.pc = .refused :=
    (hend u (List.mem_of_getElem? hu)).resolve_right (by simp [hkept])
  obtain ⟨bs, cs, v, rfl, hv, hfull⟩ : FoundFull s₀ as i u.fileSize := by
    rcases hdec.turnedAway i u hu (by rw [href]; rfl) with hbad | htaken | hfound
    · rw [hname] at hbad
      cases hbad
    · exact (hfresh (hend.mem_of_taken hadm htaken)).elim
    · exact hfound
  refine ⟨bs, cs, v, rfl, hv, hfull, ?_⟩
  have hrest := run_of_append hv hr
  have hadmv : Admission s₀ v := run_invariant (P := NoRemoval) (Admission s₀)
    (fun _ _ _ h hP hs => h.step hP hs) (admission_initial s₀) hv hP.append_left
  -- more was counted then than in the end, so some upload has given space back
  have hless : (w.uploads.map Upload.charge).sum < (v.uploads.map Upload.charge).sum := by
    have hnot : ¬v.server.usedSpace.toNat + u.fileSize.toNat ≤
        v.server.maxAvailableSpace.toNat := fun hle => by
      rw [(v.server.checkAndReserveSpace_iff _).mpr hle] at hfull
      cases hfull
    rw [hadmv.maxAvailableSpace, hadmv.used] at hnot
    rw [hadm.maxAvailableSpace, hadm.used] at hroom
    omega
  by_contra hnone
  refine absurd (sum_map_le_of_getElem? Upload.charge fun j r hj => ?_) (not_le.mpr hless)
  obtain ⟨r', hr', hfollows⟩ := exists_follows hrest hj
  refine ⟨r', hr', ?_⟩
  rw [Upload.charge, Upload.charge, hfollows.fileSize]
  rcases hend r' (List.mem_of_getElem? hr') with he | he
  · have hcharged : r.pc.charged = false := by
      by_contra hc
      have hadded : r.pc.added = false := by
        by_contra ha
        have := hfollows.added (by simpa using ha)
        rw [he] at this
        cases this
      exact hnone ⟨j, r, r', hj, UploadPc.reserved_of_charged (by simpa using hc) hadded, hr', he⟩
    rw [hcharged]
    exact Nat.zero_le _
  · have hcharged : r'.pc.charged := by rw [hend.charged_iff (List.mem_of_getElem? hr'), he]
    rw [if_pos hcharged]
    split_ifs <;> omega

/-- The answers of concurrent uploads whose transfers complete are those of some order, and
so are the counter and the index, but for the uploads that are missed : refused, and
accepted by the server that is left. All are serialisable exactly if none is missed, and one
that is missed asked for space while one that is refused for its name held a reservation. -/
theorem serialisable_of_not_missed (s₀ : Server) {as : List Action} {w : World}
    (hr : run (initial s₀) as = some w) (hP : Along step NoRemoval (initial s₀) as)
    (hend : w.Decisive) :
    s₀.Serialisable (w.uploads.filter fun u => !w.server.misses u) w.server ∧
      (s₀.Serialisable w.uploads w.server ↔ ∀ u ∈ w.uploads, w.server.misses u = false) ∧
      ∀ (i : ℕ) u, w.uploads[i]? = some u → w.server.misses u →
        ∃ bs cs v, as = bs ++ .upload i .checkAndReserveSpace :: cs ∧
          run (initial s₀) bs = some v ∧ (v.server.checkAndReserveSpace u.fileSize).1 = false ∧
          ∃ (j : ℕ) (r r' : Upload), v.uploads[j]? = some r ∧
            (r.pc = .reserved ∨ r.pc = .nameTaken) ∧ w.uploads[j]? = some r' ∧
              r'.pc = .refused := by
  obtain ⟨hadm, hdec⟩ : Admission s₀ w ∧ Decided s₀ as w :=
    run_induction (fun as w => Admission s₀ w ∧ Decided s₀ as w)
      ⟨admission_initial s₀, decided_initial s₀⟩
      (fun as w a w' hr h hP hs => ⟨h.1.step hP hs, h.2.step h.1 hr hs⟩) hr hP
  have hserial := hend.serialisable hadm hdec
  refine ⟨hserial, ⟨fun h u hu => h.not_misses hadm.maxAvailableSpace hu, fun h => ?_⟩,
    fun i u hu hmiss => hend.rival_of_misses hr hP hadm hdec hu hmiss⟩
  rwa [List.filter_eq_self.mpr fun u hu => by rw [h u hu]; rfl] at hserial

/-- A server with 10 bytes and the name `a`. -/
def oneName : Server :=
  ⟨10, 0, .ofList [[97]], .empty⟩

/-- An upload of a taken name holds all space while another asks for some. -/
def overtaken : List Action :=
  [.receive (addDatagram ⟨1, 1⟩ 1 [97] 10), .receive (addDatagram ⟨2, 2⟩ 2 [98] 10),
    .upload 0 .checkAndReserveSpace, .upload 1 .checkAndReserveSpace,
    .upload 0 .addFileToStorage, .upload 0 .freeSpace, .upload 0 (.refuse true),
    .upload 1 (.refuse true)]

/-- Both are refused, and in no order both would be. -/
theorem overtaken_not_serialisable : ∃ w, run (initial oneName) overtaken = some w ∧
    Along step NoRemoval (initial oneName) overtaken ∧ w.Decisive ∧
      ¬oneName.Serialisable w.uploads w.server := by
  obtain ⟨w, hr, hw⟩ : ∃ w, run (initial oneName) overtaken = some w ∧
      decide (w.Decisive ∧ w.server.maxAvailableSpace = 10 ∧
        ∃ u ∈ w.uploads, w.server.misses u) := exists_run_of_any _ (by decide)
  obtain ⟨hend, hmax, u, hu, hmiss⟩ := of_decide_eq_true hw
  refine ⟨w, hr, by decide, hend, fun h => ?_⟩
  rw [h.not_misses hmax hu] at hmiss
  cases hmiss

/-- One after another the second is accepted. -/
def inTurn : List Action :=
  [.receive (addDatagram ⟨1, 1⟩ 1 [97] 10), .upload 0 .checkAndReserveSpace,
    .upload 0 .addFileToStorage, .receive (addDatagram ⟨2, 2⟩ 2 [98] 3), .upload 0 .freeSpace,
    .upload 0 (.refuse true), .upload 1 .checkAndReserveSpace, .upload 1 .addFileToStorage,
    .upload 1 (.announce (some 5)), .upload 1 (.select .ready), .upload 1 (.accept true),
    .upload 1 (.openFile true), .upload 1 (.read (.piece [1, 2, 3])),
    .upload 1 (.read .endOfStream), .upload 1 (.closeFile true)]

theorem inTurn_serialisable : ∃ w, run (initial oneName) inTurn = some w ∧
    oneName.Serialisable w.uploads w.server := by
  obtain ⟨w, hr, hw⟩ : ∃ w, run (initial oneName) inTurn = some w ∧
      decide (w.Decisive ∧ ∀ u ∈ w.uploads, w.server.misses u = false) :=
    exists_run_of_any _ (by decide)
  obtain ⟨hend, hmiss⟩ := of_decide_eq_true hw
  exact ⟨w, hr, (serialisable_of_not_missed _ hr (by decide) hend).2.1.mpr hmiss⟩

end World

end Netstore
