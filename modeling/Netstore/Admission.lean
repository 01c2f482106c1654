import Netstore.World
import Mathlib.Tactic.Tauto

/-!
# Admission of concurrent uploads

Space and name are guarded by two mutexes and taken in two steps, with a release in
between when the name is taken. As long as nothing is removed, the counter is its
first value plus the declared sizes of the uploads that hold a reservation or have
ended with their file kept (`Admission.used`), whatever the order of the steps, so no
addition or subtraction wraps (`Admission.noWrap`) and the index is its first value plus
the names of the uploads that are admitted (`Admission.index`).
-/

namespace Netstore

namespace UploadPc

/-- The counter includes the declared size : the handler holds it, or keeps a file. -/
def charged (pc : UploadPc) : Bool :=
  pc.holds || pc.keptBytes.isSome

/-- The handler is past a successful `add_file_to_storage` and has not cleaned up. -/
def admitted (pc : UploadPc) : Bool :=
  pc.owns || pc.keptBytes.isSome

theorem charged_of_share {pc pc' : UploadPc} (h : pc.share = pc'.share) :
    pc.charged = pc'.charged := by
  simp only [share, Prod.mk.injEq] at h
  simp only [charged, h.1, h.2.2]

theorem admitted_of_share {pc pc' : UploadPc} (h : pc.share = pc'.share) :
    pc.admitted = pc'.admitted := by
  simp only [share, Prod.mk.injEq] at h
  simp only [admitted, h.2.1, h.2.2]

/-- A handler that holds space keeps no file yet. -/
theorem keptBytes_of_holds {pc : UploadPc} (h : pc.holds) : pc.keptBytes = none := by
  cases pc <;> first | rfl | cases h

end UploadPc

namespace Upload

/-- What the counter includes for the upload. -/
def charge (u : Upload) : ℕ :=
  if u.pc.charged then u.fileSize.toNat else 0

/-- The call is a reservation that succeeds. -/
def granted (s : Server) (u : Upload) (c : UploadCall) : Bool :=
  c = .checkAndReserveSpace && acceptableName u.filename && (s.checkAndReserveSpace u.fileSize).1

variable {s s' : Server} {u : Upload} {c : UploadCall} {pc : UploadPc}

/-- A reservation is what makes an upload charged, and a release what ends it. -/
theorem granted_add_charged (h : u.next s c = some (s', pc)) :
    (u.granted s c).toNat + u.pc.charged.toNat =
      (decide (c = .freeSpace)).toNat + pc.charged.toNat := by
  cases next_cases h with
  | reserve before name fits =>
    have hg : u.granted s .checkAndReserveSpace = true := by
      simp [granted, name, (s.checkAndReserveSpace_iff _).mpr fits]
    rw [hg, before]
    rfl
  | reject before unfit =>
    have hg : u.granted s .checkAndReserveSpace = false := by
      simpa [granted, Decidable.not_and_iff_or_not] using unfit
    rw [hg, before]
    rfl
  | forget before => rcases before with before | before <;> rw [before] <;> rfl
  | close before | closeFail before =>
    rw [before]
    unfold afterTransfer
    split_ifs <;> rfl
  | add before | taken before | freeTaken before | freeAnnounce before | free before
  | announce before | announceFail before | refuse before | ready before | notReady before
  | accept before | create before | openFail before | piece before | endOfStream before
  | readFail before | flush before | spoil before | found before | absent before
  | existsThrows before | remove before | removeThrows before =>
    rw [before]
    rfl

/-- Space is only reserved at the start. -/
theorem start_of_granted (h : u.next s c = some (s', pc)) (hg : u.granted s c) :
    u.pc = .start := by
  obtain rfl : c = .checkAndReserveSpace := by
    simp only [granted, Bool.and_eq_true, decide_eq_true_eq] at hg
    exact hg.1.1
  cases next_cases h <;> assumption

/-- No call leads back to the start. -/
theorem ne_start_of_next (h : u.next s c = some (s', pc)) : pc ≠ .start := by
  cases next_cases h with
  | close | closeFail => unfold afterTransfer; split_ifs <;> simp
  | _ => simp

end Upload

namespace World

open Transition

/-- The step starts no removal. -/
def NoRemoval (_ : World) (a : Action) : Prop :=
  a.removes = none

instance (w : World) (a : Action) : Decidable (NoRemoval w a) :=
  inferInstanceAs (Decidable (_ = none))

/-- The step is a reservation of the `i`-th upload that succeeds. -/
def grants (i : ℕ) (w : World) : Action → Bool
  | .upload j c => i = j && (w.uploads[i]?.any fun u => u.granted w.server c)
  | _ => false

/-- The step is a release by the `i`-th upload. -/
def releases (i : ℕ) (_ : World) : Action → Bool
  | .upload j c => i = j && c = .freeSpace
  | _ => false

/-- The `i`-th upload is admitted, under the name `f`. -/
abbrev Admits (w : World) (i : ℕ) (f : Filename) : Prop :=
  w.Has UploadPc.admitted i f

/-- What concurrent uploads leave of the server `s₀`. -/
structure Admission (s₀ : Server) (w : World) : Prop where
  maxAvailableSpace : w.server.maxAvailableSpace = s₀.maxAvailableSpace
  removal : w.loop.removal = none
  /-- The counter is its first value plus what the uploads hold or keep. -/
  used : w.server.usedSpace.toNat = s₀.usedSpace.toNat + (w.uploads.map Upload.charge).sum
  bound : w.server.usedSpace.toNat ≤ max s₀.usedSpace.toNat s₀.maxAvailableSpace.toNat
  /-- At most one upload of a name is admitted. -/
  unique : ∀ {i j f}, w.Admits i f → w.Admits j f → i = j
  /-- None is for a name that was indexed at the start. -/
  new : ∀ {i f}, w.Admits i f → f ∉ s₀.filesInStorage
  /-- The index has no name but the first ones and those of admitted uploads. -/
  index : ∀ f, f ∈ w.server.filesInStorage ↔ f ∈ s₀.filesInStorage ∨ ∃ i, w.Admits i f

/-- The reservations and releases of the steps `as` from the server `s₀`. -/
structure Returned (s₀ : Server) (as : List Action) (w : World) : Prop where
  /-- An upload that is charged has one reservation it has not returned, any other has
  returned what it reserved. -/
  balance : ∀ i u, w.uploads[i]? = some u →
    countAlong step (grants i) (initial s₀) as =
      countAlong step (releases i) (initial s₀) as + u.pc.charged.toNat
  /-- An upload reserves at most once, and not before its first call. -/
  once : ∀ i u, w.uploads[i]? = some u →
    countAlong step (grants i) (initial s₀) as ≤ if u.pc = .start then 0 else 1
  /-- Nothing is counted of uploads that have not been started. -/
  idle : ∀ i, w.uploads[i]? = none → countAlong step (grants i) (initial s₀) as = 0 ∧
    countAlong step (releases i) (initial s₀) as = 0

variable {s₀ : Server} {as : List Action} {w w' : World} {a : Action}

/-! ### One step -/

theorem sum_charge_set (pc : UploadPc) {i : ℕ} {u : Upload} (hu : w.uploads[i]? = some u) :
    ((w.uploads.set i { u with pc := pc }).map Upload.charge).sum + u.charge =
      (w.uploads.map Upload.charge).sum + Upload.charge { u with pc := pc } :=
  sum_map_set Upload.charge hu

theorem admission_initial (s₀ : Server) : Admission s₀ (initial s₀) where
  maxAvailableSpace := rfl
  removal := rfl
  used := by simp [initial]
  bound := le_max_left _ _
  unique h := by simp [initial, Has] at h
  new h := by simp [initial, Has] at h
  index f := by simp [initial, Has]

/-- A release gives back no more than is used. -/
theorem Admission.fileSize_le (h : Admission s₀ w) {i : ℕ} {u : Upload}
    (hu : w.uploads[i]? = some u) (hc : u.pc.charged) :
    u.fileSize.toNat ≤ w.server.usedSpace.toNat := by
  have hle := le_sum_map Upload.charge hu
  rw [Upload.charge, if_pos hc] at hle
  have := h.used
  omega

section Upload

variable {i : ℕ} {c : UploadCall} {u : Upload} {s : Server} {pc : UploadPc} {t : Bool}

/-- A step that leaves the index and the admitted uploads, and changes the counter by
what the upload is charged. -/
theorem Admission.move (h : Admission s₀ w) (hu : w.uploads[i]? = some u)
    (hmax : s.maxAvailableSpace = w.server.maxAvailableSpace)
    (hfiles : s.filesInStorage = w.server.filesInStorage) (hadm : pc.admitted = u.pc.admitted)
    (hused : s.usedSpace.toNat + u.charge =
      w.server.usedSpace.toNat + Upload.charge { u with pc := pc })
    (hbound : s.usedSpace.toNat ≤ max s₀.usedSpace.toNat s₀.maxAvailableSpace.toNat) :
    Admission s₀ { w with
      server := s, uploads := w.uploads.set i { u with pc := pc }, terminated := t } := by
  have hsum := sum_charge_set pc hu
  have hw := h.used
  refine ⟨hmax.trans h.maxAvailableSpace, h.removal, ?_, hbound, fun hi hj => ?_, fun hi => ?_,
    fun f => ?_⟩
  · dsimp only
    omega
  · exact h.unique ((has_set_of_eq hu hadm).mp hi) ((has_set_of_eq hu hadm).mp hj)
  · exact h.new ((has_set_of_eq hu hadm).mp hi)
  · simpa only [hfiles, has_set_of_eq hu hadm] using h.index f

/-- A name that is new to the index is admitted. -/
theorem Admission.insert (h : Admission s₀ w) (hu : w.uploads[i]? = some u)
    (fresh : u.filename ∉ w.server.filesInStorage) (before : u.pc = .reserved) :
    Admission s₀ { w with
      server := { w.server with filesInStorage := w.server.filesInStorage.insert u.filename }
      uploads := w.uploads.set i { u with pc := .accepted }, terminated := t } := by
  have hsum := sum_charge_set .accepted hu
  have hc : Upload.charge { u with pc := .accepted } = u.charge := by
    simp only [Upload.charge, before]
    rfl
  have hw := h.used
  -- the name is nobody's, for admitted names are in the index
  have hnone : ∀ j, ¬w.Admits j u.filename := fun j hj =>
    fresh ((h.index _).mpr (Or.inr ⟨j, hj⟩))
  refine ⟨h.maxAvailableSpace, h.removal, ?_, h.bound, fun {j k f} hj hk => ?_, fun {j f} hj => ?_,
    fun f => ?_⟩
  · dsimp only
    omega
  · rw [Admits, has_set hu] at hj hk
    rcases hj with ⟨rfl, -, rfl⟩ | ⟨-, hj⟩
    · rcases hk with ⟨rfl, -⟩ | ⟨-, hk⟩
      · rfl
      · exact (hnone _ hk).elim
    · rcases hk with ⟨rfl, -, rfl⟩ | ⟨-, hk⟩
      · exact (hnone _ hj).elim
      · exact h.unique hj hk
  · rw [Admits, has_set hu] at hj
    rcases hj with ⟨rfl, -, rfl⟩ | ⟨-, hj⟩
    · exact fun hs => fresh ((h.index _).mpr (Or.inl hs))
    · exact h.new hj
  · have hi : ∀ f, ¬w.Admits i f := fun f hf => by
      rw [Admits, has_self hu, before] at hf
      exact absurd hf.1 (by decide)
    simp only [Admits, has_set hu, SortedSet.mem_insert, h.index f]
    constructor
    · rintro (rfl | hf | ⟨j, hj⟩)
      · exact Or.inr ⟨i, Or.inl ⟨rfl, rfl, rfl⟩⟩
      · exact Or.inl hf
      · exact Or.inr ⟨j, Or.inr ⟨fun hji => hi f (hji ▸ hj), hj⟩⟩
    · rintro (hf | ⟨j, ⟨rfl, -, rfl⟩ | ⟨-, hj⟩⟩)
      · exact Or.inr (Or.inl hf)
      · exact Or.inl rfl
      · exact Or.inr (Or.inr ⟨j, hj⟩)

/-- An admitted upload takes its own name out of the index. -/
theorem Admission.erase (h : Admission s₀ w) (hu : w.uploads[i]? = some u)
    (before : u.pc = .announceReleased ∨ u.pc = .forgetting) :
    Admission s₀ { w with
      server := { w.server with filesInStorage := w.server.filesInStorage.erase u.filename }
      uploads := w.uploads.set i { u with pc := .failed }, terminated := t } := by
  have hsum := sum_charge_set .failed hu
  have hc : Upload.charge { u with pc := .failed } = u.charge := by
    rcases before with before | before <;> simp only [Upload.charge, before] <;> rfl
  have hself : w.Admits i u.filename := by
    rw [Admits, has_self hu]
    rcases before with before | before <;> simp [before, UploadPc.admitted, UploadPc.owns]
  have hw := h.used
  have hset : ∀ {j f}, Admits { w with
      server := { w.server with filesInStorage := w.server.filesInStorage.erase u.filename }
      uploads := w.uploads.set i { u with pc := .failed }, terminated := t } j f ↔
        j ≠ i ∧ w.Admits j f := by
    intro j f
    rw [Admits, has_set hu]
    simp [UploadPc.admitted, UploadPc.owns, UploadPc.keptBytes]
  refine ⟨h.maxAvailableSpace, h.removal, ?_, h.bound, fun hj hk => ?_, fun hj => ?_, fun f => ?_⟩
  · dsimp only
    omega
  · exact h.unique (hset.mp hj).2 (hset.mp hk).2
  · exact h.new (hset.mp hj).2
  · simp only [hset, SortedSet.mem_erase, h.index f]
    constructor
    · rintro ⟨hne, hf | ⟨j, hj⟩⟩
      · exact Or.inl hf
      · refine Or.inr ⟨j, fun hji => hne ?_, hj⟩
        obtain ⟨v, hv, -, rfl⟩ := hji ▸ hj
        rw [Option.some.inj (hv.symm.trans hu)]
    · rintro (hf | ⟨j, hji, hj⟩)
      · exact ⟨fun he => h.new hself (he ▸ hf), Or.inl hf⟩
      · exact ⟨fun he => hji (h.unique (he ▸ hj) hself), Or.inr ⟨j, hj⟩⟩

theorem Admission.upload (h : Admission s₀ w) (hu : w.uploads[i]? = some u)
    (hn : u.next w.server c = some (s, pc)) :
    Admission s₀ { w with
      server := s, uploads := w.uploads.set i { u with pc := pc }, terminated := t } := by
  have hmax := Upload.maxAvailableSpace_next hn
  have hbound := h.bound
  cases Upload.next_effect hn with
  | quiet used files share =>
    refine h.move hu hmax files (UploadPc.admitted_of_share share) ?_ (by rwa [used])
    simp only [used, Upload.charge, UploadPc.charged_of_share share]
  | reserve fits before after eq =>
    subst after eq
    have hadd := w.server.usedSpace_checkAndReserveSpace fits
    refine h.move hu rfl rfl (by rw [before]; rfl) ?_ ?_
    · simp only [Upload.charge, before, hadd]
      rfl
    · rw [hadd]
      exact (fits.trans_eq (by rw [h.maxAvailableSpace])).trans (le_max_right _ _)
  | release before after eq =>
    subst eq
    have hcharged : u.pc.charged := by simp [UploadPc.charged, before]
    have hle := h.fileSize_le hu hcharged
    have hsub := w.server.usedSpace_freeSpace hle
    simp only [UploadPc.share, Prod.mk.injEq] at after
    have hpc : pc.charged = false := by simp [UploadPc.charged, after]
    refine h.move hu rfl rfl ?_ ?_ (by omega)
    · simp [UploadPc.admitted, after, UploadPc.keptBytes_of_holds before]
    · rw [hsub]
      simp only [Upload.charge, hcharged, hpc]
      simp
      omega
  | insert fresh before after eq =>
    subst after eq
    exact h.insert hu fresh before
  | erase before after eq =>
    subst after eq
    exact h.erase hu before
  | keep bs used files before after =>
    subst after
    simp only [UploadPc.share, Prod.mk.injEq] at before
    refine h.move hu hmax files ?_ ?_ (by rwa [used])
    · simp [UploadPc.admitted, UploadPc.keptBytes, before]
    · simp [used, Upload.charge, UploadPc.charged, UploadPc.keptBytes, before]

end Upload

/-- A new upload is charged nothing and is not admitted. -/
theorem Admission.spawn (h : Admission s₀ w) {u : Upload} (hu : u.pc = .start) :
    Admission s₀ { w with uploads := w.uploads ++ [u] } := by
  have hadm : ∀ {i f}, Admits { w with uploads := w.uploads ++ [u] } i f ↔ w.Admits i f :=
    has_append (by rw [hu]; rfl)
  have hcharge : u.charge = 0 := by
    rw [Upload.charge, hu]
    rfl
  refine ⟨h.maxAvailableSpace, h.removal, ?_, h.bound, fun hi hj => ?_, fun hi => ?_, fun f => ?_⟩
  · simpa [hcharge] using h.used
  · exact h.unique (hadm.mp hi) (hadm.mp hj)
  · exact h.new (hadm.mp hi)
  · simpa only [hadm] using h.index f

theorem Admission.not_removing (h : Admission s₀ w) (f : Filename) (pc : RemovalPc) :
    w.loop ≠ .removing f pc := by
  intro hl
  have := h.removal
  simp [hl, Loop.removal] at this

theorem Admission.of_eq (h : Admission s₀ w) (server : w'.server = w.server)
    (uploads : w'.uploads = w.uploads) (removal : w'.loop.removal = w.loop.removal) :
    Admission s₀ w' := by
  have hadm : ∀ {i f}, w'.Admits i f ↔ w.Admits i f := has_congr uploads
  refine ⟨server ▸ h.maxAvailableSpace, removal ▸ h.removal, ?_, server ▸ h.bound,
    fun hi hj => h.unique (hadm.mp hi) (hadm.mp hj), fun hi => h.new (hadm.mp hi), fun f => ?_⟩
  · rw [server, uploads]
    exact h.used
  · simpa only [server, hadm] using h.index f

/-- Every step that starts no removal keeps the admission. -/
theorem Admission.step (h : Admission s₀ w) (hP : NoRemoval w a) (hs : w.step a = some w') :
    Admission s₀ w' := by
  cases step_cases hs with
  | upload thread next terminated => exact h.upload thread next
  | spawn idle request => exact h.spawn rfl
  | erase idle request => simp [NoRemoval, Action.removes_receive request] at hP
  | removal loop next => exact (h.not_removing _ _ loop).elim
  | other call server uploads removal => exact h.of_eq server uploads removal

/-- No step wraps the counter. -/
theorem Admission.noWrap (h : Admission s₀ w) (hs : w.step a = some w') : NoWrap w a :=
  noWrap_of_le (fun hu ho => h.fileSize_le hu (by simp [UploadPc.charged, ho]))
    (fun hl => (h.not_removing _ _ hl).elim) hs

/-! ### What an upload reserved and returned -/

theorem returned_initial (s₀ : Server) : Returned s₀ [] (initial s₀) where
  balance i u hu := by simp [initial] at hu
  once i u hu := by simp [initial] at hu
  idle i _ := ⟨rfl, rfl⟩

/-- A step that is no call of the upload counts nothing for it. -/
theorem countAlong_concat_of_ne (hr : run (initial s₀) as = some w) {i : ℕ}
    (ha : ∀ c, a ≠ .upload i c) :
    countAlong step (grants i) (initial s₀) (as ++ [a]) =
        countAlong step (grants i) (initial s₀) as ∧
      countAlong step (releases i) (initial s₀) (as ++ [a]) =
        countAlong step (releases i) (initial s₀) as := by
  rw [countAlong_concat _ hr, countAlong_concat _ hr]
  cases a with
  | upload j c =>
    have hij : i ≠ j := fun he => ha c (he ▸ rfl)
    simp [grants, releases, hij]
  | _ => exact ⟨rfl, rfl⟩

theorem Returned.upload (h : Returned s₀ as w) (hr : run (initial s₀) as = some w) {j : ℕ}
    {c : UploadCall} {u : Upload} {s : Server} {pc : UploadPc} {t : Bool}
    (hu : w.uploads[j]? = some u) (hn : u.next w.server c = some (s, pc)) :
    Returned s₀ (as ++ [.upload j c])
      { w with server := s, uploads := w.uploads.set j { u with pc := pc }, terminated := t } := by
  have hkeep : ∀ {i}, i ≠ j → _ := fun hij =>
    countAlong_concat_of_ne (a := Action.upload j c) hr fun c' he => hij (Action.upload.inj he).1.symm
  have hgrants : grants j w (.upload j c) = u.granted w.server c := by simp [grants, hu]
  have hreleases : releases j w (.upload j c) = decide (c = .freeSpace) := by simp [releases]
  refine ⟨fun i v hv => ?_, fun i v hv => ?_, fun i hi => ?_⟩
  · rcases (getElem?_set_eq_some hu).mp hv with ⟨rfl, rfl⟩ | ⟨hij, hv⟩
    · have := h.balance i u hu
      have := Upload.granted_add_charged hn
      rw [countAlong_concat _ hr, countAlong_concat _ hr, hgrants, hreleases]
      dsimp only
      omega
    · rw [(hkeep hij).1, (hkeep hij).2]
      exact h.balance i v hv
  · rcases (getElem?_set_eq_some hu).mp hv with ⟨rfl, rfl⟩ | ⟨hij, hv⟩
    · have hone := h.once i u hu
      rw [countAlong_concat _ hr, hgrants, if_neg (Upload.ne_start_of_next hn)]
      cases hg : u.granted w.server c with
      | true =>
        rw [if_pos (Upload.start_of_granted hn hg)] at hone
        simp only [Bool.toNat_true]
        omega
      | false =>
        simp only [Bool.toNat_false]
        split_ifs at hone <;> omega
    · rw [(hkeep hij).1]
      exact h.once i v hv
  · have hlt := (List.getElem?_eq_some_iff.mp hu).1
    rw [List.getElem?_eq_none_iff, List.length_set] at hi
    have hij : i ≠ j := by omega
    rw [(hkeep hij).1, (hkeep hij).2]
    exact h.idle i (List.getElem?_eq_none_iff.mpr hi)

/-- What an upload has reserved and returned after one more step. -/
theorem Returned.step (h : Returned s₀ as w) (hr : run (initial s₀) as = some w)
    (hs : w.step a = some w') : Returned s₀ (as ++ [a]) w' := by
  by_cases ha : ∃ j c, a = .upload j c
  · obtain ⟨j, c, rfl⟩ := ha
    cases step_cases hs with
    | upload thread next terminated => exact h.upload hr thread next
    | other call => exact (call j c rfl).elim
  · have ha : ∀ j c, a ≠ .upload j c := fun j c he => ha ⟨j, c, he⟩
    have hkeep : ∀ i, _ := fun i => countAlong_concat_of_ne hr (ha i)
    -- what holds of the threads that were there holds of them still
    suffices hw : ∀ i, w'.uploads[i]? = w.uploads[i]? ∨
        w.uploads[i]? = none ∧ ∀ u : Upload, w'.uploads[i]? = some u → u.pc = .start by
      refine ⟨fun i u hu => ?_, fun i u hu => ?_, fun i hi => ?_⟩
      · rw [(hkeep i).1, (hkeep i).2]
        rcases hw i with he | ⟨hn, hstart⟩
        · exact h.balance i u (he ▸ hu)
        · rw [(h.idle i hn).1, (h.idle i hn).2, hstart u hu]
          rfl
      · rw [(hkeep i).1]
        rcases hw i with he | ⟨hn, hstart⟩
        · exact h.once i u (he ▸ hu)
        · rw [(h.idle i hn).1]
          exact Nat.zero_le _
      · rw [(hkeep i).1, (hkeep i).2]
        rcases hw i with he | ⟨hn, -⟩
        · exact h.idle i (he ▸ hi)
        · exact h.idle i hn
    intro i
    rcases uploads_step hs ha with he | ⟨u, hu, he⟩
    · exact Or.inl (by rw [he])
    · rw [he, List.getElem?_append]
      split_ifs with hi
      · exact Or.inl rfl
      · refine Or.inr ⟨List.getElem?_eq_none_iff.mpr (not_lt.mp hi), fun v hv => ?_⟩
        rw [List.mem_singleton.mp (List.mem_of_getElem? hv), hu]

/-! ### Runs -/

/-- Concurrent uploads are admitted safely. After every run that starts no removal the
counter and the index are what `Admission` says and no step from there wraps the
counter; an upload that has ended refused or failed has returned each reservation it
made, of which there is at most one, and its name is only in the index if it was there
at the start or is another upload's. -/
theorem concurrent_uploads_admitted (s₀ : Server) {as : List Action} {w : World}
    (hr : run (initial s₀) as = some w) (hP : Along step NoRemoval (initial s₀) as) :
    Admission s₀ w ∧ (∀ a w', w.step a = some w' → NoWrap w a) ∧
      ∀ i u, w.uploads[i]? = some u → u.pc = .refused ∨ u.pc = .failed →
        countAlong step (grants i) (initial s₀) as =
            countAlong step (releases i) (initial s₀) as ∧
          countAlong step (grants i) (initial s₀) as ≤ 1 ∧
          (u.filename ∈ w.server.filesInStorage →
            u.filename ∈ s₀.filesInStorage ∨ ∃ j ≠ i, w.Admits j u.filename) := by
  obtain ⟨hadm, hret⟩ : Admission s₀ w ∧ Returned s₀ as w :=
    run_induction (fun as w => Admission s₀ w ∧ Returned s₀ as w)
      ⟨admission_initial s₀, returned_initial s₀⟩
      (fun as w a w' hr h hP hs => ⟨h.1.step hP hs, h.2.step hr hs⟩) hr hP
  refine ⟨hadm, fun a w' => hadm.noWrap, fun i u hu hend => ⟨?_, ?_, fun hf => ?_⟩⟩
  · rcases hend with he | he <;> simpa [he, UploadPc.charged, UploadPc.holds, UploadPc.keptBytes]
      using hret.balance i u hu
  · rcases hend with he | he <;> simpa [he] using hret.once i u hu
  · refine ((hadm.index _).mp hf).imp_right fun ⟨j, hj⟩ => ⟨j, fun hji => ?_, hj⟩
    rw [hji, Admits, has_self hu] at hj
    rcases hend with he | he <;> simp [he, UploadPc.admitted, UploadPc.owns, UploadPc.keptBytes]
      at hj

/-- Two uploads of one name are both between the reservation and the index; the second
gives its space back. -/
def rivalUploads : List Action :=
  [.receive (addDatagram ⟨1, 1⟩ 1 [97] 4), .receive (addDatagram ⟨2, 2⟩ 2 [97] 5),
    .upload 0 .checkAndReserveSpace, .upload 1 .checkAndReserveSpace,
    .upload 0 .addFileToStorage, .upload 1 .addFileToStorage, .upload 1 .freeSpace,
    .upload 0 (.announce (some 5)), .upload 1 (.refuse true), .upload 0 (.select .ready),
    .upload 0 (.accept true), .upload 0 (.openFile true), .upload 0 (.read (.piece [1, 2, 3, 4])),
    .upload 0 (.read .endOfStream), .upload 0 (.closeFile true)]

theorem rivalUploads_admitted : ∃ w, run (started 10) rivalUploads = some w ∧
    w.server.usedSpace = 4 ∧ Admission (Server.generateFilesInStorage 10 .empty []) w := by
  obtain ⟨w, hr, hw⟩ : ∃ w, run (started 10) rivalUploads = some w ∧
      decide (w.server.usedSpace = 4) := exists_run_of_any _ (by decide)
  exact ⟨w, hr, by simpa using hw, (concurrent_uploads_admitted _ hr (by decide)).1⟩

end World

end Netstore
