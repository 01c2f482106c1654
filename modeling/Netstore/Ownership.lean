import Mathlib.Data.List.Induction
import Mathlib.Logic.Function.Basic

/-!
# Ownership

What owners do with resources that must be given back, as a list of events. An owner has
room for one resource (`held`) : what it obtains or is moved to it takes the place of what
it held. A resource can be obtained again once it is released, so "exactly once" is said of
every resource by what happens to it in turn (`ReleasedOnce`), and a release is rightful if
its owner holds what it releases (`Rightful`).

`Accounted` says that what is open is held, by one owner each. It is kept by an event that
puts nothing in the place of something else, and when nothing is held any more every
resource was released once (`Accounted.exactlyOnce`).
-/

set_option linter.unusedSectionVars false

namespace Netstore

namespace Ownership

/-- What can happen to a resource. -/
inductive Event (ι ρ : Type*) where
  /-- A resource is obtained, by an owner or by none. -/
  | obtained (owner : Option ι) (r : ρ)
  | moved (source target : ι)
  | released (owner : ι) (r : ρ)
  deriving DecidableEq

/-- What happens to one resource. -/
inductive Act where
  | obtained
  | released
  deriving DecidableEq

variable {ι ρ : Type*} [DecidableEq ι] [DecidableEq ρ]

/-- What each owner holds after an event. -/
def Event.update (h : ι → Option ρ) : Event ι ρ → ι → Option ρ
  | obtained (some owner) r => Function.update h owner (some r)
  | obtained none _ => h
  | moved source target => Function.update (Function.update h target (h source)) source none
  | released owner _ => Function.update h owner none

/-- What each owner holds. -/
def held (log : List (Event ι ρ)) : ι → Option ρ :=
  log.foldl Event.update fun _ => none

/-- What the event is for the resource. -/
def Event.act (r : ρ) : Event ι ρ → Option Act
  | obtained _ r' => if r' = r then some .obtained else none
  | moved _ _ => none
  | released _ r' => if r' = r then some .released else none

/-- What happens to a resource, in order. -/
def acts (log : List (Event ι ρ)) (r : ρ) : List Act :=
  log.filterMap (Event.act r)

/-- The resource is obtained and not released since. -/
def IsOpen (log : List (Event ι ρ)) (r : ρ) : Prop :=
  (acts log r).getLast? = some .obtained

instance (log : List (Event ι ρ)) (r : ρ) : Decidable (IsOpen log r) :=
  inferInstanceAs (Decidable (_ = _))

/-- Each release is by an owner that holds what it releases. -/
def Rightful (log : List (Event ι ρ)) : Prop :=
  ∀ pre owner r post, log = pre ++ Event.released owner r :: post → held pre owner = some r

/-- Each time it is obtained, the resource is released once, before it is obtained again. -/
def ReleasedOnce (log : List (Event ι ρ)) (r : ρ) : Prop :=
  ∃ n, acts log r = (List.replicate n [Act.obtained, Act.released]).flatten

/-- Only an owner releases, and each resource is released once. -/
structure ExactlyOnce (log : List (Event ι ρ)) : Prop where
  rightful : Rightful log
  once : ∀ r, ReleasedOnce log r

section Lemmas

variable {log : List (Event ι ρ)} {e : Event ι ρ} {owner i j : ι} {r r' : ρ}

@[simp] theorem held_nil : held ([] : List (Event ι ρ)) i = none :=
  rfl

theorem held_concat : held (log ++ [e]) = e.update (held log) := by
  rw [held, List.foldl_append]
  rfl

@[simp] theorem acts_nil : acts ([] : List (Event ι ρ)) r = [] :=
  rfl

theorem acts_concat : acts (log ++ [e]) r = acts log r ++ (e.act r).toList := by
  cases h : e.act r <;> simp [acts, h]

theorem not_isOpen_nil : ¬IsOpen ([] : List (Event ι ρ)) r :=
  nofun

theorem isOpen_concat :
    IsOpen (log ++ [e]) r ↔ e.act r = some .obtained ∨ e.act r = none ∧ IsOpen log r := by
  rw [IsOpen, acts_concat]
  cases e.act r <;> simp [IsOpen]

theorem isOpen_obtained {owner : Option ι} :
    IsOpen (log ++ [.obtained owner r']) r ↔ r = r' ∨ IsOpen log r := by
  by_cases h : r' = r
  · simp [isOpen_concat, Event.act, h]
  · simp [isOpen_concat, Event.act, h, Ne.symm h]

@[simp] theorem isOpen_moved : IsOpen (log ++ [.moved i j]) r ↔ IsOpen log r := by
  simp [isOpen_concat, Event.act]

theorem isOpen_released :
    IsOpen (log ++ [.released owner r']) r ↔ r ≠ r' ∧ IsOpen log r := by
  by_cases h : r' = r
  · simp [isOpen_concat, Event.act, h]
  · simp [isOpen_concat, Event.act, h, Ne.symm h]

theorem rightful_nil : Rightful ([] : List (Event ι ρ)) := by
  intro pre owner r post h
  simp at h

theorem Rightful.of_append {log' : List (Event ι ρ)} (h : Rightful (log ++ log')) : Rightful log :=
  fun pre owner r post hlog => h pre owner r (post ++ log') (by simp [hlog])

theorem rightful_concat :
    Rightful (log ++ [e]) ↔
      Rightful log ∧ ∀ owner r, e = .released owner r → held log owner = some r := by
  constructor
  · intro h
    refine ⟨h.of_append, ?_⟩
    rintro owner r rfl
    exact h log owner r [] rfl
  · rintro ⟨h, he⟩ pre owner r post hlog
    cases post using List.reverseRecOn with
    | nil =>
      obtain ⟨rfl, he'⟩ := List.append_inj' hlog rfl
      exact he owner r (by simpa using he')
    | append_singleton post e' =>
      rw [← List.cons_append, ← List.append_assoc] at hlog
      exact h pre owner r post (List.append_inj_left' hlog rfl)

/-- A resource that is open is not released. -/
theorem not_releasedOnce_of_isOpen (h : IsOpen log r) : ¬ReleasedOnce log r := by
  rintro ⟨n, hn⟩
  rw [IsOpen, hn] at h
  cases n with
  | zero => simp at h
  | succ n => simp [List.replicate_succ'] at h

/-- A resource is obtained and released in turn. -/
def Alternates (log : List (Event ι ρ)) (r : ρ) : Prop :=
  ∃ n, acts log r = (List.replicate n [Act.obtained, Act.released]).flatten ++
    if IsOpen log r then [Act.obtained] else []

theorem Alternates.releasedOnce (h : Alternates log r) (hopen : ¬IsOpen log r) :
    ReleasedOnce log r := by
  obtain ⟨n, hn⟩ := h
  exact ⟨n, by rw [hn, if_neg hopen, List.append_nil]⟩

/-- What is obtained is not open, and what is released is. -/
theorem Alternates.concat (h : Alternates log r)
    (hobtained : e.act r = some .obtained → ¬IsOpen log r)
    (hreleased : e.act r = some .released → IsOpen log r) : Alternates (log ++ [e]) r := by
  obtain ⟨n, hn⟩ := h
  rw [Alternates, acts_concat, hn]
  simp only [isOpen_concat]
  rcases he : e.act r with _ | _ | _
  · exact ⟨n, by simp⟩
  · exact ⟨n, by simp [hobtained he]⟩
  · exact ⟨n + 1, by simp [hreleased he, List.replicate_succ']⟩

theorem held_obtained : held (log ++ [.obtained (some owner) r']) i = some r ↔
    i = owner ∧ r = r' ∨ i ≠ owner ∧ held log i = some r := by
  rw [held_concat, Event.update, Function.update_apply]
  split_ifs with h
  · simp [h, eq_comm]
  · simp [h]

@[simp] theorem held_obtained_none : held (log ++ [.obtained none r]) = held log :=
  held_concat

theorem held_moved (hne : i ≠ j) {k : ι} : held (log ++ [.moved i j]) k = some r ↔
    k = j ∧ held log i = some r ∨ k ≠ i ∧ k ≠ j ∧ held log k = some r := by
  rw [held_concat, Event.update, Function.update_apply, Function.update_apply]
  split_ifs with hi hj
  · simp [hi, hne]
  · simp [hj, hne.symm]
  · simp [hi, hj]

theorem held_released : held (log ++ [.released owner r']) i = some r ↔
    i ≠ owner ∧ held log i = some r := by
  rw [held_concat, Event.update, Function.update_apply]
  split_ifs with h <;> simp [h]

/-! ## Accounts -/

/-- What is open is held, by one owner each. -/
structure Accounted (log : List (Event ι ρ)) : Prop where
  rightful : Rightful log
  alternates : ∀ r, Alternates log r
  isOpen_iff : ∀ r, IsOpen log r ↔ ∃ i, held log i = some r
  unique : ∀ i j r, held log i = some r → held log j = some r → i = j

theorem accounted_nil : Accounted ([] : List (Event ι ρ)) where
  rightful := rightful_nil
  alternates _ := ⟨0, rfl⟩
  isOpen_iff _ := ⟨fun h => (not_isOpen_nil h).elim, nofun⟩
  unique _ _ _ := nofun

namespace Accounted

variable (h : Accounted log)

include h

/-- An owner that holds nothing obtains what is not open. -/
theorem obtained (hopen : ¬IsOpen log r) (hheld : held log owner = none) :
    Accounted (log ++ [.obtained (some owner) r]) where
  rightful := rightful_concat.mpr ⟨h.rightful, nofun⟩
  alternates r' := by
    refine (h.alternates r').concat (fun he => ?_) fun he => ?_
    · obtain rfl : r = r' := by simpa [Event.act] using he
      exact hopen
    · simp [Event.act] at he
  isOpen_iff r' := by
    simp only [isOpen_obtained, h.isOpen_iff, held_obtained]
    constructor
    · rintro (rfl | ⟨i, hi⟩)
      · exact ⟨owner, Or.inl ⟨rfl, rfl⟩⟩
      · refine ⟨i, Or.inr ⟨?_, hi⟩⟩
        rintro rfl
        rw [hheld] at hi
        cases hi
    · rintro ⟨i, ⟨-, rfl⟩ | ⟨-, hi⟩⟩
      · exact Or.inl rfl
      · exact Or.inr ⟨i, hi⟩
  unique i j r' hi hj := by
    rcases held_obtained.mp hi with ⟨hio, hr⟩ | ⟨-, hi'⟩
    · rcases held_obtained.mp hj with ⟨hjo, -⟩ | ⟨-, hj'⟩
      · exact hio.trans hjo.symm
      · exact (hopen ((h.isOpen_iff r).mpr ⟨j, hr ▸ hj'⟩)).elim
    · rcases held_obtained.mp hj with ⟨-, hr⟩ | ⟨-, hj'⟩
      · exact (hopen ((h.isOpen_iff r).mpr ⟨i, hr ▸ hi'⟩)).elim
      · exact h.unique i j r' hi' hj'

/-- What an owner holds is moved to one that holds nothing. -/
theorem moved (hne : i ≠ j) (hheld : held log j = none) : Accounted (log ++ [.moved i j]) where
  rightful := rightful_concat.mpr ⟨h.rightful, nofun⟩
  alternates r := (h.alternates r).concat nofun nofun
  isOpen_iff r := by
    simp only [isOpen_moved, h.isOpen_iff, held_moved hne]
    constructor
    · rintro ⟨k, hk⟩
      by_cases hki : k = i
      · exact ⟨j, Or.inl ⟨rfl, hki ▸ hk⟩⟩
      · refine ⟨k, Or.inr ⟨hki, ?_, hk⟩⟩
        rintro rfl
        rw [hheld] at hk
        cases hk
    · rintro ⟨k, ⟨-, hk⟩ | ⟨-, -, hk⟩⟩
      · exact ⟨i, hk⟩
      · exact ⟨k, hk⟩
  unique k l r hk hl := by
    rcases (held_moved hne).mp hk with ⟨hkj, hk'⟩ | ⟨hki, -, hk'⟩
    · rcases (held_moved hne).mp hl with ⟨hlj, -⟩ | ⟨hli, -, hl'⟩
      · exact hkj.trans hlj.symm
      · exact (hli (h.unique l i r hl' hk')).elim
    · rcases (held_moved hne).mp hl with ⟨-, hl'⟩ | ⟨-, -, hl'⟩
      · exact (hki (h.unique k i r hk' hl')).elim
      · exact h.unique k l r hk' hl'

/-- An owner releases what it holds. -/
theorem released (hheld : held log owner = some r) :
    Accounted (log ++ [.released owner r]) where
  rightful := rightful_concat.mpr ⟨h.rightful, fun _ _ he => by cases he; exact hheld⟩
  alternates r' := by
    refine (h.alternates r').concat (fun he => ?_) fun he => ?_
    · simp [Event.act] at he
    · obtain rfl : r = r' := by simpa [Event.act] using he
      exact (h.isOpen_iff r).mpr ⟨owner, hheld⟩
  isOpen_iff r' := by
    simp only [isOpen_released, h.isOpen_iff, held_released]
    constructor
    · rintro ⟨hne, i, hi⟩
      refine ⟨i, ?_, hi⟩
      rintro rfl
      exact hne (Option.some.inj (hi.symm.trans hheld))
    · rintro ⟨i, hne, hi⟩
      refine ⟨?_, i, hi⟩
      rintro rfl
      exact hne (h.unique i owner r' hi hheld)
  unique i j r' hi hj :=
    h.unique i j r' (held_released.mp hi).2 (held_released.mp hj).2

/-- When nothing is held any more, everything was released once. -/
theorem exactlyOnce (hheld : ∀ i, held log i = none) : ExactlyOnce log where
  rightful := h.rightful
  once r := by
    refine (h.alternates r).releasedOnce fun hopen => ?_
    obtain ⟨i, hi⟩ := (h.isOpen_iff r).mp hopen
    rw [hheld] at hi
    cases hi

end Accounted

end Lemmas

end Ownership

end Netstore
