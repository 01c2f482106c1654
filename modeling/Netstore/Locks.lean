import Netstore.Transition
import Mathlib.Logic.Function.Basic

/-!
# Calls under a mutex

Threads call operations on data that they share. `Code` is how a call is made : it takes the
mutex of its operation, if there is one, makes its accesses to the shared data one by one,
and lets the mutex go with its result. `Atomic` is what the calls are for : each takes effect
in one step, at some moment between the call and the reply.

`Correct` is what is asked of the code of each operation on its own : it only reads until its
last access, which does what the specification says, and what it has read is kept by the
operations that can run beside it. Then no two threads are inside the same mutex
(`apart_of_run`), the calls and replies of every run are those of a run of `Atomic` with the
same data (`linearizable`), and the calls under way can always be brought to an end
(`exists_run_to_idle`).
-/

namespace Netstore

namespace Locks

open Transition

/-- How the operations are made. A call has a local state while it is inside. -/
structure Code (M Op Res Local σ : Type*) where
  /-- The mutex that a call holds, if any. -/
  mutex : Op → Option M
  enter : Op → Local
  /-- One access to the shared data. -/
  access : Op → Local → σ → Local × σ
  /-- The result, when the call has made its last access. -/
  result : Local → Option Res

/-- Where a thread is. -/
inductive Phase (Op Local : Type*)
  | idle
  | waiting (op : Op)
  | inside (op : Op) (l : Local)

/-- The shared state, which mutexes are locked, and where each thread stands. -/
structure State (M Op Local σ : Type*) where
  shared : σ
  locked : M → Bool
  threads : List (Phase Op Local)

/-- What the `i`-th thread does next. -/
inductive Action (Op : Type*)
  | call (i : ℕ) (op : Op)
  | acquire (i : ℕ)
  | access (i : ℕ)
  | leave (i : ℕ)

/-- What is seen of a run from outside : the calls and the replies. -/
inductive Event (Op Res : Type*)
  | call (i : ℕ) (op : Op)
  | reply (i : ℕ) (r : Res)

variable {M Op Res Local σ : Type*} [DecidableEq M]

/-- The mutexes with one of them locked or let go. -/
def setLocked (locked : M → Bool) (b : Bool) : Option M → M → Bool
  | some m => Function.update locked m b
  | none => locked

theorem setLocked_apply (locked : M → Bool) (b : Bool) (om : Option M) (m : M) :
    setLocked locked b om m = if om = some m then b else locked m := by
  cases om with
  | none => simp [setLocked]
  | some m' => simp [setLocked, Function.update_apply, eq_comm]

namespace Code

variable (c : Code M Op Res Local σ)

/-- Calls of the two operations can be inside at the same time. -/
def Apart (op op' : Op) : Prop :=
  ∀ m, c.mutex op = some m → c.mutex op' ≠ some m

omit [DecidableEq M] in
theorem Apart.symm {c : Code M Op Res Local σ} {op op' : Op} (h : c.Apart op op') :
    c.Apart op' op :=
  fun m h' he => h m he h'

/-- One step of a thread. -/
def step (s : State M Op Local σ) : Action Op → Option (State M Op Local σ)
  | .call i op =>
    match s.threads[i]? with
    | some .idle => some { s with threads := s.threads.set i (.waiting op) }
    | _ => none
  | .acquire i =>
    match s.threads[i]? with
    | some (.waiting op) =>
      if (c.mutex op).any s.locked then none
      else some { s with
        locked := setLocked s.locked true (c.mutex op)
        threads := s.threads.set i (.inside op (c.enter op)) }
    | _ => none
  | .access i =>
    match s.threads[i]? with
    | some (.inside op l) =>
      match c.result l with
      | none =>
        some { s with
          shared := (c.access op l s.shared).2
          threads := s.threads.set i (.inside op (c.access op l s.shared).1) }
      | some _ => none
    | _ => none
  | .leave i =>
    match s.threads[i]? with
    | some (.inside op l) =>
      match c.result l with
      | none => none
      | some _ =>
        some { s with
          locked := setLocked s.locked false (c.mutex op)
          threads := s.threads.set i .idle }
    | _ => none

/-- The call or the reply that a step is. -/
def events (s : State M Op Local σ) : Action Op → List (Event Op Res)
  | .call i op => [.call i op]
  | .leave i =>
    match s.threads[i]? with
    | some (.inside _ l) => (c.result l).toList.map (.reply i)
    | _ => []
  | _ => []

/-- Idle threads, with every mutex free. -/
def start (shared : σ) (n : ℕ) : State M Op Local σ :=
  ⟨shared, fun _ => false, List.replicate n .idle⟩

/-! ## What a step does -/

section Cases

variable {c} {s s' : State M Op Local σ} {i : ℕ} {op : Op}

theorem call_cases (h : c.step s (.call i op) = some s') :
    s.threads[i]? = some .idle ∧ s' = { s with threads := s.threads.set i (.waiting op) } := by
  simp only [step] at h
  split at h
  · rename_i hi
    exact ⟨hi, (Option.some.inj h).symm⟩
  · cases h

theorem acquire_cases (h : c.step s (.acquire i) = some s') :
    ∃ op, s.threads[i]? = some (.waiting op) ∧ (∀ m, c.mutex op = some m → s.locked m = false) ∧
      s' = { s with
        locked := setLocked s.locked true (c.mutex op)
        threads := s.threads.set i (.inside op (c.enter op)) } := by
  simp only [step] at h
  split at h
  · rename_i op hi
    split_ifs at h with hl
    refine ⟨op, hi, fun m hm => ?_, (Option.some.inj h).symm⟩
    simpa [hm] using hl
  · cases h

theorem access_cases (h : c.step s (.access i) = some s') :
    ∃ op l, s.threads[i]? = some (.inside op l) ∧ c.result l = none ∧
      s' = { s with
        shared := (c.access op l s.shared).2
        threads := s.threads.set i (.inside op (c.access op l s.shared).1) } := by
  simp only [step] at h
  split at h
  · rename_i op l hi
    split at h
    · rename_i hl
      exact ⟨op, l, hi, hl, (Option.some.inj h).symm⟩
    · cases h
  · cases h

theorem leave_cases (h : c.step s (.leave i) = some s') :
    ∃ op l r, s.threads[i]? = some (.inside op l) ∧ c.result l = some r ∧
      s' = { s with
        locked := setLocked s.locked false (c.mutex op)
        threads := s.threads.set i .idle } := by
  simp only [step] at h
  split at h
  · rename_i op l hi
    split at h
    · cases h
    · rename_i r hr
      exact ⟨op, l, r, hi, hr, (Option.some.inj h).symm⟩
  · cases h

end Cases

end Code

/-! ## The operations in one step -/

namespace Atomic

/-- Where a thread is with its call. -/
inductive Phase (Op Res : Type*)
  | idle
  | called (op : Op)
  | answered (r : Res)

/-- The shared state and the calls of the threads. -/
structure State (Op Res σ : Type*) where
  shared : σ
  threads : List (Phase Op Res)

/-- A thread calls, its call takes effect, or it returns. -/
inductive Action (Op : Type*)
  | call (i : ℕ) (op : Op)
  | effect (i : ℕ)
  | reply (i : ℕ)

variable (spec : Op → σ → Res × σ)

/-- A call takes effect in one step, between its begin and its reply. -/
def step (s : State Op Res σ) : Action Op → Option (State Op Res σ)
  | .call i op =>
    match s.threads[i]? with
    | some .idle => some { s with threads := s.threads.set i (.called op) }
    | _ => none
  | .effect i =>
    match s.threads[i]? with
    | some (.called op) =>
      some ⟨(spec op s.shared).2, s.threads.set i (.answered (spec op s.shared).1)⟩
    | _ => none
  | .reply i =>
    match s.threads[i]? with
    | some (.answered _) => some { s with threads := s.threads.set i .idle }
    | _ => none

/-- What is seen of a step from outside. -/
def events (s : State Op Res σ) : Action Op → List (Event Op Res)
  | .call i op => [.call i op]
  | .effect _ => []
  | .reply i =>
    match s.threads[i]? with
    | some (.answered r) => [.reply i r]
    | _ => []

/-- No thread is in a call. -/
def start (shared : σ) (n : ℕ) : State Op Res σ :=
  ⟨shared, List.replicate n .idle⟩

end Atomic

/-! ## What is asked of an operation -/

/-- The code of each operation, on its own. `holds` is what a call knows of the shared data,
`rank` how many accesses it may still make. -/
structure Correct (c : Code M Op Res Local σ) (spec : Op → σ → Res × σ)
    (holds : Op → Local → σ → Prop) (rank : Op → Local → σ → ℕ) : Prop where
  result_enter : ∀ op, c.result (c.enter op) = none
  holds_enter : ∀ op s, holds op (c.enter op) s
  /-- An access that is not the last only reads. -/
  reads : ∀ op l s, c.result l = none → holds op l s →
    c.result (c.access op l s).1 = none → (c.access op l s).2 = s ∧
      holds op (c.access op l s).1 s ∧ rank op (c.access op l s).1 s < rank op l s
  /-- The last one is the operation. -/
  commits : ∀ op l s r, c.result l = none → holds op l s →
    c.result (c.access op l s).1 = some r → spec op s = (r, (c.access op l s).2)
  /-- What a call has read is kept by the operations beside it. -/
  stable : ∀ op l op' s, c.Apart op op' → holds op l s →
    holds op l (spec op' s).2 ∧ rank op l (spec op' s).2 = rank op l s

/-! ## What every run keeps -/

/-- A mutex is locked while a call under it is inside, one call at a time, and what a call
knows of the data is so. -/
structure Good (c : Code M Op Res Local σ) (holds : Op → Local → σ → Prop)
    (s : State M Op Local σ) : Prop where
  locked : ∀ (i : ℕ) op l m, s.threads[i]? = some (.inside op l) → c.mutex op = some m →
    s.locked m = true
  inside : ∀ m, s.locked m = true →
    ∃ (i : ℕ) (op : Op) (l : Local), s.threads[i]? = some (.inside op l) ∧ c.mutex op = some m
  apart : ∀ (i j : ℕ) op op' l l', i ≠ j → s.threads[i]? = some (.inside op l) →
    s.threads[j]? = some (.inside op' l') → c.Apart op op'
  holds : ∀ (i : ℕ) op l, s.threads[i]? = some (.inside op l) → c.result l = none →
    holds op l s.shared

section Run

variable {c : Code M Op Res Local σ} {spec : Op → σ → Res × σ} {holds : Op → Local → σ → Prop}
  {rank : Op → Local → σ → ℕ} {s s' : State M Op Local σ} {i : ℕ}

omit [DecidableEq M] in
theorem good_start (shared : σ) (n : ℕ) : Good c holds (Code.start shared n) := by
  have hidle : ∀ (i : ℕ) op l, (List.replicate n (Phase.idle : Phase Op Local))[i]? ≠
      some (.inside op l) := by
    intro i op l h
    rw [List.getElem?_replicate] at h
    split_ifs at h
    cases h
  exact
    { locked := fun i op l _ h => (hidle i op l h).elim
      inside := fun _ h => by cases h
      apart := fun i _ op _ l _ _ h => (hidle i op l h).elim
      holds := fun i op l h => (hidle i op l h).elim }

theorem Good.call {op : Op} (hg : Good c holds s) (h : c.step s (.call i op) = some s') :
    Good c holds s' := by
  obtain ⟨hi, rfl⟩ := Code.call_cases h
  have hsame : ∀ (j : ℕ) op' l, (s.threads.set i (.waiting op))[j]? = some (.inside op' l) ↔
      s.threads[j]? = some (.inside op' l) := by
    intro j op' l
    rw [getElem?_set_eq_some hi]
    constructor
    · rintro (⟨-, h⟩ | ⟨-, h⟩)
      · cases h
      · exact h
    · intro h
      exact Or.inr ⟨fun he => by simp [he, hi] at h, h⟩
  exact
    { locked := fun j op' l m hj => hg.locked j op' l m ((hsame j op' l).mp hj)
      inside := fun m hm => by
        obtain ⟨j, op', l, hj, hop⟩ := hg.inside m hm
        exact ⟨j, op', l, (hsame j op' l).mpr hj, hop⟩
      apart := fun j k op₁ op₂ l₁ l₂ hne hj hk =>
        hg.apart j k op₁ op₂ l₁ l₂ hne ((hsame j op₁ l₁).mp hj) ((hsame k op₂ l₂).mp hk)
      holds := fun j op' l hj => hg.holds j op' l ((hsame j op' l).mp hj) }

theorem Good.acquire (hc : Correct c spec holds rank) (hg : Good c holds s)
    (h : c.step s (.acquire i) = some s') : Good c holds s' := by
  obtain ⟨op, hi, hfree, rfl⟩ := Code.acquire_cases h
  -- a call that is inside already is under another mutex, which would be locked
  have hnew : ∀ (j : ℕ) op' l, s.threads[j]? = some (.inside op' l) → c.Apart op op' :=
    fun j op' l hj m hm hm' => by simpa [hfree m hm] using hg.locked j op' l m hj hm'
  exact
    { locked := fun j op' l m hj hm => by
        simp only [setLocked_apply]
        split_ifs with he
        · rfl
        · rcases (getElem?_set_eq_some hi).mp hj with ⟨-, hj⟩ | ⟨-, hj⟩
          · cases hj
            exact (he hm).elim
          · exact hg.locked j op' l m hj hm
      inside := fun m hm => by
        simp only [setLocked_apply] at hm
        split_ifs at hm with he
        · exact ⟨i, op, _, (getElem?_set_eq_some hi).mpr (Or.inl ⟨rfl, rfl⟩), he⟩
        · obtain ⟨j, op', l, hj, hop⟩ := hg.inside m hm
          exact ⟨j, op', l, (getElem?_set_eq_some hi).mpr
            (Or.inr ⟨fun he => by simp [he, hi] at hj, hj⟩), hop⟩
      apart := fun j k op₁ op₂ l₁ l₂ hne hj hk => by
        rcases (getElem?_set_eq_some hi).mp hj with ⟨hji, hj⟩ | ⟨-, hj⟩ <;>
          rcases (getElem?_set_eq_some hi).mp hk with ⟨hki, hk⟩ | ⟨-, hk⟩
        · exact (hne (hji.trans hki.symm)).elim
        · cases hj
          exact hnew k op₂ l₂ hk
        · cases hk
          exact (hnew j op₁ l₁ hj).symm
        · exact hg.apart j k op₁ op₂ l₁ l₂ hne hj hk
      holds := fun j op' l hj hl => by
        rcases (getElem?_set_eq_some hi).mp hj with ⟨-, hj⟩ | ⟨-, hj⟩
        · cases hj
          exact hc.holds_enter op s.shared
        · exact hg.holds j op' l hj hl }

omit [DecidableEq M] in
/-- An access leaves the data as it is, or is the operation. -/
theorem Correct.access_cases (hc : Correct c spec holds rank) {op : Op} {l : Local} {d : σ}
    (hl : c.result l = none) (hd : holds op l d) :
    (c.result (c.access op l d).1 = none ∧ (c.access op l d).2 = d ∧
        holds op (c.access op l d).1 d) ∨
      ∃ r, c.result (c.access op l d).1 = some r ∧ spec op d = (r, (c.access op l d).2) := by
  cases hr : c.result (c.access op l d).1 with
  | none =>
    obtain ⟨hsame, hd', -⟩ := hc.reads op l d hl hd hr
    exact Or.inl ⟨rfl, hsame, hd'⟩
  | some r => exact Or.inr ⟨r, rfl, hc.commits op l d r hl hd hr⟩

theorem Good.access (hc : Correct c spec holds rank) (hg : Good c holds s)
    (h : c.step s (.access i) = some s') : Good c holds s' := by
  obtain ⟨op, l, hi, hl, rfl⟩ := Code.access_cases h
  have hd := hg.holds i op l hi hl
  -- the call of a thread that is inside stays the same
  have hwas : ∀ (j : ℕ) op' l', (s.threads.set i (.inside op (c.access op l s.shared).1))[j]? =
      some (.inside op' l') → ∃ l'', s.threads[j]? = some (.inside op' l'') := by
    intro j op' l' hj
    rcases (getElem?_set_eq_some hi).mp hj with ⟨hji, hop⟩ | ⟨-, hj⟩
    · cases hop
      exact ⟨l, hji ▸ hi⟩
    · exact ⟨l', hj⟩
  exact
    { locked := fun j op' l' m hj hm => by
        obtain ⟨l'', hj⟩ := hwas j op' l' hj
        exact hg.locked j op' l'' m hj hm
      inside := fun m hm => by
        obtain ⟨j, op', l', hj, hop⟩ := hg.inside m hm
        by_cases hji : j = i
        · subst hji
          cases hi.symm.trans hj
          exact ⟨j, op, _, (getElem?_set_eq_some hi).mpr (Or.inl ⟨rfl, rfl⟩), hop⟩
        · exact ⟨j, op', l', (getElem?_set_eq_some hi).mpr (Or.inr ⟨hji, hj⟩), hop⟩
      apart := fun j k op₁ op₂ l₁ l₂ hne hj hk => by
        obtain ⟨l₁', hj⟩ := hwas j op₁ l₁ hj
        obtain ⟨l₂', hk⟩ := hwas k op₂ l₂ hk
        exact hg.apart j k op₁ op₂ l₁' l₂' hne hj hk
      holds := fun j op' l' hj hl' => by
        rcases (getElem?_set_eq_some hi).mp hj with ⟨-, hj⟩ | ⟨hji, hj⟩
        · cases hj
          rcases hc.access_cases hl hd with ⟨-, hsame, hd'⟩ | ⟨r, hr, -⟩
          · rw [hsame]
            exact hd'
          · cases hl'.symm.trans hr
        · have hd' := hg.holds j op' l' hj hl'
          rcases hc.access_cases hl hd with ⟨-, hsame, -⟩ | ⟨r, -, hspec⟩
          · rw [hsame]
            exact hd'
          · rw [← congrArg Prod.snd hspec]
            exact (hc.stable op' l' op s.shared (hg.apart j i op' op l' l hji hj hi) hd').1 }

theorem Good.leave (hg : Good c holds s) (h : c.step s (.leave i) = some s') :
    Good c holds s' := by
  obtain ⟨op, l, r, hi, -, rfl⟩ := Code.leave_cases h
  have hwas : ∀ (j : ℕ) op' l', (s.threads.set i .idle)[j]? = some (.inside op' l') →
      j ≠ i ∧ s.threads[j]? = some (.inside op' l') := by
    intro j op' l' hj
    rcases (getElem?_set_eq_some hi).mp hj with ⟨-, hj⟩ | hj
    · cases hj
    · exact hj
  exact
    { locked := fun j op' l' m hj hm => by
        obtain ⟨hji, hj⟩ := hwas j op' l' hj
        have hne : c.mutex op ≠ some m := hg.apart j i op' op l' l hji hj hi m hm
        simp only [setLocked_apply, if_neg hne]
        exact hg.locked j op' l' m hj hm
      inside := fun m hm => by
        simp only [setLocked_apply] at hm
        split_ifs at hm with he
        obtain ⟨j, op', l', hj, hop⟩ := hg.inside m hm
        refine ⟨j, op', l', (getElem?_set_eq_some hi).mpr (Or.inr ⟨fun hji => ?_, hj⟩), hop⟩
        subst hji
        cases hi.symm.trans hj
        exact he hop
      apart := fun j k op₁ op₂ l₁ l₂ hne hj hk =>
        hg.apart j k op₁ op₂ l₁ l₂ hne (hwas j op₁ l₁ hj).2 (hwas k op₂ l₂ hk).2
      holds := fun j op' l' hj => hg.holds j op' l' (hwas j op' l' hj).2 }

theorem Good.step (hc : Correct c spec holds rank) (hg : Good c holds s) {a : Action Op}
    (h : c.step s a = some s') : Good c holds s' := by
  cases a with
  | call i op => exact hg.call h
  | acquire i => exact hg.acquire hc h
  | access i => exact hg.access hc h
  | leave i => exact hg.leave h

theorem good_of_run (hc : Correct c spec holds rank) {shared : σ} {n : ℕ}
    {as : List (Action Op)} (hr : run c.step (Code.start shared n) as = some s) :
    Good c holds s :=
  run_induction_all (fun _ => Good c holds) (good_start shared n)
    (fun _ _ _ _ _ hg h => hg.step hc h) hr

/-- Calls under one mutex are never inside together. -/
theorem apart_of_run (hc : Correct c spec holds rank) {shared : σ} {n : ℕ}
    {as : List (Action Op)} (hr : run c.step (Code.start shared n) as = some s) {i j : ℕ}
    {op op' : Op} {l l' : Local} (hne : i ≠ j) (hi : s.threads[i]? = some (.inside op l))
    (hj : s.threads[j]? = some (.inside op' l')) : c.Apart op op' :=
  (good_of_run hc hr).apart i j op op' l l' hne hi hj

end Run

/-! ## The calls take effect in one step -/

section Linearizable

variable (c : Code M Op Res Local σ) {spec : Op → σ → Res × σ} {holds : Op → Local → σ → Prop}
  {rank : Op → Local → σ → ℕ} {s s' : State M Op Local σ}

/-- How far the call is : it has taken effect when it has its result. -/
def Code.phase : Phase Op Local → Atomic.Phase Op Res
  | .idle => .idle
  | .waiting op => .called op
  | .inside op l =>
    match c.result l with
    | none => .called op
    | some r => .answered r

/-- The calls, without their accesses. -/
def Code.abstract (s : State M Op Local σ) : Atomic.State Op Res σ :=
  ⟨s.shared, s.threads.map c.phase⟩

variable {c}

omit [DecidableEq M] in
theorem abstract_start (shared : σ) (n : ℕ) :
    c.abstract (Code.start shared n) = Atomic.start shared n := by
  simp [Code.abstract, Code.start, Atomic.start, Code.phase]

/-- Every step of the code is a step of the operations, or nothing. -/
theorem Good.simulates (hc : Correct c spec holds rank) (hg : Good c holds s) {a : Action Op}
    (h : c.step s a = some s') :
    ∃ bs, run (Atomic.step spec) (c.abstract s) bs = some (c.abstract s') ∧
      (trace (Atomic.step spec) Atomic.events (c.abstract s) bs).flatten = c.events s a := by
  cases a with
  | call i op =>
    obtain ⟨hi, rfl⟩ := Code.call_cases h
    refine ⟨[.call i op], ?_, ?_⟩
    · simp [run_cons, Atomic.step, Code.abstract, Code.phase, List.map_set, hi]
    · simp [trace, Atomic.step, Code.abstract, Code.phase, Atomic.events, Code.events, hi]
  | acquire i =>
    obtain ⟨op, hi, -, rfl⟩ := Code.acquire_cases h
    have hp : c.phase (.inside op (c.enter op)) = c.phase (.waiting op) := by
      simp [Code.phase, hc.result_enter]
    refine ⟨[], ?_, rfl⟩
    simp only [run_nil, Code.abstract, map_set_of_eq c.phase hi hp]
  | access i =>
    obtain ⟨op, l, hi, hl, rfl⟩ := Code.access_cases h
    rcases hc.access_cases hl (hg.holds i op l hi hl) with ⟨hl', hsame, -⟩ | ⟨r, hr, hspec⟩
    · have hp : c.phase (.inside op (c.access op l s.shared).1) = c.phase (.inside op l) := by
        simp [Code.phase, hl, hl']
      refine ⟨[], ?_, rfl⟩
      simp only [run_nil, Code.abstract, map_set_of_eq c.phase hi hp, hsame]
    · refine ⟨[.effect i], ?_, ?_⟩
      · simp [run_cons, Atomic.step, Code.abstract, Code.phase, List.map_set, hi, hl, hr, hspec]
      · simp [trace, Atomic.step, Code.abstract, Code.phase, Atomic.events, Code.events, hi, hl]
  | leave i =>
    obtain ⟨op, l, r, hi, hr, rfl⟩ := Code.leave_cases h
    refine ⟨[.reply i], ?_, ?_⟩
    · simp [run_cons, Atomic.step, Code.abstract, Code.phase, List.map_set, hi, hr]
    · simp [trace, Atomic.step, Code.abstract, Code.phase, Atomic.events, Code.events, hi, hr]

/-- The calls and replies of every run are those of a run in which each call takes effect in
one step, with the same data. -/
theorem linearizable (hc : Correct c spec holds rank) {shared : σ} {n : ℕ}
    {as : List (Action Op)} (hr : run c.step (Code.start shared n) as = some s) :
    ∃ bs, run (Atomic.step spec) (Atomic.start shared n) bs = some (c.abstract s) ∧
      (trace (Atomic.step spec) Atomic.events (Atomic.start shared n) bs).flatten =
        (trace c.step c.events (Code.start shared n) as).flatten := by
  have hstep : ∀ (s : State M Op Local σ) a s' t, (Good c holds s ∧ c.abstract s = t) → True →
      c.step s a = some s' → ∃ bs t', run (Atomic.step spec) t bs = some t' ∧
        Along (Atomic.step spec) (fun _ _ => True) t bs ∧
          (trace (Atomic.step spec) Atomic.events t bs).flatten = c.events s a ∧
            Good c holds s' ∧ c.abstract s' = t' := by
    rintro s a s' _ ⟨hg, rfl⟩ - h
    obtain ⟨bs, hbs, hout⟩ := hg.simulates hc h
    exact ⟨bs, c.abstract s', hbs, along_true _ _, hout, hg.step hc h, rfl⟩
  obtain ⟨bs, t, hbs, -, hout, -, rfl⟩ := run_simulates
    (fun s t => Good c holds s ∧ c.abstract s = t) hstep
    ⟨good_start shared n, abstract_start shared n⟩ hr (along_true _ _)
  exact ⟨bs, hbs, hout⟩

end Linearizable

/-! ## The calls end -/

section Progress

variable {c : Code M Op Res Local σ} {spec : Op → σ → Res × σ} {holds : Op → Local → σ → Prop}
  {rank : Op → Local → σ → ℕ} {s s' : State M Op Local σ} {i : ℕ}

/-- A step of a call that is under way. -/
def Action.Begun : Action Op → Prop
  | .call _ _ => False
  | _ => True

/-- The step is an access of the thread. -/
def Action.isAccess (i : ℕ) : Action Op → Bool
  | .access j => j == i
  | _ => false

/-- The step is the thread's return. -/
def Action.isLeave (i : ℕ) : Action Op → Bool
  | .leave j => j == i
  | _ => false

/-- How many accesses the call of a thread has to make. -/
def Code.left (c : Code M Op Res Local σ) (rank : Op → Local → σ → ℕ) (d : σ) :
    Phase Op Local → ℕ
  | .inside op l =>
    match c.result l with
    | none => rank op l d + 1
    | some _ => 0
  | _ => 0

omit [DecidableEq M] in
theorem Correct.left_access_lt (hc : Correct c spec holds rank) {op : Op} {l : Local} {d : σ}
    (hl : c.result l = none) (hd : holds op l d) :
    c.left rank (c.access op l d).2 (.inside op (c.access op l d).1) <
      c.left rank d (.inside op l) := by
  cases hr : c.result (c.access op l d).1 with
  | none =>
    obtain ⟨hsame, -, hlt⟩ := hc.reads op l d hl hd hr
    simp only [Code.left, hl, hr, hsame]
    omega
  | some r =>
    simp only [Code.left, hl, hr]
    omega

/-- Alone, a call that is inside comes to its end. -/
theorem Good.exists_run_leave (hc : Correct c spec holds rank) (hg : Good c holds s) {op : Op}
    {l : Local} (hi : s.threads[i]? = some (.inside op l)) :
    ∃ as s', (∀ a ∈ as, a.Begun) ∧ run c.step s as = some s' ∧
      s'.threads = s.threads.set i .idle := by
  induction hn : c.left rank s.shared (.inside op l) using Nat.strong_induction_on
    generalizing s l with
  | _ n ih =>
    cases hl : c.result l with
    | some r =>
      refine ⟨[.leave i], { s with
        locked := setLocked s.locked false (c.mutex op)
        threads := s.threads.set i .idle }, by simp [Action.Begun], ?_, rfl⟩
      simp only [run_cons, Code.step, hi, hl, Option.bind_some, run_nil]
    | none =>
      have hstep : c.step s (.access i) = some
          { s with
            shared := (c.access op l s.shared).2
            threads := s.threads.set i (.inside op (c.access op l s.shared).1) } := by
        simp only [Code.step, hi, hl]
      have hi' : (s.threads.set i (.inside op (c.access op l s.shared).1))[i]? =
          some (.inside op (c.access op l s.shared).1) :=
        (getElem?_set_eq_some hi).mpr (Or.inl ⟨rfl, rfl⟩)
      have hlt : c.left rank (c.access op l s.shared).2
          (.inside op (c.access op l s.shared).1) < n :=
        hn ▸ hc.left_access_lt hl (hg.holds i op l hi hl)
      obtain ⟨as, s', has, hrun, hth⟩ := ih _ hlt (hg.access hc hstep) hi' rfl
      refine ⟨.access i :: as, s', ?_, ?_, ?_⟩
      · exact List.forall_mem_cons.mpr ⟨trivial, has⟩
      · rw [run_cons, hstep]
        exact hrun
      · rw [hth, List.set_set]

theorem Good.run (hc : Correct c spec holds rank) (hg : Good c holds s) {as : List (Action Op)}
    (hr : run c.step s as = some s') : Good c holds s' :=
  run_induction_all (fun _ => Good c holds) hg (fun _ _ _ _ _ hg h => hg.step hc h) hr

/-- The thread is outside. -/
def Phase.isIdle : Phase Op Local → Bool
  | .idle => true
  | _ => false

@[simp] theorem Phase.isIdle_idle : (idle : Phase Op Local).isIdle = true :=
  rfl

/-- A thread with a call can bring it to its end, if none is inside or it is inside itself. -/
theorem Good.exists_run_of_waiting (hc : Correct c spec holds rank) (hg : Good c holds s) {op : Op}
    (hi : s.threads[i]? = some (.waiting op))
    (hnone : ∀ (j : ℕ) op' l, s.threads[j]? ≠ some (.inside op' l)) :
    ∃ as s', (∀ a ∈ as, a.Begun) ∧ Transition.run c.step s as = some s' ∧
      s'.threads = s.threads.set i .idle := by
  have hfree : (c.mutex op).any s.locked = false := by
    cases hm : c.mutex op with
    | none => rfl
    | some m =>
      cases hl : s.locked m with
      | false => simp [hl]
      | true =>
        obtain ⟨j, op', l, hj, -⟩ := hg.inside m hl
        exact (hnone j op' l hj).elim
  have hstep : c.step s (.acquire i) = some
      { s with
        locked := setLocked s.locked true (c.mutex op)
        threads := s.threads.set i (.inside op (c.enter op)) } := by
    simp only [Code.step, hi, hfree, Bool.false_eq_true, if_false]
  have hi' : (s.threads.set i (.inside op (c.enter op)))[i]? = some (.inside op (c.enter op)) :=
    (getElem?_set_eq_some hi).mpr (Or.inl ⟨rfl, rfl⟩)
  obtain ⟨as, s', has, hrun, hth⟩ := (hg.acquire hc hstep).exists_run_leave hc hi'
  refine ⟨.acquire i :: as, s', List.forall_mem_cons.mpr ⟨trivial, has⟩, ?_, ?_⟩
  · rw [run_cons, hstep]
    exact hrun
  · rw [hth, List.set_set]

/-- The calls under way can always be brought to their ends : there is no deadlock. -/
theorem Good.exists_run_to_idle (hc : Correct c spec holds rank) (hg : Good c holds s) :
    ∃ as s', (∀ a ∈ as, a.Begun) ∧ Transition.run c.step s as = some s' ∧
      ∀ p ∈ s'.threads, p.isIdle := by
  induction hn : s.threads.countP (fun p => !p.isIdle) using Nat.strong_induction_on
    generalizing s with
  | _ n ih =>
    by_cases hidle : ∀ p ∈ s.threads, p.isIdle
    · exact ⟨[], s, by simp, rfl, hidle⟩
    · -- a thread inside goes first, else one that waits
      have hone : ∃ i p as s', s.threads[i]? = some p ∧ p.isIdle = false ∧
          (∀ a ∈ as, a.Begun) ∧ Transition.run c.step s as = some s' ∧
            s'.threads = s.threads.set i .idle := by
        by_cases hin : ∃ (i : ℕ) (op : Op) (l : Local), s.threads[i]? = some (.inside op l)
        · obtain ⟨i, op, l, hi⟩ := hin
          obtain ⟨as, s', has, hrun, hth⟩ := hg.exists_run_leave hc hi
          exact ⟨i, _, as, s', hi, rfl, has, hrun, hth⟩
        · simp only [not_exists] at hin
          simp only [not_forall] at hidle
          obtain ⟨p, hp, hpi⟩ := hidle
          obtain ⟨i, hi⟩ := List.mem_iff_getElem?.mp hp
          cases p with
          | idle => exact (hpi rfl).elim
          | waiting op =>
            obtain ⟨as, s', has, hrun, hth⟩ := hg.exists_run_of_waiting hc hi hin
            exact ⟨i, _, as, s', hi, rfl, has, hrun, hth⟩
          | inside op l => exact (hin i op l hi).elim
      obtain ⟨i, p, as, s₁, hi, hp, has, hrun, hth⟩ := hone
      have hlt : s₁.threads.countP (fun p => !p.isIdle) < n := by
        obtain ⟨hlt, hget⟩ := List.getElem?_eq_some_iff.mp hi
        have hpos : 0 < s.threads.countP (fun p => !p.isIdle) :=
          List.countP_pos_iff.mpr ⟨p, List.mem_of_getElem? hi, by simp [hp]⟩
        rw [hth, List.countP_set hlt, hget, ← hn, hp]
        simp only [Phase.isIdle_idle, Bool.not_true, Bool.not_false, if_true, Bool.false_eq_true,
          if_false]
        omega
      obtain ⟨bs, s', hbs, hrun', hidle'⟩ := ih _ hlt (hg.run hc hrun) rfl
      refine ⟨as ++ bs, s', ?_, ?_, hidle'⟩
      · exact List.forall_mem_append.mpr ⟨has, hbs⟩
      · rw [run_append, hrun]
        exact hrun'

omit [DecidableEq M] in
/-- What the others do changes nothing for a call that is inside. -/
theorem Good.left_of_access (hc : Correct c spec holds rank) (hg : Good c holds s) {op op' : Op}
    {l l' : Local} {j : ℕ} (hji : j ≠ i) (hi : s.threads[i]? = some (.inside op l))
    (hj : s.threads[j]? = some (.inside op' l')) (hl' : c.result l' = none) :
    c.left rank (c.access op' l' s.shared).2 (.inside op l) =
      c.left rank s.shared (.inside op l) := by
  cases hl : c.result l with
  | some r => simp only [Code.left, hl]
  | none =>
    rcases hc.access_cases hl' (hg.holds j op' l' hj hl') with ⟨-, hsame, -⟩ | ⟨r, -, hspec⟩
    · rw [hsame]
    · have hap := hg.apart i j op op' l l' (Ne.symm hji) hi hj
      have hrank := (hc.stable op l op' s.shared hap (hg.holds i op l hi hl)).2
      rw [hspec] at hrank
      simp only [Code.left, hl, hrank]

/-- A call that is inside makes at most the accesses it has left, whatever the others do. -/
theorem Good.countP_access_le (hc : Correct c spec holds rank) (hg : Good c holds s) {op : Op}
    {l : Local} (hi : s.threads[i]? = some (.inside op l)) {as : List (Action Op)}
    (hr : Transition.run c.step s as = some s') (has : ∀ a ∈ as, a.isLeave i = false) :
    as.countP (Action.isAccess i) ≤ c.left rank s.shared (.inside op l) := by
  have hstep : ∀ (s : State M Op Local σ) a s',
      (Good c holds s ∧ ∃ op l, s.threads[i]? = some (.inside op l)) → a.isLeave i = false →
      c.step s a = some s' → (Good c holds s' ∧ ∃ op l, s'.threads[i]? = some (.inside op l)) ∧
        (s'.threads[i]?).elim 0 (c.left rank s'.shared) + (Action.isAccess i a).toNat ≤
          (s.threads[i]?).elim 0 (c.left rank s.shared) := by
    rintro s a s' ⟨hg, op, l, hi⟩ ha h
    have hg' := hg.step hc h
    cases a with
    | call j op' =>
      obtain ⟨hj, rfl⟩ := Code.call_cases h
      have hji : j ≠ i := fun he => by simp [he, hi] at hj
      simp only [List.getElem?_set_ne hji]
      exact ⟨⟨hg', op, l, hi⟩, le_rfl⟩
    | acquire j =>
      obtain ⟨op', hj, -, rfl⟩ := Code.acquire_cases h
      have hji : j ≠ i := fun he => by simp [he, hi] at hj
      simp only [List.getElem?_set_ne hji]
      exact ⟨⟨hg', op, l, hi⟩, le_rfl⟩
    | access j =>
      obtain ⟨op', l', hj, hl', rfl⟩ := Code.access_cases h
      by_cases hji : j = i
      · subst hji
        cases hi.symm.trans hj
        have hlt := hc.left_access_lt hl' (hg.holds j op l hi hl')
        have hj' := (getElem?_set_eq_some (b := .inside op (c.access op l s.shared).1) hi).mpr
          (Or.inl ⟨rfl, rfl⟩)
        refine ⟨⟨hg', op, _, hj'⟩, ?_⟩
        simp only [hj', hi, Option.elim_some, Action.isAccess, beq_self_eq_true, Bool.toNat_true]
        exact hlt
      · have hleft := hg.left_of_access hc hji hi hj hl'
        simp only [List.getElem?_set_ne hji]
        refine ⟨⟨hg', op, l, hi⟩, ?_⟩
        simp only [hi, Option.elim_some, hleft, Action.isAccess,
          beq_eq_false_iff_ne.mpr hji, Bool.toNat_false]
        exact le_rfl
    | leave j =>
      obtain ⟨op', l', r, hj, -, rfl⟩ := Code.leave_cases h
      have hji : j ≠ i := fun he => by simp [Action.isLeave, he] at ha
      simp only [List.getElem?_set_ne hji]
      exact ⟨⟨hg', op, l, hi⟩, le_rfl⟩
  obtain ⟨-, hle⟩ := countP_le_of_decreasing
    (fun s : State M Op Local σ => (s.threads[i]?).elim 0 (c.left rank s.shared)) hstep
    ⟨hg, op, l, hi⟩ has hr
  simp only [hi, Option.elim_some] at hle
  omega

end Progress

end Locks

end Netstore
