import Netstore.Store

/-!
# A store with uploads under way

`Store` takes in a file in one step. A depot has any number of uploads under way : each reserves its
space, then claims its name, its file comes piece by piece, and the file is stored when all of it
has come, or what has come is dropped, and the upload gives its space back and its name after it. A
file that is taken out goes in two steps as well : its name is free at once, and its space when it
has been given back, and until it is gone its bytes can still be read. `Depot.step` says what a
depot answers meanwhile. What it has promised never exceeds the capacity, unless it did at the start
(`Depot.run_used_le`).
-/

namespace Netstore

namespace Depot

/-- An upload that is under way. -/
structure Entrant (Name : Type*) where
  /-- The name that it has claimed. -/
  name : Option Name
  space : ℕ
  /-- What has come of its file, once there is one. -/
  file : Option Bytes
  deriving DecidableEq

/-- A file that is being taken out. -/
structure Leaving (Name : Type*) where
  name : Name
  file : Bytes
  /-- The space that it still has. -/
  space : ℕ

end Depot

/-- A store, and what is not settled yet. -/
structure Depot (Name : Type*) extends Store Name where
  entrants : Multiset (Depot.Entrant Name)
  leaving : Option (Depot.Leaving Name)

namespace Depot

/-- What can be asked of a depot and what it does, with its answers. -/
inductive Event (Name : Type*) where
  /-- The space that is announced. -/
  | hello (space : ℕ)
  /-- The names that are listed. -/
  | list (names : Finset Name)
  /-- A name is asked for. -/
  | ask (f : Name) (found : Bool)
  /-- A name is opened for reading, with the file that it leads to. -/
  | read (f : Name) (file : Option Bytes)
  /-- An upload asks for space. -/
  | reserve (n : ℕ) (ok : Bool)
  /-- An upload that has space asks for its name. -/
  | claim (f : Name) (n : ℕ) (ok : Bool)
  /-- More of the file of an upload has come. -/
  | arrive (e : Entrant Name) (bs : Bytes)
  /-- What has come of the file of an upload is dropped. -/
  | drop (e : Entrant Name)
  | giveBack (f : Option Name) (n : ℕ)
  | forget (f : Name)
  /-- All of a file has come. -/
  | commit (f : Name) (bs : Bytes)
  /-- A file is taken out, if there is one of the name. -/
  | del (f : Name) (found : Bool)
  /-- The space of the file that is taken out is given back. -/
  | pay
  | gone
  deriving DecidableEq

variable {Name : Type*} [DecidableEq Name] (d : Depot Name)

/-- The space that is not free. -/
def used : ℕ :=
  d.total + (d.entrants.map Entrant.space).sum + d.leaving.elim 0 Leaving.space

/-- The names of the uploads under way. -/
def claimed : Finset Name :=
  (d.entrants.filterMap Entrant.name).toFinset

/-- The names that are not free. -/
def names : Finset Name :=
  d.files.keys ∪ d.claimed

/-- The name leads to this file : the one that is taken out, until it is gone, or what has come of
the one whose upload is under way, or the stored one. -/
def Reads (f : Name) (file : Option Bytes) : Prop :=
  if d.leaving.map Leaving.name = some f then file = d.leaving.map Leaving.file
  else if f ∈ d.claimed then (some f, file) ∈ d.entrants.map fun e => (e.name, e.file)
  else file = d.files.lookup f

instance (f : Name) (file : Option Bytes) : Decidable (d.Reads f file) :=
  inferInstanceAs (Decidable (ite _ _ _))

/-- The depot after the event, if this is what comes of it. -/
def step : Event Name → Option (Depot Name)
  | .hello space => if space = d.capacity - d.used then some d else none
  | .list names => if names = d.names then some d else none
  | .ask f found => if found = decide (f ∈ d.names) then some d else none
  | .read f file => if d.Reads f file then some d else none
  | .reserve n ok =>
    if ok = decide (d.used + n ≤ d.capacity) then
      some (if ok then { d with entrants := ⟨none, n, none⟩ ::ₘ d.entrants } else d)
    else none
  | .claim f n ok =>
    if ⟨none, n, none⟩ ∈ d.entrants ∧ ok = decide (f ∉ d.names) then
      some (if ok then
        { d with entrants := ⟨some f, n, none⟩ ::ₘ d.entrants.erase ⟨none, n, none⟩ } else d)
    else none
  -- no more comes than there is space for
  | .arrive e bs =>
    if e ∈ d.entrants ∧ e.name.isSome ∧ (e.file.getD []).length + bs.length ≤ e.space then
      some { d with
        entrants := { e with file := some (e.file.getD [] ++ bs) } ::ₘ d.entrants.erase e }
    else none
  | .drop e =>
    if e ∈ d.entrants then
      some { d with entrants := { e with file := none } ::ₘ d.entrants.erase e }
    else none
  -- the space goes when nothing is left of the file, and the name after it
  | .giveBack none n =>
    if ⟨none, n, none⟩ ∈ d.entrants then
      some { d with entrants := d.entrants.erase ⟨none, n, none⟩ }
    else none
  | .giveBack (some f) n =>
    if ⟨some f, n, none⟩ ∈ d.entrants then
      some { d with entrants := ⟨some f, 0, none⟩ ::ₘ d.entrants.erase ⟨some f, n, none⟩ }
    else none
  | .forget f =>
    if ⟨some f, 0, none⟩ ∈ d.entrants then
      some { d with entrants := d.entrants.erase ⟨some f, 0, none⟩ }
    else none
  | .commit f bs =>
    if ⟨some f, bs.length, some bs⟩ ∈ d.entrants ∧ f ∉ d.files then
      some { d with
        files := d.files.insert f bs
        entrants := d.entrants.erase ⟨some f, bs.length, some bs⟩ }
    else none
  | .del f found =>
    if found = decide (f ∈ d.files) ∧ d.leaving = none ∧ f ∉ d.claimed then
      some { d with
        files := d.files.erase f
        leaving := (d.files.lookup f).map fun bs => ⟨f, bs, bs.length⟩ }
    else none
  | .pay => d.leaving.map fun l => { d with leaving := some { l with space := 0 } }
  | .gone => if d.leaving.map Leaving.space = some 0 then some { d with leaving := none } else none

/-! ## What a depot has promised -/

variable {d} {d' : Depot Name} {e : Event Name}

theorem used_cons (x : Entrant Name) (l : Multiset (Entrant Name)) :
    used { d with entrants := x ::ₘ l } = used { d with entrants := l } + x.space := by
  simp only [used, Multiset.map_cons, Multiset.sum_cons]
  omega

theorem used_erase {x : Entrant Name} (h : x ∈ d.entrants) :
    used { d with entrants := d.entrants.erase x } + x.space = d.used := by
  rw [← used_cons, Multiset.cons_erase h]

theorem used_erase_le {x : Entrant Name} (h : x ∈ d.entrants) :
    used { d with entrants := d.entrants.erase x } ≤ d.used :=
  (Nat.le_add_right _ _).trans_eq (used_erase h)

/-- An event leaves the capacity, and takes what is promised over it only if it was. -/
theorem step_le (hs : d.step e = some d') :
    d'.capacity = d.capacity ∧ d'.used ≤ max d.capacity d.used := by
  have hself : d.capacity = d.capacity ∧ d.used ≤ max d.capacity d.used := ⟨rfl, le_max_right _ _⟩
  have hleft (hcap : d'.capacity = d.capacity) (hle : d'.used ≤ d.used) :
      d'.capacity = d.capacity ∧ d'.used ≤ max d.capacity d.used := ⟨hcap, le_max_of_le_right hle⟩
  cases e with
  | hello space | list names | ask f found | read f file =>
    simp only [step] at hs
    split_ifs at hs
    cases hs
    exact hself
  | reserve n ok =>
    simp only [step] at hs
    split_ifs at hs with hok hroom
    · cases hs
      refine ⟨rfl, le_max_of_le_left ?_⟩
      have hle : d.used + n ≤ d.capacity := by simpa [hroom] using hok
      rw [used_cons]
      exact hle
    · cases hs
      exact hself
  | claim f n ok =>
    simp only [step] at hs
    split_ifs at hs with hok hnew
    · cases hs
      refine hleft rfl (le_of_eq ?_)
      rw [used_cons]
      exact used_erase hok.1
    · cases hs
      exact hself
  | arrive x bs =>
    simp only [step] at hs
    split_ifs at hs with hmem
    cases hs
    refine hleft rfl (le_of_eq ?_)
    rw [used_cons]
    exact used_erase hmem.1
  | drop x =>
    simp only [step] at hs
    split_ifs at hs with hmem
    cases hs
    refine hleft rfl (le_of_eq ?_)
    rw [used_cons]
    exact used_erase hmem
  | giveBack o n =>
    cases o with
    | none =>
      simp only [step] at hs
      split_ifs at hs with hmem
      cases hs
      exact hleft rfl (used_erase_le hmem)
    | some f =>
      simp only [step] at hs
      split_ifs at hs with hmem
      cases hs
      refine hleft rfl ?_
      rw [used_cons]
      exact used_erase_le hmem
  | forget f =>
    simp only [step] at hs
    split_ifs at hs with hmem
    cases hs
    exact hleft rfl (used_erase_le hmem)
  | commit f bs =>
    simp only [step] at hs
    split_ifs at hs with hmem
    cases hs
    refine hleft rfl (le_of_eq ?_)
    have herase := used_erase hmem.1
    have htotal : (d.toStore.put f bs).total = d.total + bs.length := Store.total_put hmem.2
    rw [Store.put] at htotal
    simp only [used] at herase ⊢
    omega
  | del f found =>
    simp only [step] at hs
    split_ifs at hs with hmem
    cases hs
    refine hleft rfl (le_of_eq ?_)
    have htotal := Store.total_remove_add (s := d.toStore) f
    rw [Store.remove] at htotal
    simp only [used, hmem.2.1]
    cases hf : d.files.lookup f with
    | none =>
      rw [hf] at htotal
      exact congrArg (· + (d.entrants.map Entrant.space).sum + 0) htotal
    | some bs =>
      rw [hf, Option.getD_some] at htotal
      simp only [Option.map_some, Option.elim_some, Option.elim_none]
      omega
  | pay =>
    obtain ⟨l, hl, rfl⟩ := Option.map_eq_some_iff.mp hs
    refine hleft rfl ?_
    simp only [used, hl, Option.elim_some]
    omega
  | gone =>
    simp only [step] at hs
    split_ifs at hs
    cases hs
    refine hleft rfl ?_
    simp only [used, Option.elim_none]
    omega

/-- What a depot has promised stays within its capacity, or within what it was at the start if that
was more. -/
theorem run_used_le {es : List (Event Name)} (hr : Transition.run step d es = some d') :
    d'.used ≤ max d.capacity d.used := by
  have h : d'.capacity = d.capacity ∧ d'.used ≤ max d.capacity d.used := by
    refine Transition.run_invariant (P := fun _ _ => True)
      (fun t => t.capacity = d.capacity ∧ t.used ≤ max d.capacity d.used)
      (fun t e t' ht _ hs => ?_) ⟨rfl, le_max_right _ _⟩ hr (Transition.along_true _ _)
    obtain ⟨hcap, hle⟩ := step_le hs
    rw [ht.1] at hcap hle
    exact ⟨hcap, hle.trans (max_le (le_max_left _ _) ht.2)⟩
  exact h.2

end Depot

end Netstore
