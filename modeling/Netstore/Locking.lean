import Netstore.Locks
import Netstore.Storage
import Netstore.FilesList

/-!
# The server's mutexes

`used_space_mutex` and `files_in_storage_mutex` are each taken for a whole function, and given
back when it returns. `locking` is the code of these functions access by access : a
reservation loads the counter before it adds to it, and a files list goes through the set one
name after another, and sends as it goes, with the mutex held. The free space is read with no
mutex at all.

Each of them takes effect as one step, which is the function of the storage
(`locking_linearizable`). The mutexes are never held twice, and no thread waits for ever
(`locking_progress`).
-/

namespace Netstore

namespace Server

open Locks Transition

/-- The two mutexes of the server. -/
inductive Mutex
  | usedSpaceMutex
  | filesInStorageMutex
  deriving DecidableEq

/-- The functions that the handlers share. -/
inductive Call
  | addFileToStorage (filename : Filename)
  | removeFileFromStorage (filename : Filename)
  | isInStorage (filename : Filename)
  | getAvailableSpace
  | checkAndReserveSpace (size : UInt64)
  | freeSpace (size : UInt64)
  | handleFilesListRequest (messageSeq : UInt64) (pattern : Bytes)

/-- What a function returns, or has sent. -/
inductive Answer
  | bool (b : Bool)
  | erased (n : ℕ)
  | space (size : UInt64)
  | sent (datagrams : List Bytes)
  | void

/-- How far a function is. -/
inductive Body
  | begun
  /-- The reservation fits, and is to be added. -/
  | fits
  /-- The walk over the set is at the name, if it has begun. -/
  | walking (last : Option Filename) (p : Packing)
  | done (r : Answer)

namespace Call

/-- The mutex that the function holds. -/
def mutex : Call → Option Mutex
  | addFileToStorage _ | removeFileFromStorage _ | isInStorage _ | handleFilesListRequest _ _ =>
    some .filesInStorageMutex
  | checkAndReserveSpace _ | freeSpace _ => some .usedSpaceMutex
  | getAvailableSpace => none

/-- The local variables when the function has its mutex. -/
def enter : Call → Body
  | handleFilesListRequest messageSeq _ =>
    .walking none ⟨simpleMessage messageSeq filesListResponse [], 0, []⟩
  | _ => .begun

/-- The name after one, in the order of the set, or the first. -/
def next (files : SortedSet Filename) (last : Option Filename) : Option Filename :=
  files.toList.find? fun f => decide (∀ g ∈ last, g < f)

/-- One access to the counter or to the set. -/
def access : Call → Body → Server → Body × Server
  | addFileToStorage filename, _, s =>
    let (inserted, s) := s.addFileToStorage filename
    (.done (.bool inserted), s)
  | removeFileFromStorage filename, _, s =>
    let (n, s) := s.removeFileFromStorage filename
    (.done (.erased n), s)
  | isInStorage filename, _, s => (.done (.bool (s.isInStorage filename)), s)
  | getAvailableSpace, _, s => (.done (.space s.getAvailableSpace), s)
  | checkAndReserveSpace size, .fits, s =>
    (.done (.bool true), { s with usedSpace := s.usedSpace + size })
  | checkAndReserveSpace size, _, s =>
    if size > s.maxAvailableSpace ∨ s.usedSpace > s.maxAvailableSpace - size then
      (.done (.bool false), s)
    else (.fits, s)
  | freeSpace size, _, s => (.done .void, s.freeSpace size)
  | handleFilesListRequest _ pattern, .walking last p, s =>
    match next s.filesInStorage last with
    | some filename => (.walking (some filename) (addFilename pattern p filename), s)
    | none =>
      (.done (.sent (if p.currDataLen > 0 then p.sent ++ trySendMessage p.message p.currDataLen
        else p.sent)), s)
  | handleFilesListRequest _ _, _, s => (.done (.sent []), s)

end Call

/-- What the function returns or has sent, at its end. -/
def Body.result : Body → Option Answer
  | .done r => some r
  | _ => none

/-- The functions as they run beside each other. -/
def locking : Code Mutex Call Answer Body Server :=
  ⟨Call.mutex, Call.enter, Call.access, Body.result⟩

/-- The functions in one step. -/
def call : Call → Server → Answer × Server
  | .addFileToStorage filename, s =>
    let (inserted, s) := s.addFileToStorage filename
    (.bool inserted, s)
  | .removeFileFromStorage filename, s =>
    let (n, s) := s.removeFileFromStorage filename
    (.erased n, s)
  | .isInStorage filename, s => (.bool (s.isInStorage filename), s)
  | .getAvailableSpace, s => (.space s.getAvailableSpace, s)
  | .checkAndReserveSpace size, s =>
    let (reserved, s) := s.checkAndReserveSpace size
    (.bool reserved, s)
  | .freeSpace size, s => (.void, s.freeSpace size)
  | .handleFilesListRequest messageSeq pattern, s =>
    (.sent (Netstore.handleFilesListRequest s.filesInStorage messageSeq pattern), s)

/-! ## The functions on their own -/

/-- The names up to the one that the walk is at. -/
def walked (files : SortedSet Filename) (last : Option Filename) : List Filename :=
  files.toList.filter fun f => decide (∃ g ∈ last, f ≤ g)

/-- What a function knows of the counter and the set while it holds its mutex. -/
def Knows : Call → Body → Server → Prop
  | .checkAndReserveSpace size, .fits, s =>
    ¬(size > s.maxAvailableSpace ∨ s.usedSpace > s.maxAvailableSpace - size)
  | .checkAndReserveSpace _, .begun, _ => True
  | .handleFilesListRequest messageSeq pattern, .walking last p, s =>
    p = (walked s.filesInStorage last).foldl (addFilename pattern)
      ⟨simpleMessage messageSeq filesListResponse [], 0, []⟩
  | .handleFilesListRequest _ _, _, _ => False
  | _, .begun, _ => True
  | _, _, _ => False

/-- The accesses before the last. -/
def toRead : Call → Body → Server → ℕ
  | .checkAndReserveSpace _, .begun, _ => 1
  | .handleFilesListRequest _ _, .walking last _, s =>
    s.filesInStorage.toList.length - (walked s.filesInStorage last).length
  | _, _, _ => 0

section Walk

variable {files : SortedSet Filename} {last : Option Filename} {f : Filename}

/-- The walk is at a name : what comes before it has been walked, and it is next. -/
theorem split_of_next (h : Call.next files last = some f) :
    ∃ before after, files.toList = before ++ f :: after ∧ walked files last = before ∧
      walked files (some f) = before ++ [f] := by
  obtain ⟨hf, before, after, hfiles, hbefore⟩ := List.find?_eq_some_iff_append.mp h
  have hlast : ∀ g ∈ last, g < f := by simpa using hf
  have hsorted := files.sorted
  rw [hfiles, List.pairwise_append, List.pairwise_cons] at hsorted
  obtain ⟨-, ⟨hafter, -⟩, hlt⟩ := hsorted
  refine ⟨before, after, hfiles, ?_, ?_⟩
  · rw [walked, hfiles, List.filter_append, List.filter_eq_self.mpr, List.filter_eq_nil_iff.mpr,
      List.append_nil]
    · intro g hg
      -- `f` and what follows it are above all that was walked
      have hle : f ≤ g := by
        rcases List.mem_cons.mp hg with rfl | hg
        · exact le_rfl
        · exact (hafter g hg).le
      simpa using fun k hk => (hlast k hk).trans_le hle
    · intro g hg
      simpa using hbefore g hg
  · rw [walked, hfiles, List.filter_append, List.filter_cons, List.filter_eq_self.mpr,
      List.filter_eq_nil_iff.mpr]
    · simp
    · intro g hg
      simpa using hafter g hg
    · intro g hg
      simpa using (hlt g hg f (List.mem_cons_self ..)).le

theorem walked_of_next (h : Call.next files last = some f) :
    walked files (some f) = walked files last ++ [f] := by
  obtain ⟨before, after, -, hlast, hf⟩ := split_of_next h
  rw [hlast, hf]

theorem walked_of_end (h : Call.next files last = none) : walked files last = files.toList := by
  refine List.filter_eq_self.mpr fun g hg => ?_
  simpa using List.find?_eq_none.mp h g hg

theorem walked_none : walked files none = [] := by
  simp [walked]

end Walk

/-- The counter is changed under its mutex only. -/
theorem counter_of_apart {op : Call} (s : Server) (h : op.mutex ≠ some .usedSpaceMutex) :
    (call op s).2.maxAvailableSpace = s.maxAvailableSpace ∧
      (call op s).2.usedSpace = s.usedSpace := by
  cases op with
  | checkAndReserveSpace size => exact (h rfl).elim
  | freeSpace size => exact (h rfl).elim
  | _ => exact ⟨rfl, rfl⟩

/-- The set is changed under its mutex only. -/
theorem files_of_apart {op : Call} (s : Server) (h : op.mutex ≠ some .filesInStorageMutex) :
    (call op s).2.filesInStorage = s.filesInStorage := by
  cases op with
  | addFileToStorage filename => exact (h rfl).elim
  | removeFileFromStorage filename => exact (h rfl).elim
  | checkAndReserveSpace size =>
    simp only [call, checkAndReserveSpace]
    split_ifs <;> rfl
  | _ => rfl

/-- Each function does what it does in one step. -/
theorem correct_locking : Correct locking call Knows toRead where
  result_enter op := by cases op <;> rfl
  holds_enter op s := by
    cases op <;> simp [locking, Call.enter, Knows, walked_none]
  reads op l s hl hs hl' := by
    cases op with
    | checkAndReserveSpace size =>
      cases l with
      | begun =>
        simp only [locking, Call.access] at hl' ⊢
        split_ifs at hl' ⊢ with h
        · cases hl'
        · exact ⟨rfl, h, Nat.zero_lt_one⟩
      | fits => cases hl'
      | walking last p => cases hs
      | done r => cases hs
    | handleFilesListRequest messageSeq pattern =>
      cases l with
      | walking last p =>
        simp only [locking, Call.access] at hl' ⊢
        cases hn : Call.next s.filesInStorage last with
        | none =>
          rw [hn] at hl'
          cases hl'
        | some f =>
          obtain ⟨before, after, hfiles, hlast, hf⟩ := split_of_next hn
          refine ⟨rfl, ?_, ?_⟩
          · simp only [Knows] at hs ⊢
            rw [walked_of_next hn, List.foldl_concat, ← hs]
          · simp only [toRead, hfiles, hlast, hf, List.length_append, List.length_cons,
              List.length_nil]
            omega
      | begun => cases hs
      | fits => cases hs
      | done r => cases hs
    | _ => cases hl'
  commits op l s r hl hs hr := by
    cases op with
    | checkAndReserveSpace size =>
      cases l with
      | begun =>
        simp only [locking, Call.access] at hr ⊢
        split_ifs at hr ⊢ with h
        · cases hr
          simp [call, checkAndReserveSpace, h]
        · cases hr
      | fits =>
        cases hr
        simp only [call, checkAndReserveSpace, if_neg hs]
        rfl
      | walking last p => cases hs
      | done r => cases hs
    | handleFilesListRequest messageSeq pattern =>
      cases l with
      | walking last p =>
        simp only [locking, Call.access] at hr ⊢
        cases hn : Call.next s.filesInStorage last with
        | none =>
          rw [hn] at hr
          simp only [Knows, walked_of_end hn] at hs
          cases hr
          simp only [call, Netstore.handleFilesListRequest, hs]
        | some f =>
          rw [hn] at hr
          cases hr
      | begun => cases hs
      | fits => cases hs
      | done r => cases hs
    | _ =>
      cases hr
      rfl
  stable op l op' s hap hs := by
    cases op with
    | checkAndReserveSpace size =>
      obtain ⟨hmax, hused⟩ := counter_of_apart s (hap _ rfl)
      cases l with
      | begun => exact ⟨trivial, rfl⟩
      | fits =>
        simp only [Knows] at hs ⊢
        rw [hmax, hused]
        exact ⟨hs, rfl⟩
      | walking last p => cases hs
      | done r => cases hs
    | handleFilesListRequest messageSeq pattern =>
      have hfiles := files_of_apart s (hap _ rfl)
      cases l with
      | walking last p =>
        simp only [Knows, toRead] at hs ⊢
        rw [hfiles]
        exact ⟨hs, rfl⟩
      | begun => cases hs
      | fits => cases hs
      | done r => cases hs
    | _ =>
      cases l with
      | begun => exact ⟨trivial, rfl⟩
      | fits => cases hs
      | walking last p => cases hs
      | done r => cases hs

/-! ## The functions beside each other -/

/-- However the threads take turns, the functions return and send what they do in some order
of whole functions, each between its call and its return; the counter and the set are what
they make of them in this order. -/
theorem locking_linearizable {server : Server} {n : ℕ} {as : List (Locks.Action Call)}
    {s : Locks.State Mutex Call Body Server}
    (hr : run locking.step (Code.start server n) as = some s) :
    ∃ bs, run (Atomic.step call) (Atomic.start server n) bs = some (locking.abstract s) ∧
      (trace (Atomic.step call) Atomic.events (Atomic.start server n) bs).flatten =
        (trace locking.step locking.events (Code.start server n) as).flatten :=
  linearizable correct_locking hr

/-- A reservation and a reader of the counter, which comes between the two accesses. -/
theorem locking_linearizable_between : ∃ s bs,
    run locking.step (Code.start ⟨10, 3, .empty, .empty⟩ 2)
      [.call 0 (.checkAndReserveSpace 6), .call 1 .getAvailableSpace, .acquire 0, .access 0,
        .acquire 1, .access 1, .access 0, .leave 0, .leave 1] = some s ∧
    run (Atomic.step call) (Atomic.start ⟨10, 3, .empty, .empty⟩ 2) bs =
      some (locking.abstract s) :=
  have h : run locking.step (Code.start ⟨10, 3, .empty, .empty⟩ 2)
      [.call 0 (.checkAndReserveSpace 6), .call 1 .getAvailableSpace, .acquire 0, .access 0,
        .acquire 1, .access 1, .access 0, .leave 0, .leave 1] = some _ := rfl
  ⟨_, (locking_linearizable h).choose, h, (locking_linearizable h).choose_spec.1⟩

/-- The names that a files list has still to look at, and one access more, or the two of a
reservation. -/
def accessesLeft (files : SortedSet Filename) : Body → ℕ
  | .begun => 2
  | .fits => 1
  | .walking last _ => files.toList.length - (walked files last).length + 1
  | .done _ => 0

/-- What the mutexes give. -/
structure WellLocked (s : Locks.State Mutex Call Body Server) : Prop where
  /-- Nothing touches the set while another thread is in a function that goes through it,
  and no reservation or release comes between the accesses of another. -/
  exclusive : ∀ (i j : ℕ) op op' l l' m, i ≠ j → s.threads[i]? = some (.inside op l) →
    s.threads[j]? = some (.inside op' l') → op.mutex = some m → op'.mutex ≠ some m
  /-- All that was called can return, without a further call. -/
  ends : ∃ as s', (∀ a ∈ as, a.Begun) ∧ run locking.step s as = some s' ∧
    ∀ p ∈ s'.threads, p.isIdle
  /-- A function returns after so many accesses, whatever the other threads do. -/
  bounded : ∀ (i : ℕ) op l as s', s.threads[i]? = some (.inside op l) →
    run locking.step s as = some s' → (∀ a ∈ as, a.isLeave i = false) →
      as.countP (Locks.Action.isAccess i) ≤ accessesLeft s.shared.filesInStorage l

theorem left_le (op : Call) (l : Body) (s : Server) :
    locking.left toRead s (.inside op l) ≤ accessesLeft s.filesInStorage l := by
  cases l with
  | done r => exact Nat.zero_le _
  | begun => cases op <;> simp [Code.left, locking, Body.result, toRead, accessesLeft]
  | fits => cases op <;> simp [Code.left, locking, Body.result, toRead, accessesLeft]
  | walking last p => cases op <;> simp [Code.left, locking, Body.result, toRead, accessesLeft]

/-- No thread waits for ever for a mutex, and none is in another's way. -/
theorem locking_progress {server : Server} {n : ℕ} {as : List (Locks.Action Call)}
    {s : Locks.State Mutex Call Body Server}
    (hr : run locking.step (Code.start server n) as = some s) : WellLocked s where
  exclusive _ _ _ _ _ _ m hne hi hj hm := apart_of_run correct_locking hr hne hi hj m hm
  ends := (good_of_run correct_locking hr).exists_run_to_idle correct_locking
  bounded _ op l _ _ hi hr' has :=
    ((good_of_run correct_locking hr).countP_access_le correct_locking hi hr' has).trans
      (left_le op l s.shared)

/-- Two functions under one mutex, one inside and one that waits. -/
theorem locking_progress_waiting : ∃ s, run locking.step (Code.start ⟨10, 3, .empty, .empty⟩ 2)
    [.call 0 (.checkAndReserveSpace 6), .call 1 (.freeSpace 2), .acquire 0, .access 0] = some s ∧
    WellLocked s :=
  have h : run locking.step (Code.start ⟨10, 3, .empty, .empty⟩ 2)
      [.call 0 (.checkAndReserveSpace 6), .call 1 (.freeSpace 2), .acquire 0, .access 0] =
        some _ := rfl
  ⟨_, h, locking_progress h⟩

end Server

end Netstore
