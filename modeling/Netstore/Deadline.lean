import Mathlib.Data.Rat.Floor
import Mathlib.Algebra.Order.Monoid.WithTop
import Netstore.Reports

/-!
# Deadlines

The client waits for answers in five loops of one shape : as long as the time is not
over, set the timeout of the socket to what is left of it and receive
(`ReceiveLoop.step`). What is left is computed as a `Timeval`, its seconds with a ceiling
and its microseconds as what the elapsed ones lack of a second (`elapsedTimeval`).

The two fit together away from the whole seconds only : there the microseconds are a
second, `setsockopt` refuses them, and the loop turns without receiving
(`isRemaining_iff`, `step_of_whole_second`). A timeout that is taken and blocks ends at
the deadline, whatever the clock shows, so no receive lasts longer (`untilDeadline_of_run`).
-/

namespace Netstore

open Transition

/-! ## Timeouts -/

/-- `struct timeval`. -/
structure Timeval where
  tvSec : ℤ
  tvUsec : ℤ
  deriving DecidableEq

/-- The microseconds of a second. -/
def usecPerSec : ℕ := 1000000

/-- Is the time over? The clock shows nanoseconds, and the quotient is exact. -/
def isTimeout (startTime currTime : ℕ) (timeout : UInt16) : Bool :=
  ((currTime - startTime : ℕ) : ℚ) / 1000000000 ≥ timeout.toNat

/-- What is computed of the elapsed microseconds. -/
def elapsedTimeval (microsecondsPassed : ℕ) (totalTime : UInt16) : Timeval where
  tvSec := totalTime.toNat - ⌈(microsecondsPassed : ℚ) / usecPerSec⌉
  tvUsec := usecPerSec - (microsecondsPassed % usecPerSec : ℕ)

/-- The elapsed time in whole microseconds. -/
def microsecondsPassed (startTime currTime : ℕ) : ℕ :=
  (currTime - startTime) / 1000

/-- `get_elapsed_time_timeval`, with the clock at both ends. -/
def getElapsedTimeTimeval (startTime currTime : ℕ) (totalTime : UInt16) : Timeval :=
  elapsedTimeval (microsecondsPassed startTime currTime) totalTime

/-- The microseconds that a receive blocks once `setsockopt` has set `SO_RCVTIMEO`, `⊤` if it
blocks for ever. A timeout with microseconds out of range is refused, a negative one
does not block. -/
def setTimeout (timeval : Timeval) : Option (WithTop ℕ) :=
  if timeval.tvUsec < 0 ∨ usecPerSec ≤ timeval.tvUsec then none
  else if timeval.tvSec < 0 then some 0
  else if timeval = ⟨0, 0⟩ then some ⊤
  else some (timeval.tvSec * usecPerSec + timeval.tvUsec).toNat

/-- The timeout is valid, not that of a wait for ever, and what is left. -/
structure Timeval.IsRemaining (timeval : Timeval) (remaining : ℤ) : Prop where
  sec_nonneg : 0 ≤ timeval.tvSec
  usec_nonneg : 0 ≤ timeval.tvUsec
  usec_lt : timeval.tvUsec < usecPerSec
  ne_zero : timeval ≠ ⟨0, 0⟩
  total : timeval.tvSec * usecPerSec + timeval.tvUsec = remaining

section Timeouts

variable {us q r : ℕ} {timeout : UInt16}

/-- The time is over once the whole microseconds are. -/
theorem isTimeout_iff {startTime currTime : ℕ} : isTimeout startTime currTime timeout ↔
    timeout.toNat * usecPerSec ≤ microsecondsPassed startTime currTime := by
  have hcast : (timeout.toNat : ℚ) * 1000000000 = ((timeout.toNat * 1000000000 : ℕ) : ℚ) := by
    norm_num
  rw [isTimeout, decide_eq_true_eq, ge_iff_le, le_div_iff₀ (by norm_num), hcast, Nat.cast_le,
    microsecondsPassed, usecPerSec]
  omega

/-- At a whole second the ceiling is the quotient. -/
theorem elapsedTimeval_mul (q : ℕ) (timeout : UInt16) :
    elapsedTimeval (q * usecPerSec) timeout = ⟨timeout.toNat - q, usecPerSec⟩ := by
  have hceil : ⌈((q * usecPerSec : ℕ) : ℚ) / usecPerSec⌉ = q := by
    rw [Rat.ceil_natCast_div_natCast, Nat.cast_mul, ← neg_mul,
      Int.mul_ediv_cancel _ (by decide), neg_neg]
  rw [elapsedTimeval, hceil, Nat.mul_mod_left, Nat.cast_zero, sub_zero]

/-- Between whole seconds it is one more. -/
theorem elapsedTimeval_mul_add (hr : r < usecPerSec) (h0 : r ≠ 0) (timeout : UInt16) :
    elapsedTimeval (q * usecPerSec + r) timeout =
      ⟨timeout.toNat - (q + 1), usecPerSec - r⟩ := by
  have hceil : ⌈((q * usecPerSec + r : ℕ) : ℚ) / usecPerSec⌉ = q + 1 := by
    rw [Rat.ceil_natCast_div_natCast]
    simp only [usecPerSec] at hr ⊢
    push_cast
    omega
  have hmod : (q * usecPerSec + r) % usecPerSec = r := by
    rw [Nat.mul_add_mod', Nat.mod_eq_of_lt hr]
  rw [elapsedTimeval, hceil, hmod]

/-- Seconds and microseconds of an elapsed time. -/
theorem exists_eq_mul_add (us : ℕ) : ∃ q r, r < usecPerSec ∧ us = q * usecPerSec + r :=
  ⟨us / usecPerSec, us % usecPerSec, Nat.mod_lt _ (by decide), (Nat.div_add_mod' ..).symm⟩

theorem dvd_mul_add_iff (hr : r < usecPerSec) : usecPerSec ∣ q * usecPerSec + r ↔ r = 0 := by
  rw [Nat.dvd_add_right (Nat.dvd_mul_left ..), Nat.dvd_iff_mod_eq_zero, Nat.mod_eq_of_lt hr]

/-- What is computed is what is left, except at the whole seconds. -/
theorem isRemaining_iff (hus : us < timeout.toNat * usecPerSec) :
    (elapsedTimeval us timeout).IsRemaining (timeout.toNat * usecPerSec - us) ↔
      ¬usecPerSec ∣ us := by
  obtain ⟨q, r, hr, rfl⟩ := exists_eq_mul_add us
  rw [dvd_mul_add_iff hr]
  constructor
  · rintro h rfl
    have hlt := h.usec_lt
    rw [Nat.add_zero, elapsedTimeval_mul] at hlt
    exact lt_irrefl _ hlt
  · intro h0
    rw [elapsedTimeval_mul_add hr h0]
    have hus' : q * 1000000 + r < timeout.toNat * 1000000 := hus
    have hr' : r < 1000000 := hr
    have hsec : q + 1 ≤ timeout.toNat := by omega
    have hpos : 0 < (1000000 : ℤ) - r := by omega
    exact
      { sec_nonneg := by
          dsimp only
          omega
        usec_nonneg := hpos.le
        usec_lt := by
          simp only [usecPerSec]
          omega
        ne_zero := fun h => hpos.ne' (congrArg Timeval.tvUsec h)
        total := by
          simp only [usecPerSec]
          push_cast
          ring }

/-- A timeout that is taken and blocks ends at the deadline. -/
theorem add_wait_eq {wait : WithTop ℕ} (h : setTimeout (elapsedTimeval us timeout) = some wait)
    (hwait : wait ≠ 0) : us + wait = ((timeout.toNat * usecPerSec : ℕ) : WithTop ℕ) := by
  obtain ⟨q, r, hr, rfl⟩ := exists_eq_mul_add us
  have hr' : r < 1000000 := hr
  by_cases h0 : r = 0
  · rw [h0, Nat.add_zero, elapsedTimeval_mul, setTimeout, if_pos (Or.inr le_rfl)] at h
    cases h
  · have hpos : 0 < (1000000 : ℤ) - r := by omega
    rw [elapsedTimeval_mul_add hr h0, setTimeout] at h
    split_ifs at h with husec hsec hzero
    · exact (hwait (Option.some.inj h).symm).elim
    · exact (hpos.ne' (congrArg Timeval.tvUsec hzero)).elim
    · dsimp only at hsec
      have hnat : q * usecPerSec + r +
          ((timeout.toNat - (q + 1) : ℤ) * usecPerSec + (usecPerSec - r)).toNat =
            timeout.toNat * usecPerSec := by
        simp only [usecPerSec]
        omega
      rw [← Option.some.inj h, ← Nat.cast_add, hnat]

end Timeouts

/-! ## The loops -/

/-- A loop that receives until its deadline, with what it expects. -/
inductive ReceiveLoop where
  | receiveDiscoverResponse (expectedMessageSeq : UInt64)
  | silentDiscoverReceive (expectedMessageSeq : UInt64)
  | receiveSearchRespond (expectedMessageSeq : UInt64)
  | receiveFetchFileResponse (expectedMessageSeq : UInt64) (expectedFilename : Bytes)
  | receiveUploadFileResponse (expectedMessageSeq : UInt64) (expectedFilename : Bytes)

/-- Where a receiving loop of the client stands. -/
inductive ReceivePc where
  /-- `while (!is_timeout(start_time, timeout))` -/
  | testing
  /-- `sock.set_timeout(get_elapsed_time_timeval(start_time, timeout))` -/
  | setting
  /-- The receive, the clock when its timeout was computed, and how long it may block. -/
  | receiving (readAt : ℕ) (wait : WithTop ℕ)
  | timedOut
  | returned
  deriving DecidableEq

/-- A loop and the last reading of the clock. -/
structure Receiving where
  pc : ReceivePc
  currTime : ℕ
  deriving DecidableEq

/-- A call of the loop with its answer. -/
inductive ReceiveCall where
  | isTimeout (currTime : ℕ)
  | setTimeout (currTime : ℕ) (failed : Bool)
  /-- A datagram, or none if the receive throws, as it does when it has blocked long enough. -/
  | recvfrom (payload : Option Bytes)
  deriving DecidableEq

/-- What the call has received. -/
def ReceiveCall.payload : ReceiveCall → Option Bytes
  | recvfrom payload => payload
  | _ => none

namespace ReceiveLoop

/-- Does the loop return on this datagram? Those that collect answers never do. -/
def returns (payload : Bytes) : ReceiveLoop → Bool
  | receiveDiscoverResponse _ | silentDiscoverReceive _ | receiveSearchRespond _ => false
  | receiveFetchFileResponse expectedMessageSeq expectedFilename =>
    let (message, messageLength) := Netstore.recvfrom payload
    (complexMessageValidation message expectedMessageSeq fileGetResponse messageLength
      expectedFilename).isOk
  | receiveUploadFileResponse expectedMessageSeq expectedFilename =>
    (Netstore.receiveUploadFileResponse expectedMessageSeq expectedFilename payload).isSome

/-- One call of a loop that began at `startTime`. The clock never goes back. -/
def step (loop : ReceiveLoop) (timeout : UInt16) (startTime : ℕ) (s : Receiving) :
    ReceiveCall → Option Receiving
  | .isTimeout currTime =>
    if s.pc = .testing ∧ s.currTime ≤ currTime then
      some ⟨if Netstore.isTimeout startTime currTime timeout then .timedOut else .setting,
        currTime⟩
    else none
  | .setTimeout currTime failed =>
    if s.pc = .setting ∧ s.currTime ≤ currTime then
      match Netstore.setTimeout (getElapsedTimeTimeval startTime currTime timeout), failed with
      | some wait, false => some ⟨.receiving currTime wait, currTime⟩
      -- the exception is taken for a timeout
      | _, _ => some ⟨.testing, currTime⟩
    else none
  | .recvfrom payload =>
    match s.pc with
    | .receiving _ _ =>
      some ⟨if payload.any loop.returns then .returned else .testing, s.currTime⟩
    | _ => none

section Runs

variable {loop : ReceiveLoop} {timeout : UInt16} {startTime : ℕ} {s s' : Receiving}
  {call : ReceiveCall} {calls : List ReceiveCall}

/-- What a call does. -/
inductive Step (loop : ReceiveLoop) (timeout : UInt16) (startTime : ℕ) (s : Receiving) :
    ReceiveCall → Receiving → Prop
  | timedOut {currTime : ℕ} (before : s.pc = .testing) (clock : s.currTime ≤ currTime)
      (ended : Netstore.isTimeout startTime currTime timeout) :
      Step loop timeout startTime s (.isTimeout currTime) ⟨.timedOut, currTime⟩
  | goOn {currTime : ℕ} (before : s.pc = .testing) (clock : s.currTime ≤ currTime)
      (left : ¬Netstore.isTimeout startTime currTime timeout) :
      Step loop timeout startTime s (.isTimeout currTime) ⟨.setting, currTime⟩
  | set {currTime : ℕ} {wait : WithTop ℕ} (before : s.pc = .setting)
      (clock : s.currTime ≤ currTime)
      (taken : Netstore.setTimeout (getElapsedTimeTimeval startTime currTime timeout) = some wait) :
      Step loop timeout startTime s (.setTimeout currTime false)
        ⟨.receiving currTime wait, currTime⟩
  | notSet {currTime : ℕ} {failed : Bool} (before : s.pc = .setting)
      (clock : s.currTime ≤ currTime)
      (refused : failed = false →
        Netstore.setTimeout (getElapsedTimeTimeval startTime currTime timeout) = none) :
      Step loop timeout startTime s (.setTimeout currTime failed) ⟨.testing, currTime⟩
  | returned {readAt : ℕ} {wait : WithTop ℕ} {payload : Bytes}
      (before : s.pc = .receiving readAt wait) (answer : loop.returns payload) :
      Step loop timeout startTime s (.recvfrom (some payload)) ⟨.returned, s.currTime⟩
  | received {readAt : ℕ} {wait : WithTop ℕ} {payload : Option Bytes}
      (before : s.pc = .receiving readAt wait) (other : ∀ p ∈ payload, ¬loop.returns p) :
      Step loop timeout startTime s (.recvfrom payload) ⟨.testing, s.currTime⟩

theorem step_cases (h : loop.step timeout startTime s call = some s') :
    Step loop timeout startTime s call s' := by
  cases call with
  | isTimeout currTime =>
    simp only [step] at h
    split_ifs at h with hpc hover
    · obtain rfl := Option.some.inj h
      exact .timedOut hpc.1 hpc.2 hover
    · obtain rfl := Option.some.inj h
      exact .goOn hpc.1 hpc.2 hover
  | setTimeout currTime failed =>
    simp only [step] at h
    split_ifs at h with hpc
    split at h
    next wait htaken =>
      obtain rfl := Option.some.inj h
      exact .set hpc.1 hpc.2 htaken
    next hno =>
      obtain rfl := Option.some.inj h
      refine .notSet hpc.1 hpc.2 fun hfailed => ?_
      subst hfailed
      exact Option.eq_none_iff_forall_ne_some.mpr fun wait hwait => hno wait hwait rfl
  | recvfrom payload =>
    simp only [step] at h
    split at h
    next readAt wait hpc =>
      obtain rfl := Option.some.inj h
      cases payload with
      | none => exact .received hpc (by simp)
      | some p =>
        by_cases hp : loop.returns p
        · simpa [hp] using Step.returned hpc hp
        · have hother : ∀ p' ∈ some p, ¬loop.returns p' := by simpa using hp
          simpa [hp] using Step.received hpc hother
    next => cases h

/-! ### What is received -/

/-- The datagrams that the calls receive. -/
def received (calls : List ReceiveCall) : List Bytes :=
  calls.filterMap ReceiveCall.payload

theorem received_concat (calls : List ReceiveCall) (call : ReceiveCall) :
    received (calls ++ [call]) = received calls ++ call.payload.toList := by
  cases h : call.payload <;> simp [received, h]

/-- A loop returns on the first datagram that lets it return. -/
theorem find?_received
    (hr : run (loop.step timeout startTime) ⟨.testing, startTime⟩ calls = some s) :
    (received calls).find? loop.returns =
      if s.pc = .returned then (received calls).getLast? else none := by
  refine run_induction_all (fun calls s => (received calls).find? loop.returns =
    if s.pc = .returned then (received calls).getLast? else none) rfl ?_ hr
  intro calls s call s' _ ih hstep
  rw [received_concat, List.find?_append]
  cases step_cases hstep with
  | timedOut before | goOn before | set before | notSet before =>
    rw [if_neg (by simp [before])] at ih
    simp [ih, ReceiveCall.payload]
  | returned before answer =>
    rw [if_neg (by simp [before])] at ih
    simp [ih, ReceiveCall.payload, answer]
  | received before other =>
    rw [if_neg (by simp [before])] at ih
    simpa [ih, ReceiveCall.payload] using other

/-- The fetch gets the port of that datagram, and none after the deadline. -/
theorem receiveFetchFileResponse_of_run {c : FetchCommand}
    (hr : run ((receiveFetchFileResponse c.messageSeq c.filename).step timeout startTime)
      ⟨.testing, startTime⟩ calls = some s)
    (hreceived : c.received.map Datagram.payload = received calls) :
    Netstore.receiveFetchFileResponse c.messageSeq c.filename c.received =
      if s.pc = .returned then
        (received calls).getLast?.elim 0 fun payload =>
          (Netstore.recvfrom payload).1.param.toUInt16
      else 0 := by
  have hfind := find?_received hr
  rw [← hreceived, List.find?_map] at hfind
  have hport : (c.received.find? c.isReply).elim 0
      (fun d => (Netstore.recvfrom d.payload).1.param.toUInt16) =
        ((c.received.find? c.isReply).map Datagram.payload).elim 0
          fun payload => (Netstore.recvfrom payload).1.param.toUInt16 := by
    cases c.received.find? c.isReply <;> rfl
  rw [FetchCommand.receiveFetchFileResponse_eq, hport, ← hreceived]
  refine (congrArg (Option.elim · 0 _) hfind).trans ?_
  split_ifs <;> rfl

/-! ### The deadline -/

/-- A receive that blocks ends at the deadline. -/
def UntilDeadline (timeout : UInt16) (startTime : ℕ) (s : Receiving) : Prop :=
  ∀ readAt wait, s.pc = .receiving readAt wait → wait ≠ 0 →
    microsecondsPassed startTime readAt + wait = ((timeout.toNat * usecPerSec : ℕ) : WithTop ℕ)

theorem untilDeadline_step (h : loop.step timeout startTime s call = some s') :
    UntilDeadline timeout startTime s' := by
  intro readAt wait hpc hwait
  cases step_cases h with
  | @set currTime wait' before clock taken =>
    obtain ⟨rfl, rfl⟩ := ReceivePc.receiving.inj hpc
    exact add_wait_eq taken hwait
  | timedOut | goOn | notSet | returned | received => cases hpc

/-- However the clock goes on, no receive of a loop blocks beyond the deadline. -/
theorem untilDeadline_of_run
    (hr : run (loop.step timeout startTime) ⟨.testing, startTime⟩ calls = some s) :
    UntilDeadline timeout startTime s :=
  run_induction_all (fun _ => UntilDeadline timeout startTime) (fun _ _ h => by cases h)
    (fun _ _ _ _ _ _ hstep => untilDeadline_step hstep) hr

/-- After such a receive the time is over. -/
theorem isTimeout_of_untilDeadline {readAt wait currTime : ℕ}
    (h : UntilDeadline timeout startTime ⟨.receiving readAt wait, readAt⟩) (hwait : wait ≠ 0)
    (hread : startTime ≤ readAt) (hblocked : readAt + wait * 1000 ≤ currTime) :
    isTimeout startTime currTime timeout := by
  have hend := h readAt wait rfl (by exact_mod_cast hwait)
  have hend' : microsecondsPassed startTime readAt + wait = timeout.toNat * usecPerSec := by
    exact_mod_cast hend
  rw [isTimeout_iff, ← hend', microsecondsPassed, microsecondsPassed]
  omega

/-- At a whole second the loop turns without a receive. -/
theorem step_of_whole_second {currTime : ℕ} (hpc : s.pc = .setting) (hclock : s.currTime ≤ currTime)
    (hwhole : usecPerSec ∣ microsecondsPassed startTime currTime) (failed : Bool) :
    loop.step timeout startTime s (.setTimeout currTime failed) = some ⟨.testing, currTime⟩ := by
  obtain ⟨q, hq⟩ := hwhole
  have hrefused :
      Netstore.setTimeout (getElapsedTimeTimeval startTime currTime timeout) = none := by
    rw [getElapsedTimeTimeval, hq, Nat.mul_comm, elapsedTimeval_mul, setTimeout,
      if_pos (Or.inr le_rfl)]
  simp [step, hpc, hclock, hrefused]

end Runs

end ReceiveLoop

/-- Before the deadline, the timeout is what is left exactly if the elapsed time is not a whole
number of seconds; no receive of a loop blocks beyond the deadline. -/
theorem waits_until_deadline_iff (timeout : UInt16) (us : ℕ)
    (hus : us < timeout.toNat * usecPerSec) :
    ((elapsedTimeval us timeout).IsRemaining (timeout.toNat * usecPerSec - us) ↔
        ¬usecPerSec ∣ us) ∧
      ∀ (loop : ReceiveLoop) (startTime : ℕ) (calls : List ReceiveCall) (s : Receiving),
        run (loop.step timeout startTime) ⟨.testing, startTime⟩ calls = some s →
          ReceiveLoop.UntilDeadline timeout startTime s :=
  ⟨isRemaining_iff hus, fun _ _ _ _ hr => ReceiveLoop.untilDeadline_of_run hr⟩

theorem quarterSecond_waits :
    ((elapsedTimeval 250000 1).IsRemaining ((1 : UInt16).toNat * usecPerSec - (250000 : ℕ)) ↔
        ¬usecPerSec ∣ 250000) ∧
      ∀ (loop : ReceiveLoop) (startTime : ℕ) (calls : List ReceiveCall) (s : Receiving),
        run (loop.step 1 startTime) ⟨.testing, startTime⟩ calls = some s →
          ReceiveLoop.UntilDeadline 1 startTime s :=
  waits_until_deadline_iff 1 250000 (by decide)

/-- A loop that begins has a whole second left, and microseconds that are refused. -/
theorem begin_not_remaining : 0 < (1 : UInt16).toNat * usecPerSec ∧
    elapsedTimeval 0 1 = ⟨1, 1000000⟩ ∧
    setTimeout (elapsedTimeval 0 1) = none ∧
    ¬(elapsedTimeval 0 1).IsRemaining ((1 : UInt16).toNat * usecPerSec - (0 : ℕ)) ∧
    run ((ReceiveLoop.silentDiscoverReceive 1).step 1 0) ⟨.testing, 0⟩
      [.isTimeout 200, .setTimeout 400 false, .isTimeout 600, .setTimeout 800 false] =
        some ⟨.testing, 800⟩ := by
  have h0 : elapsedTimeval 0 1 = ⟨1, 1000000⟩ := elapsedTimeval_mul 0 1
  refine ⟨by decide, h0, ?_, ?_, by decide +kernel⟩
  · rw [h0]
    rfl
  · rw [h0]
    exact fun h => absurd h.usec_lt (by decide)

end Netstore
