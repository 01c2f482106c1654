import Mathlib.Data.UInt
import Netstore.Ownership
import Netstore.Transition

/-!
# Descriptors

A socket object is its descriptor, its port and whether it is closed, and its destructor
closes the descriptor unless it is. A default-constructed `tcp_socket` has whatever was in its
memory, a `udp_socket` zeros, so what an object closes depends on which calls have set its
fields. `step` is one operation on the objects with the answers of its system calls, and logs
what is obtained, moved and closed.

Every descriptor is closed once, and nothing else is, in the runs that keep clear of four
branches (`Careful`) and in no others (`descriptors_closed_once_iff`) :

* a socket is created in an object that holds a descriptor already;
* `getsockname` fails for a new TCP socket, and the object is marked closed;
* `getsockname` fails for an accepted connection, whose descriptor is in no object then;
* an object that is not marked closed and holds no descriptor is destroyed, as a `udp_socket`
  whose socket could not be created, or a `tcp_socket` that was given none.
-/

namespace Netstore

open Transition Ownership

/-! ## Objects -/

/-- The class of a socket object. -/
inductive SocketKind where
  | tcp
  | udp
  deriving DecidableEq

/-- The fields of an `inet_socket`. -/
structure InetSocket where
  sock : ℤ
  port : UInt16
  closed : Bool
  deriving DecidableEq

namespace InetSocket

variable (x : InetSocket)

/-- `tcp_socket() = default` sets no field, `inet_socket()` of a `udp_socket` zeroes them. -/
def construct (memory : InetSocket) : SocketKind → InetSocket
  | .tcp => memory
  | .udp => ⟨0, 0, false⟩

/-- `inet_socket::fake_close` : the destructor will not close. -/
def fakeClose : InetSocket :=
  { x with closed := true }

/-- The values that the destructor closes. -/
def closes : List ℤ :=
  if x.closed then [] else [x.sock]

/-! A method gives the object that it leaves, also when it throws. The answers of the
system calls are a descriptor, a port, or that the call succeeds. -/

/-- `tcp_socket::create_socket`, with what `socket` and `getsockname` return. -/
def tcpCreateSocket (socket : Option ℕ) (getsockname : Option UInt16) :
    InetSocket × Except String Unit :=
  match socket with
  | none => ({ x with sock := -1 }, .error "socket")
  | some fd =>
    match getsockname with
    | none => ({ x with sock := fd }, .error "getsockname")
    | some port => (⟨fd, port, false⟩, .ok ())

/-- `udp_socket::create_socket`, with what `socket` and `getsockname` return. -/
def udpCreateSocket (socket : Option ℕ) (getsockname : Option UInt16) :
    InetSocket × Except String Unit :=
  match socket with
  | none => ({ x with sock := -1 }, .error "socket creation")
  | some fd =>
    match getsockname with
    | none => ({ x with sock := fd, closed := false }, .error "getsockname")
    | some port => (⟨fd, port, false⟩, .ok ())

/-- `create_socket` of the object's class. -/
def createSocket : SocketKind → Option ℕ → Option UInt16 → InetSocket × Except String Unit
  | .tcp => x.tcpCreateSocket
  | .udp => x.udpCreateSocket

/-- `udp_socket::create_multicast_socket`, with what `socket` and the two options return. -/
def createMulticastSocket (socket : Option ℕ) (broadcast multicastTtl : Bool) :
    InetSocket × Except String Unit :=
  match socket with
  | none => ({ x with sock := -1 }, .error "socket")
  | some fd =>
    ({ x with sock := fd },
      if !broadcast then .error "setsockopt broadcast"
      else if !multicastTtl then .error "setsockopt multicast ttl"
      else .ok ())

/-- Nothing is set if the call throws. -/
def wrapSocket (fd : ℕ) (getsockname : Option UInt16) : InetSocket × Except String Unit :=
  match getsockname with
  | none => (x, .error "getsockname")
  | some port => (⟨fd, port, false⟩, .ok ())

end InetSocket

/-! ## Operations -/

/-- The objects in the order of their construction, without those destroyed, and what was done
with descriptors. -/
structure Sockets where
  objects : List (Option (SocketKind × InetSocket))
  log : List (Event ℕ ℤ)
  deriving DecidableEq

/-- An operation with the answers of its system calls. -/
inductive SocketCall where
  /-- The object is given the memory that it is constructed in. -/
  | construct (kind : SocketKind) (memory : InetSocket)
  | createSocket (i : ℕ) (socket : Option ℕ) (getsockname : Option UInt16)
  | createMulticastSocket (i : ℕ) (socket : Option ℕ) (broadcast multicastTtl : Bool)
  /-- The memory is that of the new socket. -/
  | accept (i : ℕ) (accept : Option ℕ) (memory : InetSocket) (getsockname : Option UInt16)
  | moveConstruct (source : ℕ)
  | moveAssign (target source : ℕ)
  | destroy (i : ℕ)
  deriving DecidableEq

namespace Sockets

variable (s : Sockets)

/-- The object with the index, while it lives. -/
def object (i : ℕ) : Option (SocketKind × InetSocket) :=
  s.objects[i]?.join

/-- The field of the object is a descriptor that it holds. -/
def Holds (i : ℕ) (x : InetSocket) : Prop :=
  held s.log i = some x.sock

instance (i : ℕ) (x : InetSocket) : Decidable (s.Holds i x) :=
  inferInstanceAs (Decidable (_ = _))

/-- The system returns no descriptor that is open. -/
def Fresh (fd : Option ℕ) : Prop :=
  ∀ n ∈ fd, ¬IsOpen s.log (n : ℤ)

instance (fd : Option ℕ) : Decidable (s.Fresh fd) :=
  inferInstanceAs (Decidable (∀ n ∈ fd, _))

/-- The object with this index becomes `x`, with the descriptor that it obtained. -/
def created (i : ℕ) (kind : SocketKind) (x : InetSocket) (fd : Option ℕ) : Option Sockets :=
  if s.Fresh fd then
    some ⟨s.objects.set i (some (kind, x)),
      s.log ++ (fd.map fun n => Event.obtained (some i) (n : ℤ)).toList⟩
  else none

/-- What a call does to the objects and to the descriptors. -/
def step : SocketCall → Option Sockets
  | .construct kind memory =>
    some { s with objects := s.objects ++ [some (kind, memory.construct kind)] }
  | .createSocket i socket getsockname =>
    match s.object i with
    | some (kind, x) => s.created i kind (x.createSocket kind socket getsockname).1 socket
    | none => none
  | .createMulticastSocket i socket broadcast multicastTtl =>
    match s.object i with
    | some (.udp, x) =>
      s.created i .udp (x.createMulticastSocket socket broadcast multicastTtl).1 socket
    | _ => none
  | .accept i fd memory getsockname =>
    match s.object i with
    | some (.tcp, _) =>
      let newSocket := memory.construct .tcp
      if s.Fresh fd then
        match fd with
        | none => some s
        | some n =>
          match newSocket.wrapSocket n getsockname with
          | (newSocket, .ok _) =>
            some ⟨s.objects ++ [some (.tcp, newSocket)],
              s.log ++ [.obtained (some s.objects.length) (n : ℤ)]⟩
          | (newSocket, .error _) =>
            -- the new socket is destroyed, and has not got the descriptor
            some ⟨s.objects ++ [none], s.log ++ [.obtained none (n : ℤ)] ++
              newSocket.closes.map (.released s.objects.length)⟩
      else none
    | _ => none
  | .moveConstruct source =>
    match s.object source with
    | some (.tcp, x) =>
      some ⟨s.objects.set source (some (.tcp, x.fakeClose)) ++ [some (.tcp, x)],
        s.log ++ [.moved source s.objects.length]⟩
    | _ => none
  | .moveAssign target source =>
    match s.object target, s.object source with
    | some (.tcp, x), some (.tcp, y) =>
      if target = source then some s
      else if s.Holds target x then none
      else
        some ⟨(s.objects.set target (some (.tcp, y))).set source (some (.tcp, y.fakeClose)),
          s.log ++ [.moved source target]⟩
    | _, _ => none
  | .destroy i =>
    match s.object i with
    | some (_, x) => some ⟨s.objects.set i none, s.log ++ x.closes.map (.released i)⟩
    | none => none

end Sockets

/-- The call leaves `closed` as it was, if it obtains a descriptor. -/
def SocketCall.keepsClosed (kind : SocketKind) : SocketCall → Bool
  | createSocket _ _ getsockname => kind = .tcp && getsockname.isNone
  | createMulticastSocket .. => true
  | _ => false

/-- The call keeps clear of the four branches. -/
def Sockets.Careful (s : Sockets) (call : SocketCall) : Prop :=
  match call with
  | .createSocket i socket _ | .createMulticastSocket i socket _ _ =>
    ∀ o ∈ s.object i, ¬s.Holds i o.2 ∧ (socket.isSome → call.keepsClosed o.1 → o.2.closed = false)
  | .accept _ fd _ getsockname => fd.isSome → getsockname.isSome
  | .destroy i => ∀ o ∈ s.object i, o.2.closed = false → s.Holds i o.2
  | _ => True

namespace Sockets

section Objects

variable {s : Sockets} {i j : ℕ} {o o' : Option (SocketKind × InetSocket)} {log : List (Event ℕ ℤ)}

theorem object_append : Sockets.object ⟨s.objects ++ [o], log⟩ j =
    if j = s.objects.length then o else s.object j := by
  rw [object, object, List.getElem?_append]
  split_ifs with hlt heq heq
  · omega
  · rfl
  · simp [heq]
  · rw [List.getElem?_eq_none (by simp; omega), List.getElem?_eq_none (by omega)]

theorem lt_of_object {p : SocketKind × InetSocket} (h : s.object i = some p) :
    i < s.objects.length := by
  by_contra hlt
  rw [object, List.getElem?_eq_none (by omega)] at h
  cases h

theorem object_set {p : SocketKind × InetSocket} (h : s.object i = some p) :
    Sockets.object ⟨s.objects.set i o, log⟩ j = if j = i then o else s.object j := by
  by_cases hji : j = i
  · rw [if_pos hji, hji, object, List.getElem?_set_self (lt_of_object h)]
    rfl
  · rw [if_neg hji, object, object, List.getElem?_set_ne (Ne.symm hji)]

theorem object_set_append {p : SocketKind × InetSocket} (h : s.object i = some p) :
    Sockets.object ⟨s.objects.set i o ++ [o'], log⟩ j =
      if j = s.objects.length then o' else if j = i then o else s.object j := by
  have happend := @object_append ⟨s.objects.set i o, log⟩ j o' log
  rw [happend, object_set h, List.length_set]

theorem object_set_set {k : ℕ} {p q : SocketKind × InetSocket} (hi : s.object i = some p)
    (hj : s.object j = some q) (hne : i ≠ j) :
    Sockets.object ⟨(s.objects.set i o).set j o', log⟩ k =
      if k = j then o' else if k = i then o else s.object k := by
  have hj' : Sockets.object ⟨s.objects.set i o, log⟩ j = some q := by
    rw [object_set hi, if_neg hne.symm, hj]
  have hset := @object_set ⟨s.objects.set i o, log⟩ j k o' log q hj'
  rw [hset, object_set hi]

end Objects

end Sockets

/-- The object whose descriptor the call creates, and the answer. -/
def SocketCall.creates : SocketCall → Option (ℕ × Option ℕ)
  | createSocket i socket _ | createMulticastSocket i socket _ _ => some (i, socket)
  | _ => none

namespace Sockets

section Steps

variable {s s' : Sockets} {call : SocketCall}

/-- What an operation does. -/
inductive Step (s : Sockets) : SocketCall → Sockets → Prop
  | constructed {kind : SocketKind} {memory : InetSocket} :
      Step s (.construct kind memory) ⟨s.objects ++ [some (kind, memory.construct kind)], s.log⟩
  | notCreated {call : SocketCall} {i : ℕ} {kind : SocketKind} {x : InetSocket}
      (creates : call.creates = some (i, none)) (before : s.object i = some (kind, x)) :
      Step s call ⟨s.objects.set i (some (kind, { x with sock := -1 })), s.log⟩
  | created {call : SocketCall} {i n : ℕ} {kind : SocketKind} {x x' : InetSocket}
      (creates : call.creates = some (i, some n)) (before : s.object i = some (kind, x))
      (fresh : ¬IsOpen s.log (n : ℤ)) (sock : x'.sock = n)
      (closed : x'.closed = (call.keepsClosed kind && x.closed)) :
      Step s call ⟨s.objects.set i (some (kind, x')), s.log ++ [.obtained (some i) (n : ℤ)]⟩
  | notAccepted {i : ℕ} {memory : InetSocket} {getsockname : Option UInt16} :
      Step s (.accept i none memory getsockname) s
  | notWrapped {i n : ℕ} {memory : InetSocket} (fresh : ¬IsOpen s.log (n : ℤ)) :
      Step s (.accept i (some n) memory none) ⟨s.objects ++ [none],
        s.log ++ [.obtained none (n : ℤ)] ++ memory.closes.map (.released s.objects.length)⟩
  | accepted {i n : ℕ} {memory : InetSocket} {port : UInt16} (fresh : ¬IsOpen s.log (n : ℤ)) :
      Step s (.accept i (some n) memory (some port))
        ⟨s.objects ++ [some (.tcp, ⟨n, port, false⟩)],
          s.log ++ [.obtained (some s.objects.length) (n : ℤ)]⟩
  | moveConstructed {source : ℕ} {x : InetSocket} (before : s.object source = some (.tcp, x)) :
      Step s (.moveConstruct source)
        ⟨s.objects.set source (some (.tcp, x.fakeClose)) ++ [some (.tcp, x)],
          s.log ++ [.moved source s.objects.length]⟩
  | selfAssigned {i : ℕ} : Step s (.moveAssign i i) s
  | moveAssigned {target source : ℕ} {x y : InetSocket} (before : s.object target = some (.tcp, x))
      (from_ : s.object source = some (.tcp, y)) (ne : target ≠ source)
      (free : ¬s.Holds target x) :
      Step s (.moveAssign target source)
        ⟨(s.objects.set target (some (.tcp, y))).set source (some (.tcp, y.fakeClose)),
          s.log ++ [.moved source target]⟩
  | destroyed {i : ℕ} {kind : SocketKind} {x : InetSocket} (before : s.object i = some (kind, x)) :
      Step s (.destroy i) ⟨s.objects.set i none, s.log ++ x.closes.map (.released i)⟩

theorem created_cases {i : ℕ} {kind : SocketKind} {x x' : InetSocket} {fd : Option ℕ}
    (creates : call.creates = some (i, fd)) (before : s.object i = some (kind, x))
    (hnone : fd = none → x' = { x with sock := -1 })
    (hsome : ∀ n ∈ fd, x'.sock = n ∧ x'.closed = (call.keepsClosed kind && x.closed))
    (h : s.created i kind x' fd = some s') : Step s call s' := by
  rw [Sockets.created] at h
  split_ifs at h with hfresh
  obtain rfl := Option.some.inj h
  cases fd with
  | none =>
    rw [hnone rfl]
    simpa using Step.notCreated creates before
  | some n =>
    obtain ⟨hsock, hclosed⟩ := hsome n rfl
    exact Step.created creates before (hfresh n rfl) hsock hclosed

theorem step_cases (h : s.step call = some s') : Step s call s' := by
  cases call with
  | construct kind memory =>
    obtain rfl := Option.some.inj h
    exact .constructed
  | createSocket i socket getsockname =>
    rw [step] at h
    split at h
    next kind x before =>
      refine created_cases rfl before ?_ ?_ h
      · rintro rfl
        cases kind <;> rfl
      · rintro n rfl
        cases kind <;> cases getsockname <;>
          simp [InetSocket.createSocket, InetSocket.tcpCreateSocket, InetSocket.udpCreateSocket,
            SocketCall.keepsClosed]
    next => cases h
  | createMulticastSocket i socket broadcast multicastTtl =>
    rw [step] at h
    split at h
    next x before =>
      refine created_cases rfl before ?_ ?_ h
      · rintro rfl
        rfl
      · rintro n rfl
        exact ⟨rfl, rfl⟩
    next => cases h
  | accept i fd memory getsockname =>
    rw [step] at h
    split at h
    next before =>
      dsimp only at h
      split_ifs at h with hfresh
      cases fd with
      | none =>
        obtain rfl := Option.some.inj h
        exact .notAccepted
      | some n =>
        cases getsockname with
        | none =>
          obtain rfl := Option.some.inj h
          exact .notWrapped (hfresh n rfl)
        | some port =>
          obtain rfl := Option.some.inj h
          exact .accepted (hfresh n rfl)
    next => cases h
  | moveConstruct source =>
    rw [step] at h
    split at h
    next before =>
      obtain rfl := Option.some.inj h
      exact .moveConstructed before
    next => cases h
  | moveAssign target source =>
    rw [step] at h
    split at h
    next before from_ =>
      split_ifs at h with heq hfree
      · obtain rfl := Option.some.inj h
        subst heq
        exact .selfAssigned
      · obtain rfl := Option.some.inj h
        exact .moveAssigned before from_ heq hfree
    next => cases h
  | destroy i =>
    rw [step] at h
    split at h
    next before =>
      obtain rfl := Option.some.inj h
      exact .destroyed before
    next => cases h

theorem closes_of_closed {x : InetSocket} (hx : x.closed = true) : x.closes = [] := by
  simp [InetSocket.closes, hx]

theorem closes_of_not_closed {x : InetSocket} (hx : x.closed = false) : x.closes = [x.sock] := by
  simp [InetSocket.closes, hx]

theorem held_of_closes {x : InetSocket} {log : List (Event ℕ ℤ)} {i j : ℕ} {r : ℤ}
    (h : held (log ++ x.closes.map (.released i)) j = some r) : held log j = some r := by
  rw [InetSocket.closes] at h
  split_ifs at h
  · simpa using h
  · exact (held_released.mp h).2

/-- A value is closed rightfully if its object holds it. -/
theorem holds_of_rightful {x : InetSocket} {log : List (Event ℕ ℤ)} {i : ℕ}
    (h : Rightful (log ++ x.closes.map (.released i))) (hx : x.closed = false) :
    held log i = some x.sock := by
  rw [closes_of_not_closed hx] at h
  exact (rightful_concat.mp h).2 i x.sock rfl

/-! ## Careful runs -/

/-- Each descriptor that is held is in the field of its object, which is not marked closed. -/
structure Kept (s : Sockets) : Prop where
  accounted : Accounted s.log
  ready : ∀ i r, held s.log i = some r → 0 ≤ r ∧
    ∃ kind x, s.object i = some (kind, x) ∧ x.sock = r ∧ x.closed = false

theorem kept_init : Kept ⟨[], []⟩ :=
  ⟨accounted_nil, nofun⟩

theorem careful_creates {i : ℕ} {kind : SocketKind} {x : InetSocket} {fd : Option ℕ}
    (creates : call.creates = some (i, fd)) (before : s.object i = some (kind, x)) :
    s.Careful call ↔
      ¬s.Holds i x ∧ (fd.isSome → call.keepsClosed kind → x.closed = false) := by
  cases call with
  | createSocket | createMulticastSocket =>
    obtain ⟨rfl, rfl⟩ := Prod.mk.inj (Option.some.inj creates)
    simp [Careful, before]
  | _ => cases creates

namespace Kept

variable (h : Kept s)

include h

theorem held_eq_none {i : ℕ} {kind : SocketKind} {x : InetSocket}
    (before : s.object i = some (kind, x)) (hx : ¬s.Holds i x) : held s.log i = none := by
  refine Option.eq_none_iff_forall_ne_some.mpr fun r hr => ?_
  obtain ⟨-, kind', x', hobject, hsock, -⟩ := h.ready i r hr
  obtain ⟨rfl, rfl⟩ := Prod.mk.inj (Option.some.inj (before.symm.trans hobject))
  exact hx (hr.trans (congrArg some hsock.symm))

theorem held_length : held s.log s.objects.length = none := by
  refine Option.eq_none_iff_forall_ne_some.mpr fun r hr => ?_
  obtain ⟨-, kind, x, hobject, -⟩ := h.ready _ r hr
  exact (lt_of_object hobject).false

/-- What is held in an object that stays as it is. -/
theorem ready_of_eq {t : Sockets} {j : ℕ} {r : ℤ} (hr : held s.log j = some r)
    (ht : t.object j = s.object j) :
    0 ≤ r ∧ ∃ kind x, t.object j = some (kind, x) ∧ x.sock = r ∧ x.closed = false :=
  ht ▸ h.ready j r hr

omit h in
theorem ne_of_held {i j : ℕ} {r : ℤ} (hr : held s.log j = some r) (hi : held s.log i = none) :
    j ≠ i := by
  rintro rfl
  rw [hi] at hr
  cases hr

theorem step (hc : s.Careful call) (hs : s.step call = some s') : Kept s' := by
  cases step_cases hs with
  | constructed =>
    refine ⟨h.accounted, fun j r hr => h.ready_of_eq hr ?_⟩
    rw [object_append, if_neg (ne_of_held hr h.held_length)]
  | notCreated creates before =>
    have hnone := h.held_eq_none before ((careful_creates creates before).mp hc).1
    refine ⟨h.accounted, fun j r hr => h.ready_of_eq hr ?_⟩
    rw [object_set before, if_neg (ne_of_held hr hnone)]
  | created creates before fresh sock closed =>
    obtain ⟨hx, hclosed⟩ := (careful_creates creates before).mp hc
    have hnone := h.held_eq_none before hx
    refine ⟨h.accounted.obtained fresh hnone, fun j r hr => ?_⟩
    rcases held_obtained.mp hr with ⟨rfl, rfl⟩ | ⟨hne, hr⟩
    · refine ⟨by omega, _, _, by rw [object_set before, if_pos rfl], sock, ?_⟩
      rw [closed, Bool.and_eq_false_imp]
      exact hclosed rfl
    · refine h.ready_of_eq hr ?_
      rw [object_set before, if_neg hne]
  | notAccepted | selfAssigned => exact h
  | notWrapped fresh => cases hc rfl
  | accepted fresh =>
    refine ⟨h.accounted.obtained fresh h.held_length, fun j r hr => ?_⟩
    rcases held_obtained.mp hr with ⟨rfl, rfl⟩ | ⟨hne, hr⟩
    · exact ⟨by omega, _, _, by rw [object_append, if_pos rfl], rfl, rfl⟩
    · refine h.ready_of_eq hr ?_
      rw [object_append, if_neg hne]
  | @moveConstructed source x before =>
    have hlen := (lt_of_object before).ne
    refine ⟨h.accounted.moved hlen h.held_length, fun j r hr => ?_⟩
    rcases (held_moved hlen).mp hr with ⟨hj, hr'⟩ | ⟨hsource, hne, hr'⟩
    · obtain ⟨h0, kind, y, hobject, hy⟩ := h.ready source r hr'
      obtain ⟨rfl, rfl⟩ := Prod.mk.inj (Option.some.inj (before.symm.trans hobject))
      exact ⟨h0, _, _, by rw [object_set_append before, if_pos hj], hy⟩
    · refine h.ready_of_eq hr' ?_
      rw [object_set_append before, if_neg hne, if_neg hsource]
  | @moveAssigned target source x y before from_ ne free =>
    have hnone := h.held_eq_none before free
    refine ⟨h.accounted.moved ne.symm hnone, fun j r hr => ?_⟩
    rcases (held_moved ne.symm).mp hr with ⟨rfl, hr'⟩ | ⟨hsource, hne, hr'⟩
    · obtain ⟨h0, kind, z, hobject, hz⟩ := h.ready source r hr'
      obtain ⟨rfl, rfl⟩ := Prod.mk.inj (Option.some.inj (from_.symm.trans hobject))
      exact ⟨h0, _, _, by rw [object_set_set before from_ ne, if_neg ne, if_pos rfl], hz⟩
    · refine h.ready_of_eq hr' ?_
      rw [object_set_set before from_ ne, if_neg hsource, if_neg hne]
  | @destroyed i kind x before =>
    cases hx : x.closed with
    | false =>
      have hheld : held s.log i = some x.sock := hc _ before hx
      rw [closes_of_not_closed hx]
      refine ⟨h.accounted.released hheld, fun j r hr => ?_⟩
      obtain ⟨hne, hr⟩ := held_released.mp hr
      refine h.ready_of_eq hr ?_
      rw [object_set before, if_neg hne]
    | true =>
      rw [closes_of_closed hx, List.map_nil, List.append_nil]
      refine ⟨h.accounted, fun j r hr => h.ready_of_eq hr ?_⟩
      rw [object_set before, if_neg]
      rintro rfl
      obtain ⟨-, kind', y, hobject, -, hy⟩ := h.ready j r hr
      obtain ⟨rfl, rfl⟩ := Prod.mk.inj (Option.some.inj (before.symm.trans hobject))
      rw [hx] at hy
      cases hy

end Kept

/-! ## Other runs -/

/-- An object that is yet to come holds nothing. -/
def InRange (s : Sockets) : Prop :=
  ∀ i r, held s.log i = some r → i < s.objects.length

theorem InRange.step (h : InRange s) (hs : s.step call = some s') : InRange s' := by
  intro i r hr
  cases step_cases hs with
  | constructed =>
    have hlt := h i r hr
    rw [List.length_append]
    omega
  | notCreated =>
    rw [List.length_set]
    exact h i r hr
  | created creates before =>
    rw [List.length_set]
    rcases held_obtained.mp hr with ⟨rfl, -⟩ | ⟨-, hr⟩
    · exact lt_of_object before
    · exact h i r hr
  | notAccepted | selfAssigned => exact h i r hr
  | notWrapped =>
    have hlt := h i r (by simpa using held_of_closes hr)
    rw [List.length_append]
    omega
  | accepted =>
    rw [List.length_append, List.length_singleton]
    rcases held_obtained.mp hr with ⟨rfl, -⟩ | ⟨-, hr⟩
    · omega
    · exact (h i r hr).trans (Nat.lt_succ_self _)
  | moveConstructed before =>
    rw [List.length_append, List.length_set, List.length_singleton]
    rcases (held_moved (lt_of_object before).ne).mp hr with ⟨rfl, -⟩ | ⟨-, -, hr⟩
    · omega
    · exact (h i r hr).trans (Nat.lt_succ_self _)
  | moveAssigned before from_ ne =>
    rw [List.length_set, List.length_set]
    rcases (held_moved ne.symm).mp hr with ⟨rfl, -⟩ | ⟨-, -, hr⟩
    · exact lt_of_object before
    · exact h i r hr
  | destroyed before =>
    rw [List.length_set]
    exact h i r (held_of_closes hr)

theorem exists_log_eq (hs : s.step call = some s') : ∃ log, s'.log = s.log ++ log := by
  cases step_cases hs with
  | constructed | notCreated | notAccepted | selfAssigned => exact ⟨[], (List.append_nil _).symm⟩
  | notWrapped => exact ⟨_, List.append_assoc ..⟩
  | created | accepted | moveConstructed | moveAssigned | destroyed => exact ⟨_, rfl⟩

/-- The descriptor is open, and no object is going to close it. -/
structure Lost (s : Sockets) (r : ℤ) : Prop where
  nonneg : 0 ≤ r
  isOpen : IsOpen s.log r
  closed : ∀ i kind x, s.object i = some (kind, x) → held s.log i = some r → x.sock = r →
    x.closed = true

theorem Lost.step {r : ℤ} (h : Lost s r) (hrange : InRange s) (hs : s.step call = some s')
    (hrightful : Rightful s'.log) : Lost s' r := by
  have hlength : held s.log s.objects.length ≠ some r := fun he => (hrange _ _ he).false
  cases step_cases hs with
  | constructed =>
    refine ⟨h.nonneg, h.isOpen, fun j kind x hj hr hx => ?_⟩
    rw [object_append] at hj
    split_ifs at hj with hlen
    · exact (hlength (hlen ▸ hr)).elim
    · exact h.closed j kind x hj hr hx
  | notCreated creates before =>
    refine ⟨h.nonneg, h.isOpen, fun j kind x hj hr hx => ?_⟩
    rw [object_set before] at hj
    split_ifs at hj
    · obtain ⟨-, rfl⟩ := Prod.mk.inj (Option.some.inj hj)
      have := h.nonneg
      simp only at hx
      omega
    · exact h.closed j kind x hj hr hx
  | created creates before fresh sock =>
    refine ⟨h.nonneg, isOpen_obtained.mpr (Or.inr h.isOpen), fun j kind x hj hr hx => ?_⟩
    rcases held_obtained.mp hr with ⟨-, rfl⟩ | ⟨hne, hr'⟩
    · exact (fresh h.isOpen).elim
    · rw [object_set before, if_neg hne] at hj
      exact h.closed j kind x hj hr' hx
  | notAccepted | selfAssigned => exact h
  | @notWrapped i n memory fresh =>
    cases hm : memory.closed with
    | false =>
      have hheld := holds_of_rightful hrightful hm
      rw [held_obtained_none] at hheld
      exact (hrange _ _ hheld).false.elim
    | true =>
      rw [closes_of_closed hm, List.map_nil, List.append_nil]
      refine ⟨h.nonneg, isOpen_obtained.mpr (Or.inr h.isOpen), fun j kind x hj hr hx => ?_⟩
      rw [object_append] at hj
      split_ifs at hj
      exact h.closed j kind x hj (by simpa using hr) hx
  | accepted fresh =>
    refine ⟨h.nonneg, isOpen_obtained.mpr (Or.inr h.isOpen), fun j kind x hj hr hx => ?_⟩
    rcases held_obtained.mp hr with ⟨-, rfl⟩ | ⟨hne, hr'⟩
    · exact (fresh h.isOpen).elim
    · rw [object_append, if_neg hne] at hj
      exact h.closed j kind x hj hr' hx
  | moveConstructed before =>
    refine ⟨h.nonneg, isOpen_moved.mpr h.isOpen, fun j kind x hj hr hx => ?_⟩
    rw [object_set_append before] at hj
    rcases (held_moved (lt_of_object before).ne).mp hr with ⟨hlen, hr'⟩ | ⟨hsource, hne, hr'⟩
    · rw [if_pos hlen, ← before] at hj
      exact h.closed _ kind x hj hr' hx
    · rw [if_neg hne, if_neg hsource] at hj
      exact h.closed j kind x hj hr' hx
  | moveAssigned before from_ ne =>
    refine ⟨h.nonneg, isOpen_moved.mpr h.isOpen, fun j kind x hj hr hx => ?_⟩
    rw [object_set_set before from_ ne] at hj
    rcases (held_moved ne.symm).mp hr with ⟨htarget, hr'⟩ | ⟨hsource, hne, hr'⟩
    · rw [if_neg (htarget ▸ ne), if_pos htarget, ← from_] at hj
      exact h.closed _ kind x hj hr' hx
    · rw [if_neg hsource, if_neg hne] at hj
      exact h.closed j kind x hj hr' hx
  | @destroyed i kind y before =>
    have hobject : ∀ log j kind x, Sockets.object ⟨s.objects.set i none, log⟩ j = some (kind, x) →
        s.object j = some (kind, x) := by
      intro log j kind x hj
      rw [object_set before] at hj
      split_ifs at hj
      exact hj
    refine ⟨h.nonneg, ?_, fun j kind x hj hr hx =>
      h.closed j kind x (hobject _ j kind x hj) (held_of_closes hr) hx⟩
    cases hy : y.closed with
    | false =>
      have hheld := holds_of_rightful hrightful hy
      rw [closes_of_not_closed hy]
      refine isOpen_released.mpr ⟨?_, h.isOpen⟩
      rintro rfl
      have := h.closed i kind y before hheld rfl
      rw [hy] at this
      cases this
    | true =>
      rw [closes_of_closed hy, List.map_nil, List.append_nil]
      exact h.isOpen

/-- Something was closed wrongly, or is lost. -/
def Spoiled (s : Sockets) : Prop :=
  ¬Rightful s.log ∨ ∃ r, Lost s r

theorem Spoiled.step (h : Spoiled s) (hrange : InRange s) (hs : s.step call = some s') :
    Spoiled s' := by
  by_cases hrightful : Rightful s'.log
  · obtain ⟨log, hlog⟩ := exists_log_eq hs
    rcases h with h | ⟨r, h⟩
    · exact (h (Rightful.of_append (hlog ▸ hrightful))).elim
    · exact Or.inr ⟨r, h.step hrange hs hrightful⟩
  · exact Or.inl hrightful

theorem Spoiled.not_exactlyOnce (h : Spoiled s) : ¬ExactlyOnce s.log := by
  rintro ⟨hrightful, honce⟩
  rcases h with h | ⟨r, h⟩
  · exact h hrightful
  · exact not_releasedOnce_of_isOpen h.isOpen (honce r)

/-- Each of the four branches loses a descriptor or closes something wrongly. -/
theorem Kept.spoiled (h : Kept s) (hc : ¬s.Careful call) (hs : s.step call = some s') :
    Spoiled s' := by
  cases step_cases hs with
  | constructed | notAccepted | accepted | moveConstructed | selfAssigned | moveAssigned =>
    exact (hc (by simp [Careful])).elim
  | @notCreated _ i kind x creates before =>
    have hx : s.Holds i x := by simpa [careful_creates creates before] using hc
    have h0 := (h.ready i _ hx).1
    refine Or.inr ⟨x.sock, h0, (h.accounted.isOpen_iff _).mpr ⟨i, hx⟩, fun j k y hj hr hy => ?_⟩
    obtain rfl : j = i := h.accounted.unique j i _ hr hx
    rw [object_set before, if_pos rfl] at hj
    obtain ⟨-, rfl⟩ := Prod.mk.inj (Option.some.inj hj)
    simp only at hy
    omega
  | @created _ i n kind x x' creates before fresh sock closed =>
    by_cases hx : s.Holds i x
    · have hopen : IsOpen s.log x.sock := (h.accounted.isOpen_iff _).mpr ⟨i, hx⟩
      refine Or.inr ⟨x.sock, (h.ready i _ hx).1, isOpen_obtained.mpr (Or.inr hopen),
        fun j k y hj hr hy => ?_⟩
      rcases held_obtained.mp hr with ⟨-, heq⟩ | ⟨hne, hr⟩
      · exact (fresh (heq ▸ hopen)).elim
      · exact (hne (h.accounted.unique j i _ hr hx)).elim
    · have hkeeps : call.keepsClosed kind ∧ x.closed = true := by
        simpa [careful_creates creates before, hx] using hc
      refine Or.inr ⟨n, by omega, isOpen_obtained.mpr (Or.inl rfl), fun j k y hj hr hy => ?_⟩
      rcases held_obtained.mp hr with ⟨rfl, -⟩ | ⟨-, hr⟩
      · rw [object_set before, if_pos rfl] at hj
        obtain ⟨-, rfl⟩ := Prod.mk.inj (Option.some.inj hj)
        rw [closed, hkeeps.1, hkeeps.2]
        rfl
      · exact (fresh ((h.accounted.isOpen_iff _).mpr ⟨j, hr⟩)).elim
  | @notWrapped i n memory fresh =>
    cases hm : memory.closed with
    | false =>
      refine Or.inl fun hrightful => ?_
      have hheld := holds_of_rightful hrightful hm
      rw [held_obtained_none, h.held_length] at hheld
      cases hheld
    | true =>
      rw [closes_of_closed hm, List.map_nil, List.append_nil]
      refine Or.inr ⟨n, by omega, isOpen_obtained.mpr (Or.inl rfl), fun j k y _ hr _ => ?_⟩
      rw [held_obtained_none] at hr
      exact (fresh ((h.accounted.isOpen_iff _).mpr ⟨j, hr⟩)).elim
  | @destroyed i kind x before =>
    have hx : x.closed = false ∧ ¬s.Holds i x := by simpa [Careful, before] using hc
    exact Or.inl fun hrightful => hx.2 (holds_of_rightful hrightful hx.1)

/-- A `udp_socket` is never marked closed. -/
def UdpNotClosed (s : Sockets) : Prop :=
  ∀ i x, s.object i = some (.udp, x) → x.closed = false

theorem UdpNotClosed.step (h : UdpNotClosed s) (hs : s.step call = some s') : UdpNotClosed s' := by
  intro j y hj
  cases step_cases hs with
  | @constructed kind memory =>
    rw [object_append] at hj
    split_ifs at hj
    · obtain ⟨rfl, rfl⟩ := Prod.mk.inj (Option.some.inj hj)
      rfl
    · exact h j y hj
  | @notCreated _ i kind x creates before =>
    rw [object_set before] at hj
    split_ifs at hj
    · obtain ⟨rfl, rfl⟩ := Prod.mk.inj (Option.some.inj hj)
      exact h i x before
    · exact h j y hj
  | created creates before fresh sock closed =>
    rw [object_set before] at hj
    split_ifs at hj
    · obtain ⟨rfl, rfl⟩ := Prod.mk.inj (Option.some.inj hj)
      rw [closed, h _ _ before, Bool.and_false]
    · exact h j y hj
  | notAccepted | selfAssigned => exact h j y hj
  | notWrapped =>
    rw [object_append] at hj
    split_ifs at hj
    exact h j y hj
  | accepted =>
    rw [object_append] at hj
    split_ifs at hj
    · cases hj
    · exact h j y hj
  | moveConstructed before =>
    rw [object_set_append before] at hj
    split_ifs at hj
    · cases hj
    · cases hj
    · exact h j y hj
  | moveAssigned before from_ ne =>
    rw [object_set_set before from_ ne] at hj
    split_ifs at hj
    · cases hj
    · cases hj
    · exact h j y hj
  | destroyed before =>
    rw [object_set before] at hj
    split_ifs at hj
    exact h j y hj

end Steps

/-! ## Runs -/

section Runs

variable {s : Sockets} {calls : List SocketCall}

/-- In a careful run every descriptor that is open is held. -/
theorem kept_of_run (hr : run step ⟨[], []⟩ calls = some s)
    (hc : Along step Careful ⟨[], []⟩ calls) : Kept s :=
  run_invariant Kept (fun _ _ _ h hcall hs => h.step hcall hs) kept_init hr hc

/-- Any other run is spoiled. -/
theorem spoiled_of_run (hr : run step ⟨[], []⟩ calls = some s)
    (hc : ¬Along step Careful ⟨[], []⟩ calls) : Spoiled s := by
  have h : InRange s ∧ (¬Along step Careful ⟨[], []⟩ calls → Spoiled s) := by
    refine run_induction_all
      (fun calls s => InRange s ∧ (¬Along step Careful ⟨[], []⟩ calls → Spoiled s))
      ⟨(fun _ _ h => by cases h), fun h => (h trivial).elim⟩ (fun calls s call s' hr h hs => ?_) hr
    obtain ⟨hrange, h⟩ := h
    refine ⟨hrange.step hs, fun hnot => ?_⟩
    rw [along_concat hr] at hnot
    by_cases hcalls : Along step Careful ⟨[], []⟩ calls
    · exact (kept_of_run hr hcalls).spoiled (fun hcall => hnot ⟨hcalls, hcall⟩) hs
    · exact (h hcalls).step hrange hs
  exact h.2 hc

/-- When all objects are destroyed, nothing is held. -/
theorem Kept.exactlyOnce (h : Kept s) (hend : ∀ o ∈ s.objects, o = none) : ExactlyOnce s.log := by
  refine h.accounted.exactlyOnce fun i => Option.eq_none_iff_forall_ne_some.mpr fun r hr => ?_
  obtain ⟨-, kind, x, hobject, -⟩ := h.ready i r hr
  have hmem := List.mem_of_getElem? (Option.join_eq_some_iff.mp hobject)
  cases hend _ hmem

theorem udpNotClosed_of_run (hr : run step ⟨[], []⟩ calls = some s) : UdpNotClosed s :=
  run_induction_all (fun _ => UdpNotClosed) (fun _ _ h => by cases h)
    (fun _ _ _ _ _ h hs => h.step hs) hr

end Runs

end Sockets

/-- Each state of a careful run has every open descriptor in one object, and a run after which
all objects are destroyed has closed every descriptor once, and nothing else, exactly if it was
careful. -/
theorem descriptors_closed_once_iff {calls : List SocketCall} {s : Sockets}
    (hr : run Sockets.step ⟨[], []⟩ calls = some s) :
    (Along Sockets.step Sockets.Careful ⟨[], []⟩ calls → s.Kept) ∧
      ((∀ o ∈ s.objects, o = none) →
        (ExactlyOnce s.log ↔ Along Sockets.step Sockets.Careful ⟨[], []⟩ calls)) := by
  refine ⟨Sockets.kept_of_run hr, fun hend => ⟨fun h => ?_, fun hc => ?_⟩⟩
  · by_contra hc
    exact (Sockets.spoiled_of_run hr hc).not_exactlyOnce h
  · exact (Sockets.kept_of_run hr hc).exactlyOnce hend

/-- A listening socket accepts a connection, whose object is moved to another. -/
def movedConnection : List SocketCall :=
  [.construct .tcp ⟨0, 0, true⟩, .createSocket 0 (some 3) (some 7),
    .accept 0 (some 4) ⟨0, 0, true⟩ (some 7), .moveConstruct 1, .destroy 1, .destroy 2, .destroy 0]

theorem movedConnection_closed_once :
    (Along Sockets.step Sockets.Careful ⟨[], []⟩ movedConnection →
      Sockets.Kept ⟨[none, none, none], [.obtained (some 0) 3, .obtained (some 1) 4, .moved 1 2,
        .released 2 4, .released 0 3]⟩) ∧
      ((∀ o ∈ [(none : Option (SocketKind × InetSocket)), none, none], o = none) →
        (ExactlyOnce [Event.obtained (some 0) (3 : ℤ), .obtained (some 1) 4, .moved 1 2,
            .released 2 4, .released 0 3] ↔
          Along Sockets.step Sockets.Careful ⟨[], []⟩ movedConnection)) :=
  @descriptors_closed_once_iff movedConnection
    ⟨[none, none, none], [.obtained (some 0) 3, .obtained (some 1) 4, .moved 1 2, .released 2 4,
      .released 0 3]⟩ (by decide)

/-- A socket that is not created closes -1; one that is not given the connection it was to have
closes what was in its memory, here the connection of another; and a connection that cannot
be wrapped stays open. -/
theorem failures_not_closed_once :
    (run Sockets.step ⟨[], []⟩
        [.construct .udp ⟨0, 0, false⟩, .createSocket 0 none none, .destroy 0] =
          some ⟨[none], [.released 0 (-1)]⟩ ∧
      ¬ExactlyOnce [Event.released 0 (-1 : ℤ)]) ∧
    (run Sockets.step ⟨[], []⟩
        [.construct .tcp ⟨0, 0, true⟩, .createSocket 0 (some 3) (some 7),
          .accept 0 (some 4) ⟨0, 0, true⟩ (some 7), .construct .tcp ⟨4, 0, false⟩,
          .accept 0 none ⟨0, 0, true⟩ none, .destroy 2, .destroy 1, .destroy 0] =
          some ⟨[none, none, none], [.obtained (some 0) 3, .obtained (some 1) 4,
            .released 2 4, .released 1 4, .released 0 3]⟩ ∧
      ¬ExactlyOnce [Event.obtained (some 0) (3 : ℤ), .obtained (some 1) 4,
        .released 2 4, .released 1 4, .released 0 3]) ∧
    (run Sockets.step ⟨[], []⟩
        [.construct .tcp ⟨0, 0, true⟩, .createSocket 0 (some 3) (some 7),
          .accept 0 (some 4) ⟨0, 0, true⟩ none, .destroy 0] =
          some ⟨[none, none], [.obtained (some 0) 3, .obtained none 4, .released 0 3]⟩ ∧
      ¬ExactlyOnce [Event.obtained (some 0) (3 : ℤ), .obtained none 4, .released 0 3]) := by
  refine ⟨⟨by decide, fun h => ?_⟩, ⟨by decide, fun h => ?_⟩, ⟨by decide, fun h => ?_⟩⟩
  · have hheld := h.rightful [] 0 (-1) [] rfl
    cases hheld
  · have hheld := h.rightful [.obtained (some 0) 3, .obtained (some 1) 4] 2 4 _ rfl
    revert hheld
    decide
  · have hopen : IsOpen [Event.obtained (some 0) (3 : ℤ), .obtained none 4, .released 0 3] 4 := by
      decide
    exact not_releasedOnce_of_isOpen hopen (h.once 4)

end Netstore
