import Maverick.RwLockProofs
import Maverick.UdpProofs

/-! # The receive queue of a UDP socket

`udp_input` pushes a datagram under the block's lock and raises `recv_sem` after it has let go of
the lock; `udp_recv` lowers `recv_sem` and then pops under the lock. A step is one such section,
and a receiver asleep in `sema_down` tests the value again when it runs after its wake-up, so others
may get there first.

One equation carries everything: the value of the semaphore, the receivers on their way to a pop and
the inputs on their way to `sema_up` together are as many as the datagrams in the queue. -/

namespace MavUdpQueue

open MavRun MavUdp List
open MavRwLock (Pick)

/-! ## The sections -/

def udpRecvQueueMax : Nat := 16

/-- One return of `udp_recv`: the call, the datagram it took off the queue and
    the bytes it copied to the caller. -/
structure Delivery where
  call : Nat
  pkt : QueuedPkt
  copied : List UInt8
  deriving DecidableEq, Repr

/-- A control block with the calls that are under way. `waiters` is the list of
    `recv_sem`; the other lists are where calls stand, and the two logs are what
    was pushed and what was returned so far. -/
structure Desk where
  pcb : Pcb
  waiters : List Nat
  /-- Receivers that were woken and have not run since. -/
  woken : List Nat
  /-- Receivers between their down and their pop. -/
  popping : List Nat
  /-- Inputs between their push and their up. -/
  raising : List Nat
  accepted : List QueuedPkt
  delivered : List Delivery
  /-- `list_pop_front` was called on an empty list. -/
  panicked : Bool
  deriving DecidableEq, Repr

/-- A block that was just bound. -/
def opened (ip : UInt32) (port : UInt16) : Desk :=
  { pcb := { freshPcb with localIp := ip, localPort := port, bound := true }
    waiters := [], woken := [], popping := [], raising := []
    accepted := [], delivered := [], panicked := false }

def Desk.setQueue (s : Desk) (q : List QueuedPkt) : Desk :=
  { s with pcb := { s.pcb with recvQueue := q } }

def Desk.setSem (s : Desk) (n : Nat) : Desk :=
  { s with pcb := { s.pcb with recvSem := n } }

/-- The section of `udp_input` under the block's lock, with the answer of `malloc`. -/
def inputPush (s : Desk) (t : Nat) (pkt : QueuedPkt) (malloc : Bool) : Desk :=
  if s.pcb.recvQueue.length ≥ udpRecvQueueMax then s
  else if malloc = false then s
  else
    { s.setQueue (s.pcb.recvQueue ++ [pkt]) with
      raising := s.raising ++ [t], accepted := s.accepted ++ [pkt] }

/-- `sema_up`: wake one waiter, if there is one, and raise the value. -/
def semaUp (s : Desk) (t : Nat) (pick : Pick) : Desk :=
  let s := { s with raising := s.raising.erase t }
  match pick.choose s.waiters with
  | none => s.setSem (s.pcb.recvSem + 1)
  | some w =>
    { s.setSem (s.pcb.recvSem + 1) with
      waiters := s.waiters.erase w, woken := s.woken ++ [w] }

/-- The loop of `sema_down` from a test of the value on. -/
def semaDown (s : Desk) (t : Nat) : Desk :=
  if s.pcb.recvSem = 0 then { s with waiters := s.waiters ++ [t] }
  else { s.setSem (s.pcb.recvSem - 1) with popping := s.popping ++ [t] }

/-- The section of `udp_recv` under the block's lock, and the copy to a buffer of `len` bytes. -/
def recvPop (s : Desk) (t : Nat) (len : Nat) : Desk :=
  let s := { s with popping := s.popping.erase t }
  match s.pcb.recvQueue with
  | [] => { s with panicked := true }
  | pkt :: q =>
    { s.setQueue q with delivered := s.delivered ++ [⟨t, pkt, pkt.payload.take len⟩] }

inductive Section where
  | push (t : Nat) (pkt : QueuedPkt) (malloc : Bool)
  | up (t : Nat) (pick : Pick)
  | down (t : Nat)
  | wake (t : Nat)
  | pop (t : Nat) (len : Nat)

/-- The calls under way. -/
def Desk.busy (s : Desk) : List Nat := s.waiters ++ s.woken ++ s.popping ++ s.raising

/-- One section; `none` where the call is not at the start of it. -/
def stretch (s : Desk) : Section → Option Desk
  | .push t pkt malloc => if t ∈ s.busy then none else some (inputPush s t pkt malloc)
  | .up t pick => if t ∈ s.raising then some (semaUp s t pick) else none
  | .down t => if t ∈ s.busy then none else some (semaDown s t)
  | .wake t =>
    if t ∈ s.woken then some (semaDown { s with woken := s.woken.erase t } t) else none
  | .pop t len => if t ∈ s.popping then some (recvPop s t len) else none

/-! ## What a section does -/

/-- A push drops the datagram or appends it to a queue with room. -/
theorem inputPush_cases (s : Desk) (t : Nat) (pkt : QueuedPkt) (malloc : Bool) :
    inputPush s t pkt malloc = s ∨
      (s.pcb.recvQueue.length < udpRecvQueueMax ∧ inputPush s t pkt malloc =
        { s.setQueue (s.pcb.recvQueue ++ [pkt]) with
          raising := s.raising ++ [t], accepted := s.accepted ++ [pkt] }) := by
  by_cases hfull : s.pcb.recvQueue.length ≥ udpRecvQueueMax
  · exact .inl (by simp [inputPush, hfull])
  · cases malloc with
    | false => exact .inl (by simp [inputPush])
    | true => exact .inr ⟨Nat.lt_of_not_le hfull, by simp [inputPush, hfull]⟩

/-- The waiter that `sema_up` chooses is one of them, and it finds one if there is one. -/
theorem choose_mem {pick : Pick} {ws : List Nat} {w : Nat} (h : pick.choose ws = some w) :
    w ∈ ws := by
  cases pick with
  | front => exact mem_of_mem_head? h
  | largest eff => exact MavQueue.listMax_mem h

theorem choose_eq_none {pick : Pick} {ws : List Nat} (h : pick.choose ws = none) : ws = [] := by
  cases pick with
  | front => exact List.head?_eq_none_iff.mp h
  | largest eff => exact MavQueue.listMax_eq_none.mp h

/-! ## The invariant -/

/-- What holds between sections. -/
structure QueueOk (s : Desk) : Prop where
  room : s.pcb.recvQueue.length ≤ udpRecvQueueMax
  count : s.pcb.recvSem + s.popping.length + s.raising.length = s.pcb.recvQueue.length
  fifo : s.accepted = s.delivered.map Delivery.pkt ++ s.pcb.recvQueue
  sound : s.panicked = false
  /-- Nobody sleeps through a raised semaphore: for every unit of its value a
      woken receiver is on its way. -/
  awake : s.waiters ≠ [] → s.pcb.recvSem ≤ s.woken.length

theorem queueOk_opened (ip : UInt32) (port : UInt16) : QueueOk (opened ip port) where
  room := Nat.zero_le _
  count := rfl
  fifo := rfl
  sound := rfl
  awake := fun h => absurd rfl h

theorem QueueOk.inputPush {s : Desk} (h : QueueOk s) (t : Nat) (pkt : QueuedPkt) (malloc : Bool) :
    QueueOk (inputPush s t pkt malloc) := by
  rcases inputPush_cases s t pkt malloc with heq | ⟨hroom, heq⟩
  · rw [heq]
    exact h
  rw [heq]
  constructor
  · show (s.pcb.recvQueue ++ [pkt]).length ≤ udpRecvQueueMax
    rw [length_append]
    exact hroom
  · show s.pcb.recvSem + s.popping.length + (s.raising ++ [t]).length =
      (s.pcb.recvQueue ++ [pkt]).length
    have hcount := h.count
    simp only [length_append, length_singleton]
    omega
  · show s.accepted ++ [pkt] = s.delivered.map Delivery.pkt ++ (s.pcb.recvQueue ++ [pkt])
    rw [h.fifo, append_assoc]
  · exact h.sound
  · exact h.awake

theorem QueueOk.semaUp {s : Desk} (h : QueueOk s) {t : Nat} (ht : t ∈ s.raising) (pick : Pick) :
    QueueOk (semaUp s t pick) := by
  have hcount : s.pcb.recvSem + 1 + s.popping.length + (s.raising.erase t).length =
      s.pcb.recvQueue.length := by
    have hlen := length_erase_of_mem ht
    have hpos := length_pos_of_mem ht
    have hold := h.count
    omega
  cases hc : pick.choose s.waiters with
  | none =>
    have hnil := choose_eq_none hc
    rw [MavUdpQueue.semaUp]
    simp only [hc]
    exact ⟨h.room, hcount, h.fifo, h.sound, fun hw => absurd hnil hw⟩
  | some w =>
    rw [MavUdpQueue.semaUp]
    simp only [hc]
    refine ⟨h.room, hcount, h.fifo, h.sound, fun _ => ?_⟩
    -- the value rises by one, and so do the woken receivers
    have hold := h.awake (ne_nil_of_mem (choose_mem hc))
    show s.pcb.recvSem + 1 ≤ (s.woken ++ [w]).length
    simp only [length_append, length_singleton]
    omega

/-- A test of the value by a receiver that is not among the woken ones any more: `room` and the rest
    hold before it, and one woken receiver may be missing. -/
theorem QueueOk.semaDown {s : Desk} (h : QueueOk { s with waiters := [] })
    (hawake : s.waiters ≠ [] → s.pcb.recvSem ≤ s.woken.length + 1) (t : Nat) :
    QueueOk (semaDown s t) := by
  by_cases hz : s.pcb.recvSem = 0
  · rw [MavUdpQueue.semaDown, if_pos hz]
    refine { h with awake := fun _ => ?_ }
    show s.pcb.recvSem ≤ s.woken.length
    omega
  rw [MavUdpQueue.semaDown, if_neg hz]
  refine ⟨h.room, ?_, h.fifo, h.sound, fun hw => ?_⟩
  · show s.pcb.recvSem - 1 + (s.popping ++ [t]).length + s.raising.length =
      s.pcb.recvQueue.length
    have hcount : s.pcb.recvSem + s.popping.length + s.raising.length =
      s.pcb.recvQueue.length := h.count
    simp only [length_append, length_singleton]
    omega
  · have := hawake hw
    show s.pcb.recvSem - 1 ≤ s.woken.length
    omega

theorem QueueOk.recvPop {s : Desk} (h : QueueOk s) {t : Nat} (ht : t ∈ s.popping) (len : Nat) :
    QueueOk (recvPop s t len) := by
  have hlen := length_erase_of_mem ht
  have hpos := length_pos_of_mem ht
  have hcount := h.count
  cases hq : s.pcb.recvQueue with
  | nil =>
    -- the receiver itself accounts for a datagram
    rw [hq, length_nil] at hcount
    omega
  | cons pkt q =>
    rw [hq, length_cons] at hcount
    rw [MavUdpQueue.recvPop]
    simp only [hq]
    constructor
    · have hroom := h.room
      rw [hq, length_cons] at hroom
      show q.length ≤ udpRecvQueueMax
      omega
    · show s.pcb.recvSem + (s.popping.erase t).length + s.raising.length = q.length
      omega
    · rw [h.fifo, hq, map_append, append_assoc]
      rfl
    · exact h.sound
    · exact h.awake

theorem QueueOk.step {s s' : Desk} {i : Section} (h : QueueOk s)
    (hs : stretch s i = some s') : QueueOk s' := by
  have hquiet : ∀ woken : List Nat, QueueOk { s with waiters := [], woken := woken } :=
    fun _ => { h with awake := fun hw => absurd rfl hw }
  cases i with
  | push t pkt malloc =>
    obtain ⟨-, hs⟩ := Option.ite_none_left_eq_some.mp hs
    rw [← Option.some.inj hs]
    exact h.inputPush t pkt malloc
  | up t pick =>
    obtain ⟨ht, rfl⟩ := of_guard hs
    exact h.semaUp ht pick
  | down t =>
    obtain ⟨-, hs⟩ := Option.ite_none_left_eq_some.mp hs
    rw [← Option.some.inj hs]
    exact QueueOk.semaDown (hquiet s.woken) (fun hw => Nat.le_succ_of_le (h.awake hw)) t
  | wake t =>
    obtain ⟨ht, rfl⟩ := of_guard hs
    refine QueueOk.semaDown (hquiet (s.woken.erase t)) (fun hw => ?_) t
    have hold := h.awake hw
    have hlen := length_erase_of_mem ht
    show s.pcb.recvSem ≤ (s.woken.erase t).length + 1
    omega
  | pop t len =>
    obtain ⟨ht, rfl⟩ := of_guard hs
    exact h.recvPop ht len

theorem QueueOk.run {s s' : Desk} {is : List Section} (h : QueueOk s)
    (hs : exec stretch s is = some s') : QueueOk s' :=
  exec_inv_all (fun _ _ _ hI hstep => hI.step hstep) h hs

/-! ## The queue over whole runs -/

/-- **RECEIVE QUEUE**: however the sections interleave, the queue has at most 16
    datagrams, no receiver finds it empty, the semaphore agrees with the queue
    up to the calls between their two sections, and the datagrams returned are
    the first ones accepted, in order. -/
theorem udp_recv_queue (ip : UInt32) (port : UInt16) (is : List Section) (s : Desk)
    (h : exec stretch (opened ip port) is = some s) :
    s.pcb.recvQueue.length ≤ udpRecvQueueMax ∧
      s.panicked = false ∧
      (s.raising.length ≤ s.pcb.recvQueue.length ∧
        s.pcb.recvSem + s.popping.length = s.pcb.recvQueue.length - s.raising.length) ∧
      s.accepted = s.delivered.map Delivery.pkt ++ s.pcb.recvQueue := by
  have hok := (queueOk_opened ip port).run h
  have hcount := hok.count
  exact ⟨hok.room, hok.sound, ⟨by omega, by omega⟩, hok.fifo⟩

/-- Two receivers and two inputs: the first receiver sleeps, is woken, and the
    second one gets the datagram before it. -/
def bargingRun : List Section :=
  [.down 1, .push 10 ⟨[1, 2, 3], 7, 53⟩ true, .up 10 .front, .down 2, .wake 1,
    .push 11 ⟨[4], 7, 53⟩ true, .pop 2 2, .up 11 .front, .wake 1]

theorem bargingRun_queue :
    ∃ s, exec stretch (opened 0 53) bargingRun = some s ∧
      s.accepted = s.delivered.map Delivery.pkt ++ s.pcb.recvQueue ∧
      s.delivered = [⟨2, ⟨[1, 2, 3], 7, 53⟩, [1, 2]⟩] ∧ s.popping = [1] ∧
      s.pcb.recvQueue = [⟨[4], 7, 53⟩] := by
  have hobs : (exec stretch (opened 0 53) bargingRun).map
      (fun s => (s.delivered, s.popping, s.pcb.recvQueue)) =
      some ([⟨2, ⟨[1, 2, 3], 7, 53⟩, [1, 2]⟩], [1], [⟨[4], 7, 53⟩]) := by decide
  obtain ⟨s, hs, hobs⟩ := Option.map_eq_some_iff.mp hobs
  have h := udp_recv_queue 0 53 bargingRun s hs
  simp only [Prod.mk.injEq] at hobs
  exact ⟨s, hs, h.2.2.2, hobs⟩

end MavUdpQueue
