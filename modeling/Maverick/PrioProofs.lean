import Maverick.QueueProofs
import Maverick.RunProofs

/-! # Strict priority — threads, semaphores, locks and conditions

The scheduler under `SCHED_PRIO` with the synchronisation primitives that move threads between
running, ready and blocked. There is one running thread; every thread has a list of calls it is
still inside of (`todo`), so that a thread that slept in `sema_down` goes on there when it is chosen
again. One step of the system starts a call of the running thread or carries out the next primitive
of the calls it is inside of.

`Shape` is what holds of the lists and links whatever the priorities are: the ready list, the waiter
lists and the lock owners describe one and the same placement of the threads. -/

namespace MavPrio

open MavQueue MavRun
open Function (update_of_ne update_apply update)

/-! ## State -/

inductive Status where
  | unused
  | running
  | ready
  | blocked
  deriving DecidableEq, Repr

/-- The semaphores of the system: those of the program, the one inside each
    lock, and the one that a thread in `cond_wait` keeps on its stack. -/
inductive Sema where
  | user (i : Nat)
  | lock (l : Nat)
  | waiter (t : Nat)
  deriving DecidableEq, Repr

/-- The primitives that the calls are made of. -/
inductive Instr where
  | create (t : Nat) (p : Int)
  | yield
  | setPriority (p : Int)
  | semaDown (i : Nat)
  | semaTryDown (i : Nat)
  | semaUp (i : Nat)
  | lockAcquire (l : Nat)
  | lockSleep (l : Nat)
  | lockTryAcquire (l : Nat)
  | lockRelease (l : Nat)
  | condPush (c l : Nat)
  | waiterDown
  | condSignal (c l : Nat)
  | waiterUp (t : Nat)
  | condBroadcast (c l : Nat)
  deriving DecidableEq, Repr

/-- The fields of `struct thread`, `struct semaphore`, `struct lock` and `struct condition`, by
    thread, semaphore, lock and condition. Two fields are kept by no code: `stamp` is the moment of
    a thread's last insertion into the ready list, `clock` counts the insertions. -/
structure Prio where
  priority : Nat → Int
  effPriority : Nat → Int
  status : Nat → Status
  waitingLock : Nat → Option Nat
  heldLocks : Nat → List Nat
  todo : Nat → List Instr
  value : Sema → Nat
  waiters : Sema → List Nat
  holder : Nat → Option Nat
  conds : Nat → List Nat
  ready : List Nat
  current : Nat
  idle : Nat
  stamp : Nat → Nat
  clock : Nat

namespace Prio

def setEff (s : Prio) (t : Nat) (p : Int) : Prio :=
  { s with effPriority := update s.effPriority t p }

def setStatus (s : Prio) (t : Nat) (st : Status) : Prio :=
  { s with status := update s.status t st }

def setWaitingLock (s : Prio) (t : Nat) (l : Option Nat) : Prio :=
  { s with waitingLock := update s.waitingLock t l }

def setTodo (s : Prio) (t : Nat) (is : List Instr) : Prio :=
  { s with todo := update s.todo t is }

def setValue (s : Prio) (m : Sema) (v : Nat) : Prio :=
  { s with value := update s.value m v }

def setWaiters (s : Prio) (m : Sema) (ws : List Nat) : Prio :=
  { s with waiters := update s.waiters m ws }

variable {m : Sema} {t : Nat}

theorem waiters_setWaiters_ne (s : Prio) {m' : Sema} (ws : List Nat) (h : m' ≠ m) :
    (s.setWaiters m ws).waiters m' = s.waiters m' := update_of_ne h ..

end Prio

/-! ## The scheduler -/

def priMin : Int := 0

def priDefault : Int := 31

def priMax : Int := 63

/-- `list_insert_ordered` into the ready list. -/
def threadEnqueue (s : Prio) (t : Nat) : Prio :=
  { s with
    ready := insertOrdered s.effPriority t s.ready
    stamp := update s.stamp t s.clock
    clock := s.clock + 1 }

def threadReinsertReady (s : Prio) (t : Nat) : Prio :=
  threadEnqueue { s with ready := s.ready.erase t } t

/-- `next_thread_to_run` and the switch to it. -/
def schedule (s : Prio) : Prio :=
  match s.ready with
  | [] => { s.setStatus s.idle .running with current := s.idle }
  | t :: r => { s.setStatus t .running with ready := r, current := t }

def threadBlock (s : Prio) : Prio :=
  schedule (s.setStatus s.current .blocked)

def threadYield (s : Prio) : Prio :=
  schedule ((threadEnqueue s s.current).setStatus s.current .ready)

/-- `thread_unblock`; it panics on a thread that is not blocked. -/
def threadUnblock (s : Prio) (t : Nat) : Option Prio :=
  if s.status t = .blocked then some ((threadEnqueue s t).setStatus t .ready) else none

/-- The largest effective priority among the waiters of the held locks, or `p` where that is larger:
    the loop in `thread_set_priority` and `lock_release`. -/
def effFromLocks (s : Prio) (t : Nat) (p : Int) : Int :=
  (s.heldLocks t).foldl (fun m l =>
    match listMax s.effPriority (s.waiters (.lock l)) with
    | none => m
    | some u => if m < s.effPriority u then s.effPriority u else m) p

/-- `thread_yield` where thread `t` has a larger effective priority. -/
def yieldTo (s : Prio) (t : Nat) : Prio :=
  if s.effPriority s.current < s.effPriority t then threadYield s else s

def threadSetPriority (s : Prio) (p : Int) : Prio :=
  let s := { s with priority := update s.priority s.current p }
  let s := s.setEff s.current (effFromLocks s s.current p)
  match s.ready with
  | [] => s
  | front :: _ => yieldTo s front

/-- `allocate_tid` takes and releases `tid_lock`. No thread is switched to in
    between, so nobody ever waits for that lock and what is left of the two
    calls is the recomputation in `lock_release`. -/
def allocateTid (s : Prio) : Prio :=
  s.setEff s.current (effFromLocks s s.current (s.priority s.current))

/-- `init_thread` on a fresh page. -/
def initThread (s : Prio) (t : Nat) (p : Int) : Prio :=
  { s with
    priority := update s.priority t p
    effPriority := update s.effPriority t p
    status := update s.status t .blocked
    waitingLock := update s.waitingLock t none
    heldLocks := update s.heldLocks t []
    todo := update s.todo t [] }

/-- `thread_create`; `init_thread` panics on a priority out of range. -/
def threadCreate (s : Prio) (t : Nat) (p : Int) : Option Prio :=
  if s.status t = .unused ∧ priMin ≤ p ∧ p ≤ priMax then
    (threadUnblock (allocateTid (initThread s t p)) t).map (yieldTo · t)
  else none

/-! ## Semaphores -/

/-- `sema_down` up to its first sleep. A thread that sleeps is still inside
    the call: it has `again` to do when it is chosen. -/
def semaDown (s : Prio) (m : Sema) (again : Instr) : Prio :=
  if s.value m = 0 then
    threadBlock ((s.setWaiters m (s.waiters m ++ [s.current])).setTodo s.current
      (again :: s.todo s.current))
  else s.setValue m (s.value m - 1)

def semaTryDown (s : Prio) (m : Sema) : Prio :=
  if 0 < s.value m then s.setValue m (s.value m - 1) else s

def semaUp (s : Prio) (m : Sema) : Option Prio :=
  match listMax s.effPriority (s.waiters m) with
  | none => some (s.setValue m (s.value m + 1))
  | some t =>
    (threadUnblock (s.setWaiters m ((s.waiters m).erase t)) t).map fun s =>
      yieldTo (s.setValue m (s.value m + 1)) t

/-! ## Locks -/

/-- Raises the effective priority of a thread to a donor's, and files it again
    where it is in the ready list. -/
def donate (s : Prio) (t : Nat) (p : Int) : Prio :=
  if s.status t = .ready then threadReinsertReady (s.setEff t p) t else s.setEff t p

/-- The `while` loop of `lock_acquire`, which hands a donation on from the thread that received it
    to the holder of the lock that thread waits for. It ends with a thread that waits for no lock or
    for a lock nobody holds; `none` is a loop that has not ended after `turns` turns. -/
def donateChain : Nat → Prio → Nat → Option Prio
  | 0, _, _ => none
  | turns + 1, s, h =>
    match (s.waitingLock h).bind s.holder with
    | none => some s
    | some n =>
      donateChain turns
        (if s.effPriority n < s.effPriority h then donate s n (s.effPriority h) else s) n

/-- The end of `lock_acquire` and of `lock_try_acquire`: the lock is ours. -/
def takeLock (s : Prio) (l : Nat) : Prio :=
  { s with
    holder := update s.holder l (some s.current)
    heldLocks := update s.heldLocks s.current (s.heldLocks s.current ++ [l]) }

/-- `lock_acquire` from its `sema_down` on. -/
def lockSleep (s : Prio) (l : Nat) : Prio :=
  if s.value (.lock l) = 0 then semaDown s (.lock l) (.lockSleep l)
  else (takeLock (semaDown s (.lock l) (.lockSleep l)) l).setWaitingLock s.current none

/-- The donation at the head of `lock_acquire`. -/
def donateTo (turns : Nat) (s : Prio) (l : Nat) : Option Prio :=
  match s.holder l with
  | none => some s
  | some h =>
    if s.effPriority h < s.effPriority s.current then
      donateChain turns (donate s h (s.effPriority s.current)) h
    else some s

def lockAcquire (turns : Nat) (s : Prio) (l : Nat) : Option Prio :=
  if s.holder l = some s.current then none
  else (donateTo turns (s.setWaitingLock s.current (some l)) l).map (lockSleep · l)

def lockTryAcquire (s : Prio) (l : Nat) : Option Prio :=
  if s.holder l = some s.current then none
  else if 0 < s.value (.lock l) then some (takeLock (semaTryDown s (.lock l)) l)
  else some s

/-- `lock_release` up to its `sema_up`. -/
def dropLock (s : Prio) (l : Nat) : Prio :=
  let s := { s with heldLocks := update s.heldLocks s.current
                                   ((s.heldLocks s.current).erase l) }
  let s := s.setEff s.current (effFromLocks s s.current (s.priority s.current))
  { s with holder := update s.holder l none }

def lockRelease (s : Prio) (l : Nat) : Option Prio :=
  if s.holder l = some s.current then semaUp (dropLock s l) (.lock l) else none

/-! ## Conditions -/

/-- The head of `cond_wait`: a fresh semaphore for the running thread, filed with the condition. -/
def condPush (s : Prio) (c l : Nat) : Option Prio :=
  if s.holder l = some s.current then
    some { s with
      value := update s.value (.waiter s.current) 0
      waiters := update s.waiters (.waiter s.current) []
      conds := update s.conds c (s.conds c ++ [s.current]) }
  else none

/-- The effective priority that `cond_sema_priority_less` reads for a waiter of
    a condition: that of the first thread asleep on its semaphore. -/
def condPriority (s : Prio) (t : Nat) : Option Int :=
  (s.waiters (.waiter t)).head?.map s.effPriority

/-- `list_max` over the waiters of a condition. As soon as there are two of them every one is
    compared, and `list_front` panics on a semaphore that nobody sleeps on. -/
def condMax (s : Prio) : List Nat → Option Nat
  | [] => none
  | [t] => some t
  | ts => if ts.all (fun t => (condPriority s t).isSome) then
             listMax (fun t => (condPriority s t).getD 0) ts
           else none

/-- `cond_signal` up to the `sema_up` that ends it. -/
def condSignal (s : Prio) (c l : Nat) : Option Prio :=
  if s.holder l = some s.current then
    match s.conds c with
    | [] => some s
    | ws =>
      (condMax s ws).map fun t =>
        { s.setTodo s.current (.waiterUp t :: s.todo s.current) with
          conds := update s.conds c (ws.erase t) }
  else none

/-- One test of the loop of `cond_broadcast`. -/
def condBroadcast (s : Prio) (c l : Nat) : Prio :=
  match s.conds c with
  | [] => s
  | _ => s.setTodo s.current (.condSignal c l :: .condBroadcast c l :: s.todo s.current)

/-! ## The system -/

/-- The calls of a running thread. -/
inductive Op where
  | threadCreate (t : Nat) (p : Int)
  | threadYield
  | threadSetPriority (p : Int)
  | semaDown (i : Nat)
  | semaTryDown (i : Nat)
  | semaUp (i : Nat)
  | lockAcquire (l : Nat)
  | lockTryAcquire (l : Nat)
  | lockRelease (l : Nat)
  | condWait (c l : Nat)
  | condSignal (c l : Nat)
  | condBroadcast (c l : Nat)
  deriving DecidableEq, Repr

def Op.body : Op → List Instr
  | .threadCreate t p => [.create t p]
  | .threadYield => [.yield]
  | .threadSetPriority p => [.setPriority p]
  | .semaDown i => [.semaDown i]
  | .semaTryDown i => [.semaTryDown i]
  | .semaUp i => [.semaUp i]
  | .lockAcquire l => [.lockAcquire l]
  | .lockTryAcquire l => [.lockTryAcquire l]
  | .lockRelease l => [.lockRelease l]
  | .condWait c l => [.condPush c l, .lockRelease l, .waiterDown, .lockAcquire l]
  | .condSignal c l => [.condSignal c l]
  | .condBroadcast c l => [.condBroadcast c l]

/-- What a primitive does. `turns` bounds the turns of the donation loop. -/
def perform (turns : Nat) (s : Prio) : Instr → Option Prio
  | .create t p => threadCreate s t p
  | .yield => some (threadYield s)
  | .setPriority p => some (threadSetPriority s p)
  | .semaDown i => some (semaDown s (.user i) (.semaDown i))
  | .semaTryDown i => some (semaTryDown s (.user i))
  | .semaUp i => semaUp s (.user i)
  | .lockAcquire l => lockAcquire turns s l
  | .lockSleep l => some (lockSleep s l)
  | .lockTryAcquire l => lockTryAcquire s l
  | .lockRelease l => lockRelease s l
  | .condPush c l => condPush s c l
  | .waiterDown => some (semaDown s (.waiter s.current) .waiterDown)
  | .condSignal c l => condSignal s c l
  | .waiterUp t => semaUp s (.waiter t)
  | .condBroadcast c l => some (condBroadcast s c l)

/-- A step: the running thread makes a call, or goes on with the calls it is
    inside of. Every run of the code in which the donation loops end is a run
    of these steps with enough turns for each of them. -/
inductive Step where
  | call (op : Op)
  | go (turns : Nat)
  deriving DecidableEq, Repr

/-- The idle thread makes no calls: without interrupts it runs forever. -/
def step (s : Prio) (a : Step) : Option Prio :=
  if s.current = s.idle then none
  else
    match a, s.todo s.current with
    | .call op, [] => some (s.setTodo s.current op.body)
    | .go turns, i :: is => perform turns (s.setTodo s.current is) i
    | _, _ => none

/-- After `thread_start`: the initial thread runs, the idle thread is blocked.
    `values` are the values the program's semaphores are made with. -/
def booted (values : Nat → Nat) : Prio where
  priority t := if t = 2 then priMin else priDefault
  effPriority t := if t = 2 then priMin else priDefault
  status t := if t = 1 then .running else if t = 2 then .blocked else .unused
  waitingLock _ := none
  heldLocks _ := []
  todo _ := []
  value
    | .user i => values i
    | .lock _ => 1
    | .waiter _ => 0
  waiters _ := []
  holder _ := none
  conds _ := []
  ready := []
  current := 1
  idle := 2
  stamp _ := 0
  clock := 0

/-! ## Where the threads are -/

/-- The lists and links agree. `run` is the running thread; in the middle of a
    switch there is none. -/
structure Shape (run : Option Nat) (s : Prio) : Prop where
  ready_iff : ∀ t, t ∈ s.ready ↔ s.status t = .ready
  ready_nodup : s.ready.Nodup
  running : ∀ c, run = some c → s.status c = .running
  blocked : ∀ m u, u ∈ s.waiters m → s.status u = .blocked
  once : ∀ m m' u, u ∈ s.waiters m → u ∈ s.waiters m' → m = m'
  nodup : ∀ m, (s.waiters m).Nodup
  held_iff : ∀ t l, l ∈ s.heldLocks t ↔ s.holder l = some t
  held_nodup : ∀ t, (s.heldLocks t).Nodup
  value_le : ∀ l, s.value (.lock l) ≤ 1
  value_held : ∀ l t, s.holder l = some t → s.value (.lock l) = 0
  waits_for : ∀ l u, u ∈ s.waiters (.lock l) → s.waitingLock u = some l
  waiting : ∀ u l, s.waitingLock u = some l →
    u ∈ s.waiters (.lock l) ∨ s.status u = .ready ∨ run = some u
  sleeping : ∀ u l, run ≠ some u →
    (s.waitingLock u = some l ↔ (s.todo u).head? = some (.lockSleep l))
  tails : ∀ u l, .lockSleep l ∉ (s.todo u).tail
  unused : ∀ t, s.status t = .unused → s.heldLocks t = [] ∧ s.waitingLock t = none
  idle_free : ∀ m, s.idle ∉ s.waiters m
  idle_used : s.status s.idle ≠ .unused ∧ s.status s.idle ≠ .ready

section Moves

variable {run : Option Nat} {s : Prio} {c : Nat}

theorem Shape.not_waiter (h : Shape (some c) s) : c ∉ s.waiters m := by
  intro hm
  have hb := h.blocked m c hm
  rw [h.running c rfl] at hb
  exact nomatch hb

theorem Shape.not_ready (h : Shape (some c) s) : c ∉ s.ready := by
  intro hr
  have hs := (h.ready_iff c).mp hr
  rw [h.running c rfl] at hs
  exact nomatch hs

theorem Shape.not_ready_of_waiter (h : Shape run s) (ht : t ∈ s.waiters m) : t ∉ s.ready := by
  intro hr
  have hb := h.blocked m t ht
  rw [(h.ready_iff t).mp hr] at hb
  exact nomatch hb

theorem Shape.not_waiter_of_unused (h : Shape run s) (ht : s.status t = .unused) (m : Sema) :
    t ∉ s.waiters m := by
  intro hm
  have hb := h.blocked m t hm
  rw [ht] at hb
  exact nomatch hb

/-- A waiter of a semaphore that belongs to no lock waits for no lock. -/
theorem Shape.waitingLock_none (h : Shape run s) (ht : t ∈ s.waiters m)
    (hm : ∀ l, m ≠ .lock l) (hrun : run ≠ some t) : s.waitingLock t = none := by
  rcases hw : s.waitingLock t with _ | l
  · rfl
  · have hb := h.blocked m t ht
    rcases h.waiting t l hw with h1 | h1 | h1
    · exact absurd (h.once _ _ t ht h1) (hm l)
    · rw [hb] at h1; exact nomatch h1
    · exact absurd h1 hrun

/-- A thread that waits for no lock is not inside `sema_down` of one. -/
theorem Shape.quiet (h : Shape run s) (hrun : run ≠ some t)
    (hw : s.waitingLock t = none) : ∀ l, .lockSleep l ∉ s.todo t := by
  intro l hl
  have hs := h.sleeping t l hrun
  have ht := h.tails t l
  rw [hw] at hs
  cases hd : s.todo t with
  | nil => rw [hd] at hl; exact nomatch hl
  | cons i is =>
    rw [hd] at hl hs ht
    rcases List.mem_cons.mp hl with rfl | hl
    · exact nomatch hs.mpr rfl
    · exact ht hl

theorem Shape.setEff {p : Int} (h : Shape run s) : Shape run (s.setEff t p) :=
  { h with }

theorem Shape.setTodo {is : List Instr} (h : Shape (some c) s)
    (his : ∀ l, .lockSleep l ∉ is.tail) : Shape (some c) (s.setTodo c is) := by
  refine { h with sleeping := ?_, tails := ?_ }
  all_goals simp only [Prio.setTodo, update_apply]
  · grind [h.sleeping]
  · grind [h.tails]

/-- The value of a semaphore outside the locks is free; that of a lock follows its holder. -/
theorem Shape.setValue {v : Nat} (h : Shape run s)
    (hv : ∀ l, m = .lock l → v ≤ 1 ∧ (s.holder l ≠ none → v = 0)) :
    Shape run (s.setValue m v) := by
  refine { h with value_le := ?_, value_held := ?_ }
  all_goals simp only [Prio.setValue, update_apply]
  · intro l
    have hl := h.value_le l
    grind
  · grind [h.value_held]

theorem Shape.setWaitingLock {o : Option Nat} (h : Shape (some c) s) :
    Shape (some c) (s.setWaitingLock c o) := by
  have hc := h.running c rfl
  have hnw : ∀ m, c ∉ s.waiters m := fun m => h.not_waiter
  refine { h with waits_for := ?_, waiting := ?_, sleeping := ?_, unused := ?_ }
  all_goals simp only [Prio.setWaitingLock, update_apply]
  · grind [h.waits_for]
  · grind [h.waiting]
  · grind [h.sleeping]
  · grind [h.unused]

/-- Clearing the waiter list of a semaphore outside the locks. -/
theorem Shape.clearWaiters (h : Shape run s) : Shape run (s.setWaiters (.waiter t) []) := by
  refine { h with blocked := ?_, once := ?_, nodup := ?_, waits_for := ?_, waiting := ?_
                  idle_free := ?_ }
  all_goals simp only [Prio.setWaiters, update_apply]
  · grind [h.blocked]
  · grind [h.once]
  · grind [h.nodup]
  · grind [h.waits_for]
  · grind [h.waiting]
  · grind [h.idle_free]

theorem Shape.donate {p : Int} (h : Shape run s) : Shape run (donate s t p) := by
  unfold MavPrio.donate
  split
  case isFalse => exact h.setEff
  case isTrue hr =>
    -- the list is only reordered
    have hperm : (threadReinsertReady (s.setEff t p) t).ready.Perm s.ready :=
      (perm_insertOrdered _ t _).trans (List.perm_cons_erase ((h.ready_iff t).mpr hr)).symm
    exact { h with
      ready_iff := fun u => hperm.mem_iff.trans (h.ready_iff u)
      ready_nodup := hperm.nodup_iff.mpr h.ready_nodup }

/-- A thread asleep in a semaphore is in its waiter list and nowhere else. -/
theorem Shape.block {i : Instr} {is : List Instr} (h : Shape (some c) s)
    (hidle : c ≠ s.idle) (hm : ∀ l, m = .lock l ↔ s.waitingLock c = some l)
    (hi : ∀ l, m = .lock l ↔ i = .lockSleep l) (his : ∀ l, .lockSleep l ∉ is) :
    Shape none (((s.setWaiters m (s.waiters m ++ [c])).setTodo c (i :: is)).setStatus c
      .blocked) := by
  have hc := h.running c rfl
  have hnw : ∀ m, c ∉ s.waiters m := fun m => h.not_waiter
  refine { h with
    ready_iff := ?_, running := ?_, blocked := ?_, once := ?_, nodup := ?_, waits_for := ?_
    waiting := ?_, sleeping := ?_, tails := ?_, unused := ?_, idle_free := ?_, idle_used := ?_ }
  all_goals simp only [Prio.setWaiters, Prio.setTodo, Prio.setStatus, update_apply]
  · grind [h.ready_iff]
  · grind
  · grind [h.blocked]
  · grind [h.once]
  · grind [h.nodup]
  · grind [h.waits_for]
  · grind [h.waiting]
  · grind [h.sleeping]
  · grind [h.tails]
  · grind [h.unused]
  · grind [h.idle_free]
  · grind [h.idle_used]

/-- A thread that waits for no lock, and is not inside `sema_down` of one. -/
theorem waits_iff_of_quiet (hw : s.waitingLock t = none) (hq : ∀ l, .lockSleep l ∉ s.todo t) :
    ∀ l, s.waitingLock t = some l ↔ (s.todo t).head? = some (.lockSleep l) := by
  intro l
  rw [hw]
  exact ⟨nofun, fun e => absurd (List.mem_of_head? e) (hq l)⟩

/-- A thread in no list enters the ready list: the running thread that yields, or a new thread. -/
theorem Shape.enqueued {run' : Option Nat} (h : Shape run s) (ht : t ∉ s.ready) (hidle : t ≠ s.idle)
    (hhead : ∀ l, s.waitingLock t = some l ↔ (s.todo t).head? = some (.lockSleep l))
    (hnw : ∀ m, t ∉ s.waiters m)
    (hrun : run' = run ∧ run ≠ some t ∨ run' = none ∧ run = some t) :
    Shape run' ((threadEnqueue s t).setStatus t .ready) := by
  refine { h with
    ready_iff := ?_, ready_nodup := ?_, running := ?_, blocked := ?_, waiting := ?_
    sleeping := ?_, unused := ?_, idle_used := ?_ }
  · intro u
    refine mem_insertOrdered.trans ?_
    simp only [Prio.setStatus, threadEnqueue, update_apply]
    grind [h.ready_iff]
  · exact (perm_insertOrdered _ t _).nodup_iff.mpr (List.nodup_cons.mpr ⟨ht, h.ready_nodup⟩)
  all_goals simp only [Prio.setStatus, threadEnqueue, update_apply]
  · grind [h.running]
  · grind [h.blocked]
  · grind [h.waiting]
  · intro u l _
    by_cases hu : u = t
    · subst hu
      exact hhead l
    · exact h.sleeping u l (by grind)
  · grind [h.unused]
  · grind [h.idle_used]

/-- A waiter is moved to the ready list. -/
theorem Shape.wake (h : Shape run s) (ht : t ∈ s.waiters m) (hrun : run ≠ some t) :
    Shape run ((threadEnqueue (s.setWaiters m ((s.waiters m).erase t)) t).setStatus t .ready) := by
  have hb := h.blocked m t ht
  have hidle : t ≠ s.idle := fun e => h.idle_free m (e ▸ ht)
  have hnr := h.not_ready_of_waiter ht
  have hmem : ∀ m' u, u ∈ (if m' = m then (s.waiters m).erase t else s.waiters m') ↔
      u ≠ t ∧ u ∈ s.waiters m' := by
    intro m' u
    have hd := h.nodup m
    by_cases hm : m' = m
    · subst hm
      rw [if_pos rfl, hd.mem_erase_iff]
    · rw [if_neg hm]
      exact ⟨fun hu => ⟨fun e => hm (h.once _ _ t (e ▸ hu) ht), hu⟩, And.right⟩
  refine { h with
    ready_iff := ?_, ready_nodup := ?_, running := ?_, blocked := ?_, once := ?_, nodup := ?_
    waits_for := ?_, waiting := ?_, unused := ?_, idle_free := ?_, idle_used := ?_ }
  · intro u
    refine mem_insertOrdered.trans ?_
    simp only [Prio.setStatus, Prio.setWaiters, threadEnqueue, update_apply]
    grind [h.ready_iff]
  · exact (perm_insertOrdered _ t _).nodup_iff.mpr (List.nodup_cons.mpr ⟨hnr, h.ready_nodup⟩)
  all_goals simp only [Prio.setStatus, Prio.setWaiters, threadEnqueue, update_apply, hmem]
  · grind [h.running]
  · grind [h.blocked]
  · grind [h.once]
  · intro m'
    split
    · exact (h.nodup m).erase t
    · exact h.nodup m'
  · grind [h.waits_for]
  · grind [h.waiting]
  · grind [h.unused]
  · grind [h.idle_free]
  · grind [h.idle_used]

theorem Shape.initThread {p : Int} (h : Shape run s) (ht : s.status t = .unused) :
    Shape run (initThread s t p) := by
  have hnw := h.not_waiter_of_unused ht
  refine { h with
    ready_iff := ?_, running := ?_, blocked := ?_, held_iff := ?_, held_nodup := ?_
    waits_for := ?_, waiting := ?_, sleeping := ?_, tails := ?_, unused := ?_, idle_used := ?_ }
  all_goals simp only [MavPrio.initThread, update_apply]
  · grind [h.ready_iff]
  · grind [h.running]
  · grind [h.blocked]
  · intro u l
    have hi := h.held_iff u l
    have hu := (h.unused t ht).1
    grind
  · grind [h.held_nodup]
  · grind [h.waits_for]
  · grind [h.waiting]
  · grind [h.sleeping]
  · grind [h.tails]
  · grind [h.unused]
  · grind [h.idle_used]

theorem Shape.takeLock {l : Nat} (h : Shape (some s.current) s) (hl : s.holder l = none)
    (hv : s.value (.lock l) = 0) : Shape (some s.current) (takeLock s l) := by
  have hc := h.running _ rfl
  have hfree : ∀ t, l ∉ s.heldLocks t := fun t ht => by
    rw [(h.held_iff t l).mp ht] at hl
    exact nomatch hl
  refine { h with held_iff := ?_, held_nodup := ?_, value_held := ?_, unused := ?_ }
  all_goals simp only [MavPrio.takeLock, update_apply]
  · grind [h.held_iff]
  · grind [h.held_nodup]
  · grind [h.value_held]
  · grind [h.unused]

theorem Shape.dropLock {l : Nat} (h : Shape (some s.current) s)
    (hl : s.holder l = some s.current) : Shape (some s.current) (dropLock s l) := by
  have hd := h.held_nodup s.current
  refine { h with held_iff := ?_, held_nodup := ?_, value_held := ?_, unused := ?_ }
  all_goals simp only [MavPrio.dropLock, Prio.setEff, update_apply]
  · intro t l'
    have hi := h.held_iff t l'
    by_cases ht : t = s.current
    · grind
    · grind
  · intro t
    split
    · exact hd.erase l
    · exact h.held_nodup t
  · grind [h.value_held]
  · grind [h.unused]

theorem schedule_cases (s : Prio) :
    (s.ready = [] ∧ schedule s = { s.setStatus s.idle .running with current := s.idle }) ∨
    (∃ t r, s.ready = t :: r ∧
      schedule s = { s.setStatus t .running with ready := r, current := t }) := by
  unfold schedule
  cases hr : s.ready with
  | nil => exact Or.inl ⟨rfl, rfl⟩
  | cons t r => exact Or.inr ⟨t, r, rfl, rfl⟩

theorem Shape.schedule (h : Shape none s) :
    Shape (some (schedule s).current) (schedule s) := by
  rcases schedule_cases s with ⟨hr, heq⟩ | ⟨t, r, hr, heq⟩
  · rw [heq]
    refine { h with
      ready_iff := ?_, running := ?_, blocked := ?_, waiting := ?_, sleeping := ?_
      unused := ?_, idle_used := ?_ }
    all_goals simp only [Prio.setStatus, update_apply]
    · grind [h.ready_iff]
    · grind
    · grind [h.blocked, h.idle_free]
    · grind [h.waiting]
    · grind [h.sleeping]
    · grind [h.unused]
    · grind
  · rw [heq]
    have hnd : (t :: r).Nodup := hr ▸ h.ready_nodup
    have hmem : ∀ u, u ∈ t :: r ↔ s.status u = .ready := fun u => hr ▸ h.ready_iff u
    have ht := (hmem t).mp (List.mem_cons_self ..)
    refine { h with
      ready_iff := ?_, ready_nodup := (List.nodup_cons.mp hnd).2, running := ?_, blocked := ?_
      waiting := ?_, sleeping := ?_, unused := ?_, idle_used := ?_ }
    all_goals simp only [Prio.setStatus, update_apply]
    · grind
    · grind
    · grind [h.blocked]
    · grind [h.waiting]
    · grind [h.sleeping]
    · grind [h.unused]
    · grind [h.idle_used]

end Moves

end MavPrio
