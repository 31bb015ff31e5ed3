import Maverick.PrioProofs

/-! # Rules — what a primitive can do to the priorities

Every primitive is a short sequence of moves: the running thread recomputes its effective priority,
a thread enters the ready list, falls asleep or takes a lock, a donation is handed on, the next
thread is chosen. `Rules` says that an invariant survives each of these moves; `Rules.step`
concludes that it survives every step of the system.

The parameter `g` asks for more than the code guarantees: under it the moves that take a lock past
its waiters, go back to sleep on it or pass a donation through a thread that is awake are restricted
as in `Undisturbed`. -/

namespace MavPrio

open MavQueue MavRun List Option
open Function (update update_self update_of_ne update_eq_self)

/-! ## Effective priorities from the held locks -/

/-- `e` is the effective priority that thread `c` is due with base priority
    `p`: the largest of `p` and its waiters' effective priorities. -/
structure Due (s : Prio) (c : Nat) (p e : Int) : Prop where
  base : p ≤ e
  waiter : ∀ l u, s.holder l = some c → u ∈ s.waiters (.lock l) → s.effPriority u ≤ e
  attained : e = p ∨ ∃ l u, s.holder l = some c ∧ u ∈ s.waiters (.lock l) ∧ s.effPriority u = e

/-- One turn of the loop over the held locks. -/
def maxWaiter (s : Prio) (m : Int) (l : Nat) : Int :=
  match listMax s.effPriority (s.waiters (.lock l)) with
  | none => m
  | some u => if m < s.effPriority u then s.effPriority u else m

theorem maxWaiter_spec (s : Prio) (m : Int) (l : Nat) :
    m ≤ maxWaiter s m l ∧ (∀ u ∈ s.waiters (.lock l), s.effPriority u ≤ maxWaiter s m l) ∧
      (maxWaiter s m l = m ∨ ∃ u ∈ s.waiters (.lock l), s.effPriority u = maxWaiter s m l) := by
  unfold maxWaiter
  cases hmax : listMax s.effPriority (s.waiters (.lock l)) with
  | none =>
    rw [listMax_eq_none.mp hmax]
    exact ⟨Int.le_refl m, nofun, .inl rfl⟩
  | some w =>
    have hmem := listMax_mem hmax
    have hle := le_listMax hmax
    by_cases hlt : m < s.effPriority w
    · simp only [if_pos hlt]
      exact ⟨Int.le_of_lt hlt, hle, .inr ⟨w, hmem, rfl⟩⟩
    · simp only [if_neg hlt]
      exact ⟨Int.le_refl m, fun u hu => Int.le_trans (hle u hu) (Int.not_lt.mp hlt), .inl trivial⟩

/-- The loop finds the largest of the base priority and the waiters of the locks it walks over. -/
theorem foldl_maxWaiter_spec (s : Prio) (ls : List Nat) (p : Int) :
    p ≤ ls.foldl (maxWaiter s) p ∧
      (∀ l ∈ ls, ∀ u ∈ s.waiters (.lock l), s.effPriority u ≤ ls.foldl (maxWaiter s) p) ∧
      (ls.foldl (maxWaiter s) p = p ∨
        ∃ l ∈ ls, ∃ u ∈ s.waiters (.lock l), s.effPriority u = ls.foldl (maxWaiter s) p) := by
  induction ls generalizing p with
  | nil => exact ⟨Int.le_refl _, nofun, .inl rfl⟩
  | cons l ls ih =>
    obtain ⟨hge, hle, hatt⟩ := ih (maxWaiter s p l)
    obtain ⟨hge', hle', hatt'⟩ := maxWaiter_spec s p l
    refine ⟨Int.le_trans hge' hge,
      forall_mem_cons.mpr ⟨fun u hu => Int.le_trans (hle' u hu) hge, hle⟩, ?_⟩
    rcases hatt with heq | ⟨l', hl', u, hu, heq⟩
    · rcases hatt' with heq' | ⟨u, hu, heq'⟩
      · exact .inl (heq.trans heq')
      · exact .inr ⟨l, mem_cons_self .., u, hu, heq'.trans heq.symm⟩
    · exact .inr ⟨l', mem_cons_of_mem _ hl', u, hu, heq⟩

/-- A new thread is due its base priority. -/
theorem Shape.due_unused {s : Prio} {run : Option Nat} {t : Nat} (h : Shape run s)
    (ht : s.status t = .unused) (p : Int) : Due s t p p := by
  refine ⟨Int.le_refl p, fun l u hl _ => ?_, .inl rfl⟩
  have hm := (h.held_iff t l).mpr hl
  rw [(h.unused t ht).1] at hm
  exact nomatch hm

theorem effFromLocks_due {s : Prio} {c : Nat} {p : Int}
    (hheld : ∀ l, l ∈ s.heldLocks c ↔ s.holder l = some c) : Due s c p (effFromLocks s c p) := by
  obtain ⟨hge, hle, hatt⟩ := foldl_maxWaiter_spec s (s.heldLocks c) p
  refine ⟨hge, fun l u hl hu => hle l ((hheld l).mpr hl) u hu, ?_⟩
  rcases hatt with h | ⟨l, hl, u, hu, h⟩
  · exact .inl h
  · exact .inr ⟨l, u, (hheld l).mp hl, hu, h⟩

/-! ## Undisturbed steps -/

/-- Every donation that the loop hands on comes from a thread that is blocked. -/
def chainBlocked : Nat → Prio → Nat → Prop
  | 0, _, _ => True
  | turns + 1, s, h =>
    match (s.waitingLock h).bind s.holder with
    | none => True
    | some n =>
      (s.effPriority n < s.effPriority h → s.status h = .blocked) ∧
      chainBlocked turns
        (if s.effPriority n < s.effPriority h then donate s n (s.effPriority h) else s) n

instance chainBlocked.decidable :
    (turns : Nat) → (s : Prio) → (h : Nat) → Decidable (chainBlocked turns s h)
  | 0, _, _ => isTrue trivial
  | turns + 1, s, h => by
    unfold chainBlocked
    exact match (s.waitingLock h).bind s.holder with
      | none => isTrue trivial
      | some _ =>
        let _ := chainBlocked.decidable turns
        instDecidableAnd

/-- The same of the whole donation in `lock_acquire`. -/
def lendBlocked (turns : Nat) (s : Prio) (l : Nat) : Prop :=
  ∀ h ∈ s.holder l, s.effPriority h < s.effPriority s.current →
    chainBlocked turns (donate s h (s.effPriority s.current)) h
deriving Decidable

/-- No thread asleep on the lock has a larger effective priority than the running thread. -/
def overtakesNone (s : Prio) (l : Nat) : Prop :=
  ∀ u ∈ s.waiters (.lock l), s.effPriority u ≤ s.effPriority s.current
deriving Decidable

/-- The primitive

    * takes a free lock only if no thread asleep on it has a larger effective priority;
    * goes back to sleep on a lock taken by another thread only if that thread has at least its
      effective priority;
    * hands on donations only from threads that are blocked. -/
def undisturbedBy (turns : Nat) (s : Prio) : Instr → Prop
  | .lockAcquire l =>
    (s.holder l = none → s.value (.lock l) ≠ 0 → overtakesNone s l) ∧
      lendBlocked turns (s.setWaitingLock s.current (some l)) l
  | .lockSleep l =>
    (s.value (.lock l) = 0 →
      ∀ h ∈ s.holder l, s.effPriority s.current ≤ s.effPriority h) ∧
      (s.value (.lock l) ≠ 0 → overtakesNone s l)
  | .lockTryAcquire l => s.value (.lock l) ≠ 0 → overtakesNone s l
  | _ => True

instance (turns : Nat) (s : Prio) (i : Instr) : Decidable (undisturbedBy turns s i) := by
  cases i <;> unfold undisturbedBy <;> infer_instance

/-- The same of the primitive that a step carries out. -/
def Undisturbed (s : Prio) : Step → Prop
  | .call _ => True
  | .go turns =>
    match s.todo s.current with
    | [] => True
    | i :: is => undisturbedBy turns (s.setTodo s.current is) i

instance (s : Prio) : (a : Step) → Decidable (Undisturbed s a)
  | .call _ => isTrue trivial
  | .go turns => by
    unfold Undisturbed
    exact match s.todo s.current with
      | [] => isTrue trivial
      | _ :: _ => inferInstance

/-! ## The moves -/

/-- The two states agree on what an invariant of the priorities reads. -/
structure Same (s s' : Prio) : Prop where
  priority : s'.priority = s.priority
  effPriority : s'.effPriority = s.effPriority
  status : s'.status = s.status
  waitingLock : s'.waitingLock = s.waitingLock
  holder : s'.holder = s.holder
  ready : s'.ready = s.ready
  stamp : s'.stamp = s.stamp
  clock : s'.clock = s.clock
  waiters : ∀ l, s'.waiters (.lock l) = s.waiters (.lock l)

theorem Same.refl (s : Prio) : Same s s :=
  ⟨rfl, rfl, rfl, rfl, rfl, rfl, rfl, rfl, fun _ => rfl⟩

/-- The thread goes to sleep on a semaphore. -/
def asleepOn (s : Prio) (c : Nat) (m : Sema) : Prio :=
  (s.setWaiters m (s.waiters m ++ [c])).setStatus c .blocked

/-- The thread enters the ready list. -/
def admitted (s : Prio) (t : Nat) : Prio := (threadEnqueue s t).setStatus t .ready

/-- The thread is taken from a waiter list into the ready list. -/
def woken (s : Prio) (m : Sema) (t : Nat) : Prio :=
  admitted (s.setWaiters m ((s.waiters m).erase t)) t

/-- An invariant `P run s`, with `run` the running thread if there is one, survives every move. -/
structure Rules (g : Prop) (P : Option Nat → Prio → Prop) : Prop where
  same {run s s'} : Same s s' → P run s → P run s'
  reset {s c p e} (holder' : Nat → Option Nat) : Shape (some c) s → P (some c) s →
    s.waitingLock c = none →
    (∀ l, holder' l = s.holder l ∨ (s.holder l = some c ∧ holder' l = none)) →
    Due { s with holder := holder' } c p e →
    P (some c) { s with holder := holder', priority := Function.update s.priority c p,
                        effPriority := Function.update s.effPriority c e }
  init {run s t p} : Shape run s → P run s → s.status t = .unused → P run (initThread s t p)
  enqueued {run s t} : Shape run s → P run s → t ∉ s.ready → s.waitingLock t = none →
    (∀ l, t ∉ s.waiters (.lock l)) → P (if run = some t then none else run) (admitted s t)
  doze {s c} : Shape (some c) s → P (some c) s → s.waitingLock c = none →
    P none (s.setStatus c .blocked)
  await {s c l} : Shape (some c) s → P (some c) s → s.waitingLock c = none →
    P (some c) (s.setWaitingLock c (some l))
  sleep {s c l} : Shape (some c) s → P (some c) s → s.waitingLock c = some l →
    (g → ∀ h, s.holder l = some h → s.effPriority c ≤ s.effPriority h) →
    P none (asleepOn s c (.lock l))
  wake {run s l t} : Shape run s → P run s → t ∈ s.waiters (.lock l) → s.holder l = none →
    run ≠ some t → P run (woken s (.lock l) t)
  take {s l} : Shape (some s.current) s → P (some s.current) s → s.holder l = none →
    (∀ l', s.waitingLock s.current = some l' → l' = l) → (g → overtakesNone s l) →
    P (some s.current) ((takeLock s l).setWaitingLock s.current none)
  lend {s s' turns l h} : Shape (some s.current) s → P (some s.current) s →
    s.waitingLock s.current = none → s.current ≠ s.idle → s.holder l = some h →
    donateTo turns (s.setWaitingLock s.current (some l)) l = some s' →
    (g → lendBlocked turns (s.setWaitingLock s.current (some l)) l) →
    P none (asleepOn s' s.current (.lock l))
  schedule {s} : Shape none s → P none s → P (some (schedule s).current) (schedule s)

/-- The invariant between two steps: the running thread is inside `sema_down`
    of a lock exactly where that is the next thing it does. -/
structure Keeps (P : Option Nat → Prio → Prop) (s : Prio) : Prop where
  shape : Shape (some s.current) s
  inv : P (some s.current) s
  head : ∀ l, s.waitingLock s.current = some l ↔
    (s.todo s.current).head? = some (.lockSleep l)

/-- The same inside a primitive, where the running thread waits for no lock. -/
structure Awake (P : Option Nat → Prio → Prop) (s : Prio) : Prop where
  shape : Shape (some s.current) s
  inv : P (some s.current) s
  waits : s.waitingLock s.current = none
  quiet : ∀ l, .lockSleep l ∉ s.todo s.current
  idle : s.current ≠ s.idle

variable {i : Instr} {l t turns : Nat} {m : Sema}

section Primitives

variable {g : Prop} {P : Option Nat → Prio → Prop} {s s' : Prio}

theorem Awake.keeps (h : Awake P s) : Keeps P s := by
  exact ⟨h.shape, h.inv, waits_iff_of_quiet h.waits h.quiet⟩

theorem Rules.keeps_schedule (R : Rules g P) (hs : Shape none s) (hp : P none s) :
    Keeps P (MavPrio.schedule s) := by
  refine ⟨hs.schedule, R.schedule hs hp, ?_⟩
  intro l
  rcases schedule_cases s with ⟨_, heq⟩ | ⟨t, r, _, heq⟩
  · rw [heq]
    exact hs.sleeping s.idle l nofun
  · rw [heq]
    exact hs.sleeping t l nofun

theorem threadUnblock_eq (h : threadUnblock s t = some s') :
    s.status t = .blocked ∧ s' = admitted s t := by
  obtain ⟨hb, rfl⟩ := of_guard h
  exact ⟨hb, rfl⟩

/-- What the running thread is due without the lock it releases. -/
theorem dropLock_due (h : Shape (some s.current) s) (hl : s.holder l = some s.current) :
    Due { s with holder := update s.holder l none } s.current
      (s.priority s.current) ((dropLock s l).effPriority s.current) := by
  have hd := effFromLocks_due (s := { s with
    holder := update s.holder l none
    heldLocks := update s.heldLocks s.current ((s.heldLocks s.current).erase l) })
    (p := s.priority s.current) ((h.dropLock hl).held_iff s.current)
  rw [show (dropLock s l).effPriority s.current = _ from update_self ..]
  exact { hd with }

section

variable (R : Rules g P) (h : Awake P s)

include R h

theorem Rules.yield : Keeps P (threadYield s) := by
  have hnw : ∀ m, s.current ∉ s.waiters m := fun m => h.shape.not_waiter
  have hp := R.enqueued h.shape h.inv h.shape.not_ready h.waits fun l => hnw _
  rw [if_pos rfl] at hp
  exact R.keeps_schedule
    (h.shape.enqueued h.shape.not_ready h.idle (waits_iff_of_quiet h.waits h.quiet) hnw
      (.inr ⟨rfl, rfl⟩)) hp

theorem Rules.yieldTo (t : Nat) : Keeps P (MavPrio.yieldTo s t) := by
  unfold MavPrio.yieldTo
  split
  · exact R.yield h
  · exact h.keeps

/-- The recomputation from the held locks. -/
theorem Rules.recompute (p : Int) :
    Awake P { s with
      priority := update s.priority s.current p
      effPriority := update s.effPriority s.current (effFromLocks s s.current p) } := by
  refine ⟨{ h.shape with }, ?_, h.waits, h.quiet, h.idle⟩
  exact R.reset s.holder h.shape h.inv h.waits (fun l => .inl rfl)
    (effFromLocks_due (h.shape.held_iff s.current))

theorem Rules.setPriority (p : Int) : Keeps P (threadSetPriority s p) := by
  have hA := R.recompute h p
  unfold threadSetPriority
  simp only
  split
  · exact hA.keeps
  · exact R.yieldTo hA _

theorem Rules.allocateTid : Awake P (allocateTid s) := by
  have hA := R.recompute h (s.priority s.current)
  rw [update_eq_self] at hA
  exact hA

theorem Rules.initThread {p : Int} (ht : s.status t = .unused) : Awake P (initThread s t p) := by
  have hne : s.current ≠ t := fun e => by
    have hc := h.shape.running _ rfl
    rw [e, ht] at hc
    exact nomatch hc
  refine ⟨h.shape.initThread ht, R.init h.shape h.inv ht, ?_, ?_, h.idle⟩
  · exact (update_of_ne hne ..).trans h.waits
  · intro l
    rw [show (MavPrio.initThread s t p).todo (MavPrio.initThread s t p).current = s.todo s.current
      from update_of_ne hne ..]
    exact h.quiet l

/-- A blocked thread that is in no list enters the ready list. -/
theorem Rules.admitted (hb : s.status t = .blocked)
    (hidle : t ≠ s.idle) (hw : s.waitingLock t = none) (hnw : ∀ m, t ∉ s.waiters m) :
    Awake P (admitted s t) := by
  have hne : some s.current ≠ some t := fun e => by
    have hc := h.shape.running _ rfl
    rw [some.inj e, hb] at hc
    exact nomatch hc
  have hnr : t ∉ s.ready := fun hr => by
    rw [(h.shape.ready_iff t).mp hr] at hb
    exact nomatch hb
  have hp := R.enqueued h.shape h.inv hnr hw fun l => hnw _
  rw [if_neg hne] at hp
  exact ⟨h.shape.enqueued hnr hidle (waits_iff_of_quiet hw (h.shape.quiet hne hw)) hnw
      (.inl ⟨rfl, hne⟩), hp, h.waits,
    h.quiet, h.idle⟩

theorem Rules.create {p : Int} (hc : threadCreate s t p = some s') : Keeps P s' := by
  obtain ⟨hg, hc⟩ := ite_none_right_eq_some.mp hc
  obtain ⟨s1, hs1, rfl⟩ := map_eq_some_iff.mp hc
  obtain ⟨hb, rfl⟩ := threadUnblock_eq hs1
  have hA := R.allocateTid (R.initThread h (p := p) hg.1)
  have hnw := h.shape.not_waiter_of_unused hg.1
  refine R.yieldTo (R.admitted hA hb ?_ (update_self ..) hnw) t
  intro e
  exact h.shape.idle_used.1 ((congrArg s.status e).symm.trans hg.1)

/-- Values of semaphores, calls still to make and waiters of conditions are not read. -/
theorem Rules.silent (hsame : Same s s')
    (hshape : Shape (some s.current) s') (hcur : s'.current = s.current)
    (hquiet : ∀ l, .lockSleep l ∉ s'.todo s.current) (hidle : s'.idle = s.idle) : Awake P s' := by
  refine ⟨?_, ?_, ?_, ?_, ?_⟩
  · rw [hcur]; exact hshape
  · rw [hcur]; exact R.same hsame h.inv
  · rw [hcur, hsame.waitingLock]; exact h.waits
  · rw [hcur]; exact hquiet
  · rw [hcur, hidle]; exact h.idle

theorem Rules.setValue {v : Nat}
    (hv : ∀ l, m = .lock l → v ≤ 1 ∧ (s.holder l ≠ none → v = 0)) : Awake P (s.setValue m v) :=
  R.silent h { Same.refl s with } (h.shape.setValue hv) rfl h.quiet rfl

theorem Rules.setTodo (is : List Instr)
    (his : ∀ l, .lockSleep l ∉ is) : Awake P (s.setTodo s.current is) := by
  refine R.silent h { Same.refl s with }
    (h.shape.setTodo fun l hl => his l (mem_of_mem_tail hl)) rfl ?_ rfl
  intro l
  rw [show (s.setTodo s.current is).todo s.current = is from update_self ..]
  exact his l

/-- Sleeping on a semaphore outside the locks. -/
theorem Rules.semaDown (hm : ∀ l, m ≠ .lock l)
    (hi : ∀ l, i ≠ .lockSleep l) : Keeps P (semaDown s m i) := by
  unfold MavPrio.semaDown
  split
  case isTrue =>
    refine R.keeps_schedule (h.shape.block h.idle ?_ ?_ h.quiet) ?_
    · intro l
      refine ⟨fun hl => absurd hl (hm l), fun hl => ?_⟩
      rw [h.waits] at hl
      exact nomatch hl
    · exact fun l => ⟨fun hl => absurd hl (hm l), fun hl => absurd hl (hi l)⟩
    · refine R.same ?_ (R.doze h.shape h.inv h.waits)
      exact { Same.refl (s.setStatus s.current .blocked) with
        waiters := fun l => update_of_ne (fun e => hm l e.symm) .. }
  case isFalse => exact (R.setValue h fun l hl => absurd hl (hm l)).keeps

theorem Rules.semaTryDown (hm : ∀ l, m ≠ .lock l) : Awake P (semaTryDown s m) := by
  unfold MavPrio.semaTryDown
  split
  · exact R.setValue h fun l hl => absurd hl (hm l)
  · exact h

/-- A waiter goes to the ready list; if it waits for a lock, that lock is free. -/
theorem Rules.woken (ht : t ∈ s.waiters m)
    (hfree : ∀ l, m = .lock l → s.holder l = none) : Awake P (woken s m t) := by
  have hne : some s.current ≠ some t := fun e =>
    h.shape.not_waiter (m := m) (some.inj e ▸ ht)
  refine ⟨h.shape.wake ht hne, ?_, h.waits, h.quiet, h.idle⟩
  by_cases hm : ∃ l, m = .lock l
  · obtain ⟨l, rfl⟩ := hm
    exact R.wake h.shape h.inv ht (hfree l rfl) hne
  -- outside the locks the waiter lists are not read: the thread is simply admitted
  have hm' : ∀ l, m ≠ .lock l := fun l e => hm ⟨l, e⟩
  have hp := R.enqueued h.shape h.inv (h.shape.not_ready_of_waiter ht)
    (h.shape.waitingLock_none ht hm' hne)
    fun l hl => hm' l (h.shape.once _ _ t ht hl)
  rw [if_neg hne] at hp
  have hsame : Same (MavPrio.admitted s t) (MavPrio.woken s m t) :=
    { Same.refl (MavPrio.admitted s t) with
      waiters := fun l => s.waiters_setWaiters_ne _ fun e => hm' l e.symm }
  exact R.same hsame hp

theorem Rules.semaUp (hfree : ∀ l, m = .lock l → s.holder l = none ∧ s.value m = 0)
    (hu : semaUp s m = some s') : Keeps P s' := by
  have hv : ∀ l, m = .lock l → s.value m + 1 ≤ 1 ∧ (s.holder l ≠ none → s.value m + 1 = 0) :=
    fun l hl => ⟨by rw [(hfree l hl).2], fun hne => absurd (hfree l hl).1 hne⟩
  unfold MavPrio.semaUp at hu
  split at hu
  · obtain rfl := some.inj hu
    exact (R.setValue h hv).keeps
  · rename_i t ht
    obtain ⟨s1, hs1, rfl⟩ := map_eq_some_iff.mp hu
    obtain ⟨_, rfl⟩ := threadUnblock_eq hs1
    exact R.yieldTo (R.setValue (R.woken h (listMax_mem ht) fun l hl => (hfree l hl).1) hv) t

/-! ## Locks -/

/-- `lock_release` up to its `sema_up`: the running thread is due what its other locks give it. -/
theorem Rules.dropLock (hl : s.holder l = some s.current) : Awake P (dropLock s l) := by
  refine ⟨h.shape.dropLock hl, ?_, h.waits, h.quiet, h.idle⟩
  have hp := R.reset (update s.holder l none) h.shape h.inv h.waits (fun l' => ?_)
    (dropLock_due h.shape hl)
  · refine R.same ?_ hp
    refine ⟨(update_eq_self ..).symm, ?_, rfl, rfl, rfl, rfl, rfl, rfl, fun _ => rfl⟩
    show update _ _ _ = update _ _ (update _ _ _ _)
    rw [update_self]
  · by_cases hll : l' = l
    · subst hll
      exact .inr ⟨hl, update_self ..⟩
    · exact .inl (update_of_ne hll ..)

theorem Rules.lockRelease (hr : lockRelease s l = some s') : Keeps P s' := by
  obtain ⟨hl, hr⟩ := ite_none_right_eq_some.mp hr
  refine R.semaUp (R.dropLock h hl) ?_ hr
  rintro l' ⟨⟩
  exact ⟨update_self .., h.shape.value_held l _ hl⟩

end

/-- Taking a free lock. -/
theorem Rules.takeLock (R : Rules g P) (hs : Shape (some s.current) s) (hp : P (some s.current) s)
    (hquiet : ∀ l, .lockSleep l ∉ s.todo s.current) (hidle : s.current ≠ s.idle) (hw : ∀ l', s.waitingLock s.current = some l' → l' = l)
    (hv : s.value (.lock l) ≠ 0) (hg : g → overtakesNone s l) :
    Awake P ((MavPrio.takeLock (s.setValue (.lock l) (s.value (.lock l) - 1)) l).setWaitingLock
      s.current none) := by
  have hfree : s.holder l = none := by
    rcases hh : s.holder l with _ | t
    · rfl
    · exact absurd (hs.value_held l t hh) hv
  have hv1 := hs.value_le l
  have hs1 : Shape (some s.current) (s.setValue (.lock l) (s.value (.lock l) - 1)) := by
    refine hs.setValue ?_
    rintro l' ⟨⟩
    exact ⟨by omega, fun hne => absurd hfree hne⟩
  have hp1 : P (some s.current) (s.setValue (.lock l) (s.value (.lock l) - 1)) :=
    R.same (s := s) { Same.refl s with } hp
  have hv2 : (s.setValue (.lock l) (s.value (.lock l) - 1)).value (.lock l) = 0 :=
    (update_self ..).trans (by omega)
  refine ⟨(Shape.takeLock (s := s.setValue ..) hs1 hfree hv2).setWaitingLock, ?_,
    update_self .., hquiet, hidle⟩
  exact R.take (s := s.setValue ..) hs1 hp1 hfree hw hg

/-- Falling asleep on a lock, once the donation is done. -/
theorem Rules.keeps_asleep (R : Rules g P) (hs : Shape (some s.current) s)
    (hquiet : ∀ l, .lockSleep l ∉ s.todo s.current)
    (hidle : s.current ≠ s.idle) (hw : s.waitingLock s.current = some l)
    (hv : s.value (.lock l) = 0) (hp : P none (asleepOn s s.current (.lock l))) :
    Keeps P (MavPrio.lockSleep s l) := by
  unfold MavPrio.lockSleep MavPrio.semaDown
  rw [if_pos hv, if_pos hv]
  refine R.keeps_schedule (hs.block hidle ?_ ?_ hquiet) ?_
  · intro l'
    rw [hw]
    simp
  · simp
  · exact R.same { Same.refl (asleepOn s s.current (.lock l)) with } hp

theorem Rules.lockSleep (R : Rules g P) (hs : Shape (some s.current) s)
    (hp : P (some s.current) s) (hquiet : ∀ l, .lockSleep l ∉ s.todo s.current)
    (hidle : s.current ≠ s.idle) (hw : s.waitingLock s.current = some l)
    (hsleep : g → s.value (.lock l) = 0 →
      ∀ h, s.holder l = some h → s.effPriority s.current ≤ s.effPriority h)
    (htake : g → s.value (.lock l) ≠ 0 → overtakesNone s l) :
    Keeps P (MavPrio.lockSleep s l) := by
  by_cases hv : s.value (.lock l) = 0
  · exact R.keeps_asleep hs hquiet hidle hw hv (R.sleep hs hp hw fun hg => hsleep hg hv)
  · have hl : ∀ l', s.waitingLock s.current = some l' → l' = l := fun l' hl' =>
      some.inj (hl'.symm.trans hw)
    have hA := R.takeLock hs hp hquiet hidle hl hv fun hg => htake hg hv
    unfold MavPrio.lockSleep MavPrio.semaDown
    rw [if_neg hv, if_neg hv]
    exact hA.keeps

/-- What a donation leaves as it is. -/
structure Lent (s s' : Prio) : Prop where
  priority : s'.priority = s.priority
  status : s'.status = s.status
  waitingLock : s'.waitingLock = s.waitingLock
  heldLocks : s'.heldLocks = s.heldLocks
  todo : s'.todo = s.todo
  value : s'.value = s.value
  waiters : s'.waiters = s.waiters
  holder : s'.holder = s.holder
  conds : s'.conds = s.conds
  current : s'.current = s.current
  idle : s'.idle = s.idle

theorem Lent.refl (s : Prio) : Lent s s :=
  ⟨rfl, rfl, rfl, rfl, rfl, rfl, rfl, rfl, rfl, rfl, rfl⟩

theorem Lent.trans {s1 s2 s3 : Prio} (h : Lent s1 s2) (h' : Lent s2 s3) : Lent s1 s3 :=
  ⟨h'.1.trans h.1, h'.2.trans h.2, h'.3.trans h.3, h'.4.trans h.4, h'.5.trans h.5, h'.6.trans h.6,
    h'.7.trans h.7, h'.8.trans h.8, h'.9.trans h.9, h'.10.trans h.10, h'.11.trans h.11⟩

theorem lent_donate (s : Prio) (t : Nat) (p : Int) : Lent s (donate s t p) := by
  unfold MavPrio.donate
  split
  · exact { Lent.refl s with }
  · exact { Lent.refl s with }

theorem effPriority_donate (s : Prio) (t : Nat) (p : Int) :
    (donate s t p).effPriority = update s.effPriority t p := by
  unfold MavPrio.donate
  split
  · rfl
  · rfl

/-- **THE DONATION LOOP**: a property of the state and the thread the loop stands at, kept by every
    turn, holds at the end, where that thread waits for no held lock. -/
theorem donateChain_rule {Q : Prio → Nat → Prop}
    (hturn : ∀ s h n, Q s h → (s.waitingLock h).bind s.holder = some n →
      (g → s.effPriority n < s.effPriority h → s.status h = .blocked) →
      Q (if s.effPriority n < s.effPriority h then donate s n (s.effPriority h) else s) n) :
    ∀ {turns : Nat} {s s' : Prio} {h : Nat}, Q s h → (g → chainBlocked turns s h) →
      donateChain turns s h = some s' →
      ∃ h', Q s' h' ∧ (s'.waitingLock h').bind s'.holder = none := by
  intro turns
  induction turns with
  | zero => intro s s' h _ _ hd; exact nomatch hd
  | succ turns ih =>
    intro s s' h hQ hc hd
    unfold donateChain at hd
    unfold chainBlocked at hc
    cases hn : (s.waitingLock h).bind s.holder with
    | none =>
      rw [hn] at hd
      obtain rfl := some.inj hd
      exact ⟨h, hQ, hn⟩
    | some n =>
      simp only [hn] at hd hc
      exact ih (hturn s h n hQ hn fun hG => (hc hG).1) (fun hG => (hc hG).2) hd

/-- Nothing is donated for a free lock. -/
theorem donateTo_free (hd : donateTo turns s l = some s') (hl : s.holder l = none) : s = s' := by
  unfold donateTo at hd
  rw [hl] at hd
  exact some.inj hd

theorem lent_donateTo (hrun : Shape (some s.current) s)
    (hd : donateTo turns s l = some s') : Lent s s' ∧ Shape (some s.current) s' := by
  unfold donateTo at hd
  split at hd
  · obtain rfl := some.inj hd
    exact ⟨Lent.refl s, hrun⟩
  split at hd
  · rename_i h _ _
    -- every turn of the loop is a donation or nothing
    obtain ⟨h', hQ, _⟩ := donateChain_rule
      (g := False) (Q := fun s1 _ => Lent s s1 ∧ Shape (some s.current) s1)
      (fun s1 h n hQ _ _ => by
        split
        · exact ⟨hQ.1.trans (lent_donate ..), hQ.2.donate⟩
        · exact hQ)
      ⟨lent_donate s h _, hrun.donate⟩ False.elim hd
    exact hQ
  · obtain rfl := some.inj hd
    exact ⟨Lent.refl s, hrun⟩

section

variable (R : Rules g P) (h : Awake P s)

include R h

theorem Rules.lockAcquire (htake : g → s.holder l = none → s.value (.lock l) ≠ 0 → overtakesNone s l)
    (hlend : g → lendBlocked turns (s.setWaitingLock s.current (some l)) l)
    (ha : lockAcquire turns s l = some s') : Keeps P s' := by
  obtain ⟨-, ha⟩ := ite_none_left_eq_some.mp ha
  obtain ⟨s1, hd, rfl⟩ := map_eq_some_iff.mp ha
  have hs0 : Shape (some s.current) (s.setWaitingLock s.current (some l)) :=
    h.shape.setWaitingLock
  rcases hh : s.holder l with _ | t
  · obtain rfl := donateTo_free hd hh
    refine R.lockSleep hs0 (R.await h.shape h.inv h.waits) h.quiet h.idle (update_self ..) ?_ ?_
    · intro _ _ t ht
      exact nomatch hh.symm.trans ht
    · exact fun hg => htake hg hh
  -- a held lock: the donation, then to sleep
  obtain ⟨hl, hs1⟩ := lent_donateTo hs0 hd
  have hcur : s1.current = s.current := hl.current
  have hp := R.lend h.shape h.inv h.waits h.idle hh hd hlend
  rw [← hcur] at hp
  refine R.keeps_asleep (hcur ▸ hs1) ?_ ?_ ?_ ?_ hp
  · rw [hcur, hl.todo]; exact h.quiet
  · rw [hcur, hl.idle]; exact h.idle
  · rw [hcur, hl.waitingLock]; exact update_self ..
  · rw [hl.value]; exact h.shape.value_held l t hh

theorem Rules.lockTryAcquire (htake : g → s.value (.lock l) ≠ 0 → overtakesNone s l)
    (ha : lockTryAcquire s l = some s') : Keeps P s' := by
  obtain ⟨-, ha⟩ := ite_none_left_eq_some.mp ha
  split at ha
  · rename_i hpos
    obtain rfl := some.inj ha
    have hv : s.value (.lock l) ≠ 0 := by omega
    have hA := R.takeLock h.shape h.inv h.quiet h.idle (l := l)
      (fun l' hl' => nomatch h.waits.symm.trans hl') hv fun hg => htake hg hv
    -- nothing was waited for, so that nothing is cleared
    have hclear : ∀ s1 : Prio, s1.waitingLock = s.waitingLock →
        s1.setWaitingLock s.current none = s1 := by
      intro s1 h1
      unfold Prio.setWaitingLock
      rw [h1, show update s.waitingLock s.current none = s.waitingLock from
        h.waits ▸ update_eq_self .., ← h1]
    rw [hclear (MavPrio.takeLock (s.setValue ..) l) rfl] at hA
    unfold MavPrio.semaTryDown
    rw [if_pos hpos]
    exact hA.keeps
  · obtain rfl := some.inj ha
    exact h.keeps

/-! ## Conditions -/

theorem Rules.condPush {c : Nat} (hc : condPush s c l = some s') : Keeps P s' := by
  obtain ⟨-, rfl⟩ := of_guard hc
  have hs : Shape (some s.current) ((s.setWaiters (.waiter s.current) []).setValue
      (.waiter s.current) 0) := h.shape.clearWaiters.setValue nofun
  refine Awake.keeps ?_
  refine R.silent h ?_ { hs with } rfl h.quiet rfl
  exact { Same.refl s with waiters := fun l => s.waiters_setWaiters_ne _ nofun }

theorem Rules.condSignal {c : Nat} (hc : condSignal s c l = some s') : Keeps P s' := by
  obtain ⟨-, hc⟩ := ite_none_right_eq_some.mp hc
  split at hc
  · obtain rfl := some.inj hc
    exact h.keeps
  · obtain ⟨t, _, rfl⟩ := map_eq_some_iff.mp hc
    have hA := R.setTodo h (.waiterUp t :: s.todo s.current) (by simp [h.quiet])
    refine Awake.keeps ?_
    refine R.silent hA ?_ { hA.shape with } rfl hA.quiet rfl
    exact { Same.refl (s.setTodo s.current (.waiterUp t :: s.todo s.current)) with }

theorem Rules.condBroadcast (c l : Nat) : Keeps P (condBroadcast s c l) := by
  unfold MavPrio.condBroadcast
  split
  · exact h.keeps
  · exact (R.setTodo h _ (by simp [h.quiet])).keeps

/-! ## Steps and runs -/

/-- A primitive other than going back to sleep on a lock. -/
theorem Rules.perform (hi : ∀ l, i ≠ .lockSleep l) (hg : g → undisturbedBy turns s i)
    (hp : perform turns s i = some s') : Keeps P s' := by
  cases i with
  | create t p => exact R.create h hp
  | yield => obtain rfl := some.inj hp; exact R.yield h
  | setPriority p => obtain rfl := some.inj hp; exact R.setPriority h p
  | semaDown i =>
    obtain rfl := some.inj hp
    exact R.semaDown h (m := .user i) nofun nofun
  | semaTryDown i =>
    obtain rfl := some.inj hp
    exact (R.semaTryDown h (m := .user i) nofun).keeps
  | semaUp i => exact R.semaUp h (m := .user i) nofun hp
  | lockAcquire l =>
    exact R.lockAcquire h (fun hG => (hg hG).1) (fun hG => (hg hG).2) hp
  | lockSleep l => exact absurd rfl (hi l)
  | lockTryAcquire l => exact R.lockTryAcquire h hg hp
  | lockRelease l => exact R.lockRelease h hp
  | condPush c l => exact R.condPush h hp
  | waiterDown =>
    obtain rfl := some.inj hp
    exact R.semaDown h (m := .waiter s.current) nofun nofun
  | condSignal c l => exact R.condSignal h hp
  | waiterUp t => exact R.semaUp h (m := .waiter t) nofun hp
  | condBroadcast c l => obtain rfl := some.inj hp; exact R.condBroadcast h c l

end

/-- What a step is: a call by a thread inside of none, or the next primitive of
    the calls a thread is inside of. -/
theorem step_cases {a : Step} (h : step s a = some s') :
    s.current ≠ s.idle ∧
      ((∃ op, a = .call op ∧ s.todo s.current = [] ∧ s' = s.setTodo s.current op.body) ∨
       (∃ turns i is, a = .go turns ∧ s.todo s.current = i :: is ∧
          perform turns (s.setTodo s.current is) i = some s')) := by
  obtain ⟨hidle, h⟩ := ite_none_left_eq_some.mp h
  refine ⟨hidle, ?_⟩
  split at h
  · exact .inl ⟨_, rfl, ‹_›, (some.inj h).symm⟩
  · exact .inr ⟨_, _, _, rfl, ‹_›, h⟩
  · exact nomatch h

theorem Op.quiet_body (op : Op) : ∀ l, .lockSleep l ∉ op.body := by
  intro l
  cases op <;> simp [Op.body]

/-- Outside the calls, and inside of every primitive but one, the running
    thread waits for no lock. -/
theorem Keeps.waits_none (h : Keeps P s) (hh : ∀ l, (s.todo s.current).head? ≠ some (.lockSleep l)) :
    s.waitingLock s.current = none := by
  rcases hw : s.waitingLock s.current with _ | l
  · rfl
  · exact absurd ((h.head l).mp hw) (hh l)

/-- A primitive is carried out with the rest of the calls left to do. -/
theorem Rules.popped (R : Rules g P) (h : Keeps P s) {is : List Instr}
    (htodo : s.todo s.current = i :: is) :
    Shape (some s.current) (s.setTodo s.current is) ∧ P (some s.current) (s.setTodo s.current is) ∧
      ∀ l, .lockSleep l ∉ (s.setTodo s.current is).todo s.current := by
  have hquiet : ∀ l, .lockSleep l ∉ is := fun l => by
    have ht := h.shape.tails s.current l
    rwa [htodo] at ht
  refine ⟨h.shape.setTodo fun l hl => hquiet l (mem_of_mem_tail hl), ?_, fun l => ?_⟩
  · exact R.same (s := s) { Same.refl s with } h.inv
  · rw [show (s.setTodo s.current is).todo s.current = is from update_self ..]
    exact hquiet l

theorem Rules.awake_popped (R : Rules g P) (h : Keeps P s) (hidle : s.current ≠ s.idle)
    {is : List Instr} (htodo : s.todo s.current = i :: is) (hi : ∀ l, i ≠ .lockSleep l) :
    Awake P (s.setTodo s.current is) := by
  obtain ⟨hs, hinv, hq⟩ := R.popped h htodo
  have hw := h.waits_none (by
    rw [htodo]
    exact fun l e => hi l (some.inj e))
  exact ⟨hs, hinv, hw, hq, hidle⟩

/-- **ONE STEP** keeps an invariant that survives the moves. -/
theorem Rules.step (R : Rules g P) (h : Keeps P s) {a : Step} (hg : g → Undisturbed s a)
    (ha : step s a = some s') : Keeps P s' := by
  obtain ⟨hidle, ⟨op, rfl, htodo, rfl⟩ | ⟨turns, i, is, rfl, htodo, hp⟩⟩ := step_cases ha
  · have hw := h.waits_none (by rw [htodo]; exact nofun)
    refine (R.setTodo ⟨h.shape, h.inv, hw, ?_, hidle⟩ _ op.quiet_body).keeps
    rw [htodo]
    exact nofun
  have hU : g → undisturbedBy turns (s.setTodo s.current is) i := by
    intro hG
    have hu := hg hG
    unfold Undisturbed at hu
    rwa [htodo] at hu
  by_cases hi : ∃ l, i = .lockSleep l
  · -- the running thread was woken on a lock
    obtain ⟨l, rfl⟩ := hi
    obtain rfl := some.inj hp
    obtain ⟨hs, hinv, hq⟩ := R.popped h htodo
    have hw : s.waitingLock s.current = some l := (h.head l).mpr (by rw [htodo]; rfl)
    exact R.lockSleep (s := s.setTodo s.current is) hs hinv hq hidle hw (fun hG => (hU hG).1)
      fun hG => (hU hG).2
  · have hi' : ∀ l, i ≠ .lockSleep l := fun l e => hi ⟨l, e⟩
    exact R.perform (R.awake_popped h hidle htodo hi') hi' hU hp

/-- **EVERY RUN**: an invariant that survives the moves holds in every state
    reached by steps that meet the condition of the rules. -/
theorem Rules.run (R : Rules g P) {as : List Step} (h : Keeps P s)
    (hG : Guarded MavPrio.step (fun s a => g → Undisturbed s a) s as)
    (hr : exec MavPrio.step s as = some s') : Keeps P s' :=
  exec_inv (fun _ _ _ hk hu hs => R.step hk hu hs) as s s' h hG hr

end Primitives

/-- The system starts in shape. -/
theorem booted_shape (values : Nat → Nat) : Shape (some 1) (booted values) where
  ready_iff := by
    intro t
    simp only [booted]
    grind
  ready_nodup := nodup_nil
  running := by rintro c ⟨⟩; rfl
  blocked := nofun
  once := nofun
  nodup := fun m => nodup_nil
  held_iff := fun t l => ⟨nofun, nofun⟩
  held_nodup := fun t => nodup_nil
  value_le := fun l => Nat.le_refl 1
  value_held := nofun
  waits_for := nofun
  waiting := nofun
  sleeping := fun u l _ => ⟨nofun, nofun⟩
  tails := nofun
  unused := fun t _ => ⟨rfl, rfl⟩
  idle_free := nofun
  idle_used := ⟨nofun, nofun⟩

theorem booted_keeps {P : Option Nat → Prio → Prop} {values : Nat → Nat}
    (h : P (some 1) (booted values)) : Keeps P (booted values) :=
  ⟨booted_shape values, h, fun _ => ⟨nofun, nofun⟩⟩

end MavPrio
