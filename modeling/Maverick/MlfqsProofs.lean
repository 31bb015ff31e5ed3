import Maverick.QueueProofs
import Maverick.RunProofs

/-! # MLFQS — which thread the multi-level feedback queue runs

Under `SCHED_MLFQS` the timer recomputes `priority` of every thread, but the ready list is ordered
by `eff_priority`, which keeps the value given to `thread_create`. So `next_thread_to_run` takes
the thread with the largest creation priority that has waited longest, whatever the computed
priorities are: `mlfqs_highest_iff` says, of every decision of every run, that it is right exactly
when that thread also has the largest computed priority. -/

namespace MavMlfqs

open MavQueue MavRun List Option
open Function (update update_self update_of_ne)

/-! ## Fixed-point numbers -/

/-- A value stored in an `int`. -/
def toInt32 (x : Int) : Int := x.bmod (2 ^ 32)

def fixF : Int := 65536

def fixInt (n : Int) : Int := toInt32 (n * fixF)

def fixAdd (x y : Int) : Int := toInt32 (x + y)

def fixMul (x y : Int) : Int := toInt32 ((x * y).tdiv fixF)

def fixScale (x n : Int) : Int := toInt32 (x * n)

def fixDiv (x y : Int) : Int := toInt32 ((x * fixF).tdiv y)

def fixUnscale (x n : Int) : Int := x.tdiv n

def fixTrunc (x : Int) : Int := x.tdiv fixF

def fixFrac (n d : Int) : Int := toInt32 ((n * fixF).tdiv d)

/-! ## State -/

def priMin : Int := 0

def priDefault : Int := 31

def priMax : Int := 63

def timeSlice : Nat := 4

def timerFreq : Nat := 100

inductive Status where
  | unused
  | running
  | ready
  | blocked
  deriving DecidableEq, Repr

/-- The fields of `struct thread` that MLFQS uses. -/
structure MlfqsThread where
  priority : Int
  effPriority : Int
  nice : Int
  recentCpu : Int

/-- A call of `next_thread_to_run`: the ready list and the threads at that
    moment, and the thread returned. -/
structure Decision where
  ready : List Nat
  thread : Nat → MlfqsThread
  createdWith : Nat → Int
  stamp : Nat → Nat
  chosen : Nat

/-- The scheduler. Beside its own state it keeps what no code stores:
    `createdWith`, the priority given to `thread_create`, `stamp`, the moment
    of the last insertion into the ready list, and the decisions so far. -/
structure Mlfqs where
  thread : Nat → MlfqsThread
  status : Nat → Status
  ready : List Nat
  current : Nat
  idle : Nat
  loadAvg : Int
  ticks : Nat
  threadTicks : Nat
  createdWith : Nat → Int
  stamp : Nat → Nat
  clock : Nat
  decisions : List Decision

def Mlfqs.setThread (s : Mlfqs) (t : Nat) (x : MlfqsThread) : Mlfqs :=
  { s with thread := update s.thread t x }

def Mlfqs.setStatus (s : Mlfqs) (t : Nat) (st : Status) : Mlfqs :=
  { s with status := update s.status t st }

/-! ## Priorities -/

/-- `PRI_MAX - recent_cpu / 4 - nice * 2`, clamped. -/
def computedPriority (t : MlfqsThread) : Int :=
  let newPriority := priMax - fixTrunc (fixUnscale t.recentCpu 4) - t.nice * 2
  if newPriority < priMin then priMin
  else if priMax < newPriority then priMax
  else newPriority

/-- `mlfqs_update_priority`, for a thread that is not the idle thread. -/
def mlfqsUpdatePriority (t : MlfqsThread) : MlfqsThread :=
  { t with priority := computedPriority t }

/-- `mlfqs_update_recent_cpu`, for a thread that is not the idle thread. -/
def mlfqsUpdateRecentCpu (loadAvg : Int) (t : MlfqsThread) : MlfqsThread :=
  let twiceLoad := fixScale loadAvg 2
  let coefficient := fixDiv twiceLoad (fixAdd twiceLoad (fixInt 1))
  { t with recentCpu := fixAdd (fixMul coefficient t.recentCpu) (fixInt t.nice) }

/-- `ready_threads` of `mlfqs_update_load_avg`. -/
def readyThreads (s : Mlfqs) : Nat :=
  s.ready.length + if s.current = s.idle then 0 else 1

def mlfqsUpdateLoadAvg (s : Mlfqs) : Mlfqs :=
  { s with
    loadAvg := fixAdd (fixMul (fixFrac 59 60) s.loadAvg)
      (fixMul (fixFrac 1 60) (fixInt (readyThreads s))) }

/-- A loop over `all_list` that leaves the idle thread alone. -/
def forEachThread (s : Mlfqs) (f : MlfqsThread → MlfqsThread) : Mlfqs :=
  { s with thread := fun t => if t = s.idle then s.thread t else f (s.thread t) }

def threadMlfqsTick (s : Mlfqs) : Mlfqs :=
  if s.current = s.idle then s
  else s.setThread s.current { s.thread s.current with
    recentCpu := fixAdd (s.thread s.current).recentCpu (fixInt 1) }

def threadMlfqsUpdatePriorities (s : Mlfqs) : Mlfqs := forEachThread s mlfqsUpdatePriority

def threadMlfqsUpdateStats (s : Mlfqs) : Mlfqs :=
  let s := mlfqsUpdateLoadAvg s
  forEachThread s fun t => mlfqsUpdatePriority (mlfqsUpdateRecentCpu s.loadAvg t)

/-! ## Scheduling -/

/-- `thread_enqueue`: the list is ordered by `eff_priority`. -/
def threadEnqueue (s : Mlfqs) (t : Nat) : Mlfqs :=
  { s with
    ready := insertOrdered (fun u => (s.thread u).effPriority) t s.ready
    stamp := update s.stamp t s.clock
    clock := s.clock + 1 }

/-- `thread_schedule_mlfqs`: the front of the list, or the idle thread. -/
def nextThreadToRun (s : Mlfqs) : Nat := s.ready.head?.getD s.idle

/-- `schedule` and `thread_switch_tail`. -/
def schedule (s : Mlfqs) : Mlfqs :=
  { s with
    current := nextThreadToRun s
    ready := s.ready.tail
    status := update s.status (nextThreadToRun s) .running
    threadTicks := 0
    decisions := s.decisions ++ [⟨s.ready, s.thread, s.createdWith, s.stamp, nextThreadToRun s⟩] }

def threadYield (s : Mlfqs) : Mlfqs :=
  let cur := s.current
  let s := if cur = s.idle then s else threadEnqueue s cur
  schedule (s.setStatus cur .ready)

def threadBlock (s : Mlfqs) : Mlfqs := schedule (s.setStatus s.current .blocked)

/-- `thread_unblock`; `none` when its `ASSERT` fails. Nobody unblocks the idle thread. -/
def threadUnblock (s : Mlfqs) (t : Nat) : Option Mlfqs :=
  if s.status t = .blocked ∧ t ≠ s.idle then some ((threadEnqueue s t).setStatus t .ready)
  else none

/-- The fields `init_thread` sets. -/
def initThread (priority : Int) : MlfqsThread := ⟨priority, priority, 0, 0⟩

/-- `thread_create` with the page of a thread that does not exist. -/
def threadCreate (s : Mlfqs) (t : Nat) (priority : Int) : Option Mlfqs :=
  if s.status t = .unused ∧ priMin ≤ priority ∧ priority ≤ priMax ∧ t ≠ s.idle then
    let s := (s.setThread t (initThread priority)).setStatus t .blocked
    let s := { s with createdWith := update s.createdWith t priority }
    (threadUnblock s t).map fun s =>
      if (s.thread s.current).effPriority < (s.thread t).effPriority then threadYield s else s
  else none

def threadSetNice (s : Mlfqs) (nice : Int) : Option Mlfqs :=
  if -20 ≤ nice ∧ nice ≤ 20 then
    let x := { s.thread s.current with nice := nice }
    some (threadYield (s.setThread s.current
      (if s.current = s.idle then x else mlfqsUpdatePriority x)))
  else none

/-- The loop of `timer_interrupt` over the threads whose time has come. -/
def wakeAll (s : Mlfqs) (woken : List Nat) : Option Mlfqs := exec threadUnblock s woken

/-- `ticks++`, `thread_tick` and `thread_mlfqs_tick`. -/
def countTick (s : Mlfqs) : Mlfqs :=
  threadMlfqsTick { s with ticks := s.ticks + 1, threadTicks := s.threadTicks + 1 }

/-- The updates `timer_interrupt` makes every second and every fourth tick. -/
def mlfqsUpdates (s : Mlfqs) : Mlfqs :=
  if s.ticks % timerFreq = 0 then threadMlfqsUpdateStats s
  else if s.ticks % 4 = 0 then threadMlfqsUpdatePriorities s
  else s

/-- `thread_yield` on return from the interrupt, when the slice is used up. -/
def yieldOnReturn (s : Mlfqs) : Mlfqs := if timeSlice ≤ s.threadTicks then threadYield s else s

/-- `timer_interrupt`; `none` also when `fix_int` is given more than it takes. -/
def timerInterrupt (s : Mlfqs) (woken : List Nat) : Option Mlfqs :=
  if (countTick s).ticks % timerFreq = 0 ∧ 65535 < readyThreads (countTick s) then none
  else (wakeAll (mlfqsUpdates (countTick s)) woken).map yieldOnReturn

inductive MlfqsOp where
  | tick (woken : List Nat)
  | yield
  | block
  | unblock (t : Nat)
  | create (t : Nat) (priority : Int)
  | setNice (nice : Int)

def step (s : Mlfqs) : MlfqsOp → Option Mlfqs
  | .tick woken => timerInterrupt s woken
  | .yield => some (threadYield s)
  | .block => some (threadBlock s)
  | .unblock t => threadUnblock s t
  | .create t priority => threadCreate s t priority
  | .setNice nice => threadSetNice s nice

/-- After `thread_start`: the initial thread runs, the idle thread has blocked. -/
def booted : Mlfqs where
  thread := fun t => initThread (if t = 2 then priMin else priDefault)
  status := fun t => if t = 1 then .running else if t = 2 then .blocked else .unused
  ready := []
  current := 1
  idle := 2
  loadAvg := 0
  ticks := 0
  threadTicks := 0
  createdWith := fun t => if t = 2 then priMin else priDefault
  stamp := fun _ => 0
  clock := 0
  decisions := []

/-! ## The queue of a run -/

/-- A decision was taken on a queue in order of creation priority and arrival,
    and took its front. -/
structure Decision.Ordered (d : Decision) : Prop where
  order : InOrder d.createdWith d.stamp d.ready
  front : ∀ t l, d.ready = t :: l → d.chosen = t

/-- The ready list: `eff_priority` is still the creation priority, and the list
    is in order of it. -/
structure Queued (s : Mlfqs) : Prop where
  eff : ∀ t, (s.thread t).effPriority = s.createdWith t
  order : InOrder s.createdWith s.stamp s.ready
  stamps : ∀ t ∈ s.ready, s.stamp t < s.clock
  listed : ∀ t ∈ s.ready, s.status t = .ready
  past : ∀ d ∈ s.decisions, d.Ordered

theorem before_irrefl {key : Nat → Int} {stamp : Nat → Nat} (t : Nat) :
    ¬ Before key stamp t t := by
  rintro (h | ⟨-, h⟩) <;> omega

variable {s s' : Mlfqs} {t : Nat}

theorem Queued.nodup (h : Queued s) : s.ready.Nodup := by
  refine List.Pairwise.imp ?_ h.order
  rintro a b hab rfl
  exact before_irrefl a hab

theorem Queued.not_mem (h : Queued s) (ht : s.status t ≠ .ready) :
    t ∉ s.ready := fun hm => ht (h.listed t hm)

/-- Computing priorities leaves the queue alone. -/
theorem Queued.setThreads (h : Queued s) (f : Nat → MlfqsThread) (load : Int)
    (ticks threadTicks : Nat) (hf : ∀ t, (f t).effPriority = (s.thread t).effPriority) :
    Queued { s with thread := f, loadAvg := load, ticks := ticks, threadTicks := threadTicks } :=
  { h with eff := fun t => (hf t).trans (h.eff t) }

theorem Queued.setStatus (h : Queued s) (ht : t ∉ s.ready) (st : Status) :
    Queued (s.setStatus t st) := by
  refine { h with listed := ?_ }
  intro u hu
  show update s.status t st u = .ready
  rw [update_of_ne (by rintro rfl; exact ht hu)]
  exact h.listed u hu

/-- A thread that is not in the list goes to its place. -/
theorem Queued.enqueue (h : Queued s) (ht : t ∉ s.ready) :
    Queued ((threadEnqueue s t).setStatus t .ready) := by
  have hkey : (fun u => (s.thread u).effPriority) = s.createdWith := funext h.eff
  have hready : (threadEnqueue s t).ready = insertOrdered s.createdWith t s.ready := by
    unfold threadEnqueue
    rw [hkey]
  have hstamp : ∀ u ∈ s.ready, update s.stamp t s.clock u = s.stamp u :=
    fun u hu => update_of_ne (by rintro rfl; exact ht hu) _ _
  have hmem : ∀ u ∈ (threadEnqueue s t).ready, u = t ∨ u ∈ s.ready := by
    exact fun u hu => mem_insertOrdered.mp hu
  refine ⟨h.eff, ?_, ?_, ?_, h.past⟩
  · show InOrder s.createdWith (update s.stamp t s.clock) (threadEnqueue s t).ready
    rw [hready]
    refine InOrder.insert (h.order.congr (fun _ _ => rfl) hstamp) ?_
    intro u hu
    rw [hstamp u hu, update_self]
    exact h.stamps u hu
  · intro u hu
    show update s.stamp t s.clock u < s.clock + 1
    rcases hmem u hu with rfl | hu
    · rw [update_self]
      exact Nat.lt_succ_self _
    · rw [hstamp u hu]
      exact Nat.lt_succ_of_lt (h.stamps u hu)
  · intro u hu
    show update s.status t .ready u = .ready
    by_cases he : u = t
    · rw [he, update_self]
    · rw [update_of_ne he]
      exact h.listed u ((hmem u hu).resolve_left he)

/-- A decision: the front of the list leaves it and runs. -/
theorem Queued.schedule (h : Queued s) :
    Queued (schedule s) ∧ (schedule s).status (schedule s).current = .running := by
  refine ⟨⟨h.eff, h.order.sublist (tail_sublist _), ?_, ?_, ?_⟩, update_self ..⟩
  · intro t ht
    exact h.stamps t (mem_of_mem_tail ht)
  · intro t ht
    show update s.status (nextThreadToRun s) .running t = .ready
    have hne : t ≠ nextThreadToRun s := by
      rintro rfl
      have hnd := h.nodup
      change s.ready.head?.getD s.idle ∈ s.ready.tail at ht
      cases hl : s.ready with
      | nil => rw [hl] at ht; exact nomatch ht
      | cons u l =>
        rw [hl] at ht hnd
        exact (nodup_cons.mp hnd).1 ht
    rw [update_of_ne hne]
    exact h.listed t (mem_of_mem_tail ht)
  · intro d hd
    rcases mem_append.mp hd with hd | hd
    · exact h.past d hd
    · rw [mem_singleton.mp hd]
      refine ⟨h.order, ?_⟩
      intro t l hl
      have hl' : s.ready = t :: l := hl
      show s.ready.head?.getD s.idle = t
      rw [hl']
      rfl

/-- Between two operations: the current thread is not in the list. -/
structure Steady (s : Mlfqs) : Prop where
  queued : Queued s
  runs : s.status s.current = .running

theorem Steady.current_notMem (h : Steady s) : s.current ∉ s.ready := by
  refine h.queued.not_mem ?_
  rw [h.runs]
  exact nofun

theorem Steady.yield (h : Steady s) : Steady (threadYield s) := by
  have hq : Queued ((if s.current = s.idle then s else threadEnqueue s s.current).setStatus
      s.current .ready) := by
    split
    · exact h.queued.setStatus h.current_notMem _
    · exact h.queued.enqueue h.current_notMem
  exact ⟨hq.schedule.1, hq.schedule.2⟩

theorem Steady.block (h : Steady s) : Steady (threadBlock s) := by
  have hq := h.queued.setStatus h.current_notMem .blocked
  exact ⟨hq.schedule.1, hq.schedule.2⟩

theorem Steady.unblock (h : Steady s) (hs : threadUnblock s t = some s') : Steady s' := by
  obtain ⟨hcond, rfl⟩ := of_guard hs
  have hne : s.status t ≠ .ready := by
    rw [hcond.1]
    exact nofun
  refine ⟨h.queued.enqueue (h.queued.not_mem hne), ?_⟩
  show update s.status t .ready s.current = .running
  rw [update_of_ne]
  · exact h.runs
  · intro he
    have := h.runs
    rw [he, hcond.1] at this
    exact nomatch this

theorem Steady.wakeAll {woken : List Nat} (h : Steady s)
    (hs : wakeAll s woken = some s') : Steady s' :=
  exec_inv_all (fun _ _ _ hst hstep => hst.unblock hstep) h hs

/-- The priorities may be computed anew at any time. -/
theorem Steady.setThreads (h : Steady s) (f : Nat → MlfqsThread) (load : Int)
    (ticks threadTicks : Nat) (hf : ∀ t, (f t).effPriority = (s.thread t).effPriority) :
    Steady { s with thread := f, loadAvg := load, ticks := ticks, threadTicks := threadTicks } :=
  ⟨h.queued.setThreads f load ticks threadTicks hf, h.runs⟩

theorem forEachThread_eff {f : MlfqsThread → MlfqsThread}
    (hf : ∀ t, (f t).effPriority = t.effPriority) (t : Nat) :
    ((forEachThread s f).thread t).effPriority = (s.thread t).effPriority := by
  show (if t = s.idle then s.thread t else f (s.thread t)).effPriority = _
  split
  · rfl
  · exact hf _

theorem setThread_eff {x : MlfqsThread} (hx : x.effPriority = (s.thread t).effPriority) (u : Nat) :
    ((s.setThread t x).thread u).effPriority = (s.thread u).effPriority := by
  show (update s.thread t x u).effPriority = _
  by_cases hu : u = t
  · rw [hu, update_self]
    exact hx
  · rw [update_of_ne hu]

section

variable (h : Steady s)

include h

theorem Steady.mlfqsTick : Steady (threadMlfqsTick s) := by
  unfold threadMlfqsTick
  split
  · exact h
  · exact h.setThreads _ s.loadAvg s.ticks s.threadTicks (setThread_eff rfl)

theorem Steady.updatePriorities : Steady (threadMlfqsUpdatePriorities s) :=
  h.setThreads _ s.loadAvg s.ticks s.threadTicks (forEachThread_eff fun _ => rfl)

theorem Steady.updateStats : Steady (threadMlfqsUpdateStats s) :=
  h.setThreads _ (mlfqsUpdateLoadAvg s).loadAvg s.ticks s.threadTicks
    (forEachThread_eff (s := mlfqsUpdateLoadAvg s)
      (f := fun t => mlfqsUpdatePriority (mlfqsUpdateRecentCpu (mlfqsUpdateLoadAvg s).loadAvg t))
      fun _ => rfl)

theorem Steady.updates : Steady (mlfqsUpdates s) := by
  unfold mlfqsUpdates
  split
  · exact h.updateStats
  · split
    · exact h.updatePriorities
    · exact h

theorem Steady.timerInterrupt {woken : List Nat}
    (hs : timerInterrupt s woken = some s') : Steady s' := by
  have htick : Steady (countTick s) :=
    Steady.mlfqsTick (h.setThreads s.thread s.loadAvg _ _ fun _ => rfl)
  obtain ⟨-, hs⟩ := ite_none_left_eq_some.mp hs
  obtain ⟨s2, hwake, hs2⟩ := map_eq_some_iff.mp hs
  have hwoken := htick.updates.wakeAll hwake
  rw [← hs2]
  unfold yieldOnReturn
  split
  · exact hwoken.yield
  · exact hwoken

theorem Steady.create {priority : Int} (hs : threadCreate s t priority = some s') : Steady s' := by
  obtain ⟨hcond, hs⟩ := ite_none_right_eq_some.mp hs
  obtain ⟨s1, hun, hs1⟩ := map_eq_some_iff.mp hs
  have hnotReady : t ∉ s.ready := by
    refine h.queued.not_mem ?_
    rw [hcond.1]
    exact nofun
  have hcur : s.current ≠ t := by
    intro he
    have := h.runs
    rw [he, hcond.1] at this
    exact nomatch this
  -- the new thread is not in the list yet, so its fields may be set
  have hset : Steady { (s.setThread t (initThread priority)).setStatus t .blocked with
      createdWith := update s.createdWith t priority } := by
    refine ⟨⟨?_, ?_, h.queued.stamps, ?_, h.queued.past⟩, ?_⟩
    · intro u
      show (update s.thread t (initThread priority) u).effPriority
        = update s.createdWith t priority u
      by_cases hu : u = t
      · rw [hu, update_self, update_self]
        rfl
      · rw [update_of_ne hu, update_of_ne hu]
        exact h.queued.eff u
    · refine h.queued.order.congr ?_ fun _ _ => rfl
      intro u hu
      exact update_of_ne (by rintro rfl; exact hnotReady hu) _ _
    · exact (h.queued.setStatus hnotReady .blocked).listed
    · show update s.status t .blocked s.current = .running
      rw [update_of_ne hcur]
      exact h.runs
  have hcreated := hset.unblock hun
  rw [← hs1]
  split
  · exact hcreated.yield
  · exact hcreated

theorem Steady.setNice {nice : Int} (hs : threadSetNice s nice = some s') : Steady s' := by
  obtain ⟨-, rfl⟩ := of_guard hs
  refine Steady.yield (h.setThreads _ s.loadAvg s.ticks s.threadTicks (setThread_eff ?_))
  split <;> rfl

theorem Steady.step {op : MlfqsOp} (hs : step s op = some s') : Steady s' := by
  cases op with
  | tick woken => exact h.timerInterrupt hs
  | yield => rw [← some.inj hs]; exact h.yield
  | block => rw [← some.inj hs]; exact h.block
  | unblock t => exact h.unblock hs
  | create t priority => exact h.create hs
  | setNice nice => exact h.setNice hs

end

theorem booted_steady : Steady booted :=
  ⟨⟨fun _ => rfl, List.Pairwise.nil, nofun, nofun, nofun⟩, rfl⟩

theorem Steady.run {ops : List MlfqsOp} (h : Steady s)
    (hs : exec MavMlfqs.step s ops = some s') : Steady s' :=
  exec_inv_all (fun _ _ _ hst hstep => hst.step hstep) h hs

/-! ## Right and wrong decisions -/

/-- The thread returned has a computed priority at least that of every other ready thread. -/
def Decision.Highest (d : Decision) : Prop :=
  ∀ u ∈ d.ready, computedPriority (d.thread u) ≤ computedPriority (d.thread d.chosen)
deriving Decidable

/-- Of the ready threads, `t` has the largest creation priority and has waited
    longest among those that share it. -/
def Decision.Foremost (d : Decision) (t : Nat) : Prop :=
  ∀ u ∈ d.ready, u ≠ t → Before d.createdWith d.stamp t u

/-- Creation priority and time of arrival agree with the computed priorities on who comes first. -/
def Decision.Agrees (d : Decision) : Prop :=
  ∀ t ∈ d.ready, d.Foremost t → ∀ u ∈ d.ready,
    computedPriority (d.thread u) ≤ computedPriority (d.thread t)

theorem before_asymm {key : Nat → Int} {stamp : Nat → Nat} {u : Nat}
    (h1 : Before key stamp t u) (h2 : Before key stamp u t) : False := by
  rcases h1 with h1 | ⟨h1, h1'⟩ <;> rcases h2 with h2 | ⟨h2, h2'⟩ <;> omega

theorem Decision.Ordered.highest_iff {d : Decision} (h : d.Ordered) : d.Highest ↔ d.Agrees := by
  cases hl : d.ready with
  | nil =>
    unfold Decision.Highest Decision.Agrees
    rw [hl]
    exact ⟨nofun, nofun⟩
  | cons c l =>
    have hchosen : d.chosen = c := h.front c l hl
    have hmem : c ∈ d.ready := by rw [hl]; exact mem_cons_self ..
    have hhead : ∀ u ∈ d.ready, u ≠ c → Before d.createdWith d.stamp c u := by
      intro u hu hne
      have horder := h.order
      rw [hl] at hu horder
      exact horder.head u ((mem_cons.mp hu).resolve_left hne)
    constructor
    · intro hhigh t ht hfore
      have htc : t = c := by
        by_contra hne
        exact before_asymm (hfore c hmem (Ne.symm hne)) (hhead t ht hne)
      rw [htc, ← hchosen]
      exact hhigh
    · intro hagree u hu
      rw [hchosen]
      exact hagree c hmem hhead u hu

/-- **WHICH DECISIONS ARE RIGHT**: of every decision of every run from boot, the
    thread returned has a highest computed priority exactly when the ready
    thread with the largest creation priority that has waited longest has. -/
theorem mlfqs_highest_iff (ops : List MlfqsOp) (s : Mlfqs)
    (hrun : exec step booted ops = some s) : ∀ d ∈ s.decisions, d.Highest ↔ d.Agrees :=
  fun d hd => ((booted_steady.run hrun).queued.past d hd).highest_iff

theorem mlfqs_highest_iff_yield :
    ∃ s, exec step booted [.create 3 31, .yield] = some s ∧
      ∀ d ∈ s.decisions, d.Highest ↔ d.Agrees := by
  obtain ⟨s, hs⟩ := Option.isSome_iff_exists.mp
    (show (exec step booted [.create 3 31, .yield]).isSome from by decide)
  exact ⟨s, hs, mlfqs_highest_iff _ s hs⟩

/-- A thread created with priority 63 runs for a slice. It has used four ticks,
    the initial thread none, and still it is chosen. -/
theorem mlfqs_runs_lower :
    ∃ s, exec step booted [.create 3 63, .tick [], .tick [], .tick [], .tick []] = some s ∧
      ∃ d ∈ s.decisions, ¬ d.Highest := by
  have hrun : (exec step booted [.create 3 63, .tick [], .tick [], .tick [], .tick []]).any
      (fun s => s.decisions.any fun d => !decide d.Highest) = true := by decide +kernel
  cases hs : exec step booted [.create 3 63, .tick [], .tick [], .tick [], .tick []] with
  | none => rw [hs] at hrun; exact nomatch hrun
  | some s =>
    rw [hs] at hrun
    obtain ⟨d, hd, hlow⟩ := List.any_eq_true.mp hrun
    exact ⟨s, rfl, d, hd, by simpa using hlow⟩

end MavMlfqs
