import Maverick.RunProofs

/-! # Sleeping threads — each is woken once, and in time

`timer_sleep` reads the clock first and files the thread under its wake-up tick later; interrupts
may come in between. `timer_interrupt` looks at the front of the list only. That is enough,
because the list is sorted: an interrupt takes off exactly the threads that are due. -/

namespace MavTimer

open MavRun List
open Function (update update_self update_of_ne)

/-- A thread on `sleeping_threads`. `serial` and `seen` are ghosts: the number of
    its call, and the tick counts of the interrupts since it was queued. -/
structure Sleeper where
  thread : Nat
  wakeUpTick : Int64
  serial : Nat
  seen : List Int64

/-- Where a thread is in `timer_sleep`. -/
inductive Phase where
  | running
  | called (start ticks : Int64)
  | blocked
  deriving DecidableEq

/-- The clock and `sleeping_threads`. `woken` and `calls` are ghosts: the
    sleepers that were unblocked, and how many were queued. -/
structure Timer where
  ticks : Int64
  sleeping : List Sleeper
  phase : Nat → Phase
  woken : List Sleeper
  calls : Nat

/-- The loop of `timer_sleep`. -/
def insertSleeper (x : Sleeper) : List Sleeper → List Sleeper
  | [] => [x]
  | t :: rest => if x.wakeUpTick < t.wakeUpTick then x :: t :: rest else t :: insertSleeper x rest

/-- `timer_sleep` from where interrupts are off. -/
def Timer.queue (s : Timer) (t : Nat) (start ticks : Int64) : Timer :=
  { s with
    sleeping := insertSleeper ⟨t, start + ticks, s.calls, []⟩ s.sleeping
    phase := update s.phase t .blocked
    calls := s.calls + 1 }

/-- The loop of `timer_interrupt`: what it takes off, and what it leaves. -/
def wakeLoop (ticks : Int64) : List Sleeper → List Sleeper × List Sleeper
  | [] => ([], [])
  | t :: rest =>
    if ticks < t.wakeUpTick then ([], t :: rest)
    else (t :: (wakeLoop ticks rest).1, (wakeLoop ticks rest).2)

def Sleeper.see (ticks : Int64) (x : Sleeper) : Sleeper := { x with seen := x.seen ++ [ticks] }

/-- `timer_interrupt`. -/
def Timer.interrupt (s : Timer) : Timer :=
  let ticks := s.ticks + 1
  let out := wakeLoop ticks (s.sleeping.map (Sleeper.see ticks))
  { s with
    ticks := ticks
    sleeping := out.2
    phase := fun t => if t ∈ out.1.map Sleeper.thread then .running else s.phase t
    woken := s.woken ++ out.1 }

inductive Act where
  | sleep (thread : Nat) (ticks : Int64)
  | queue (thread : Nat)
  | interrupt

def step (s : Timer) : Act → Option Timer
  | .sleep t ticks =>
    if s.phase t = .running then some { s with phase := update s.phase t (.called s.ticks ticks) }
    else none
  | .queue t =>
    match s.phase t with
    | .called start ticks => some (s.queue t start ticks)
    | _ => none
  | .interrupt => some s.interrupt

def booted : Timer := ⟨0, [], fun _ => .running, [], 0⟩

/-! ## The two loops -/

variable {x : Sleeper} {l : List Sleeper} {n : Int64} {s s' : Timer} {t : Nat}

/-- In the order of the wake-up ticks. -/
def Sorted (l : List Sleeper) : Prop := l.Pairwise fun a b => a.wakeUpTick ≤ b.wakeUpTick

theorem insertSleeper_perm : (insertSleeper x l).Perm (x :: l) := by
  induction l with
  | nil => exact Perm.refl _
  | cons t l ih =>
    unfold insertSleeper
    split
    · exact Perm.refl _
    · exact (ih.cons t).trans (Perm.swap ..)

theorem Sorted.insert (h : Sorted l) : Sorted (insertSleeper x l) := by
  induction l with
  | nil => exact pairwise_singleton ..
  | cons t l ih =>
    obtain ⟨ht, hl⟩ := pairwise_cons.mp h
    unfold insertSleeper
    split
    · rename_i hlt
      refine pairwise_cons.mpr ⟨forall_mem_cons.mpr ⟨Int64.le_of_lt hlt, fun y hy => ?_⟩, h⟩
      exact Int64.le_trans (Int64.le_of_lt hlt) (ht y hy)
    · rename_i hle
      refine pairwise_cons.mpr ⟨fun y hy => ?_, ih hl⟩
      rcases mem_cons.mp (insertSleeper_perm.mem_iff.mp hy) with rfl | hy
      · exact Int64.not_lt.mp hle
      · exact ht y hy

theorem wakeLoop_append (n : Int64) (l : List Sleeper) :
    (wakeLoop n l).1 ++ (wakeLoop n l).2 = l := by
  induction l with
  | nil => rfl
  | cons t l ih =>
    unfold wakeLoop
    split
    · rfl
    · exact congrArg (t :: ·) ih

/-- The loop stops at the first thread that is not due, and none behind it is. -/
theorem Sorted.wakeLoop (h : Sorted l) (n : Int64) : (∀ x ∈ (wakeLoop n l).1, x.wakeUpTick ≤ n) ∧
    ∀ x ∈ (MavTimer.wakeLoop n l).2, n < x.wakeUpTick := by
  induction l with
  | nil => exact ⟨nofun, nofun⟩
  | cons t l ih =>
    obtain ⟨ht, hl⟩ := pairwise_cons.mp h
    unfold MavTimer.wakeLoop
    split
    · rename_i hlt
      exact ⟨nofun, forall_mem_cons.mpr ⟨hlt, fun y hy => Int64.lt_of_lt_of_le hlt (ht y hy)⟩⟩
    · rename_i hle
      exact ⟨forall_mem_cons.mpr ⟨Int64.not_lt.mp hle, (ih hl).1⟩, (ih hl).2⟩

/-! ## Every run -/

/-- Of the interrupts since the thread was queued, the last is the first one at
    or after its wake-up tick. -/
def Sleeper.InTime (x : Sleeper) : Prop :=
  ∃ before last, x.seen = before ++ [last] ∧ x.wakeUpTick ≤ last ∧
    ∀ n ∈ before, n < x.wakeUpTick

structure Inv (s : Timer) : Prop where
  sorted : Sorted s.sleeping
  early : ∀ x ∈ s.sleeping, ∀ n ∈ x.seen, n < x.wakeUpTick
  inTime : ∀ x ∈ s.woken, x.InTime
  once : ((s.sleeping ++ s.woken).map Sleeper.serial).Perm (range s.calls)
  asleep : ∀ t, t ∈ s.sleeping.map Sleeper.thread ↔ s.phase t = .blocked
  nodup : (s.sleeping.map Sleeper.thread).Nodup

theorem Inv.queue (h : Inv s) (hph : s.phase t ≠ .blocked) (start ticks : Int64) :
    Inv (s.queue t start ticks) := by
  have hperm := insertSleeper_perm (x := ⟨t, start + ticks, s.calls, []⟩) (l := s.sleeping)
  have hthreads := hperm.map Sleeper.thread
  refine ⟨h.sorted.insert, fun y hy => ?_, h.inTime, ?_, fun u => ?_, ?_⟩
  · rcases mem_cons.mp (hperm.mem_iff.mp hy) with rfl | hy
    · exact nofun
    · exact h.early y hy
  · refine ((hperm.append_right s.woken).map Sleeper.serial).trans ((h.once.cons s.calls).trans ?_)
    rw [show (s.queue t start ticks).calls = s.calls + 1 from rfl, range_succ]
    exact (perm_append_singleton ..).symm
  · refine hthreads.mem_iff.trans (mem_cons.trans ?_)
    show _ ↔ update s.phase t .blocked u = .blocked
    by_cases hu : u = t
    · rw [hu, update_self]
      exact iff_of_true (.inl rfl) rfl
    · rw [update_of_ne hu, ← h.asleep u]
      exact or_iff_right hu
  · exact hthreads.nodup_iff.mpr (nodup_cons.mpr ⟨fun hm => hph ((h.asleep t).mp hm), h.nodup⟩)

theorem Inv.interrupt (h : Inv s) : Inv s.interrupt := by
  have hsorted : Sorted (s.sleeping.map (Sleeper.see (s.ticks + 1))) := pairwise_map.mpr h.sorted
  obtain ⟨hdue, hlater⟩ := hsorted.wakeLoop (s.ticks + 1)
  have happ := wakeLoop_append (s.ticks + 1) (s.sleeping.map (Sleeper.see (s.ticks + 1)))
  have hold : ∀ x ∈ s.sleeping.map (Sleeper.see (s.ticks + 1)), ∃ before,
      x.seen = before ++ [s.ticks + 1] ∧ ∀ n ∈ before, n < x.wakeUpTick := by
    intro x hx
    obtain ⟨y, hy, rfl⟩ := mem_map.mp hx
    exact ⟨y.seen, rfl, h.early y hy⟩
  have hthreads : (s.sleeping.map (Sleeper.see (s.ticks + 1))).map Sleeper.thread =
      s.sleeping.map Sleeper.thread := map_map ..
  have hserials : (s.sleeping.map (Sleeper.see (s.ticks + 1))).map Sleeper.serial =
      s.sleeping.map Sleeper.serial := map_map ..
  unfold Timer.interrupt
  dsimp only
  generalize s.sleeping.map (Sleeper.see (s.ticks + 1)) = l at *
  generalize s.ticks + 1 = n at *
  generalize wakeLoop n l = out at *
  obtain ⟨due, later⟩ := out
  subst happ
  rw [map_append] at hthreads hserials
  have hnodup := h.nodup
  rw [← hthreads] at hnodup
  refine ⟨hsorted.sublist (sublist_append_right ..), fun x hx => ?_, ?_, ?_, fun t => ?_,
    (nodup_append.mp hnodup).2.1⟩
  · obtain ⟨before, hseen, hbefore⟩ := hold x (mem_append_right _ hx)
    rw [hseen]
    exact forall_mem_append.mpr ⟨hbefore, forall_mem_singleton.mpr (hlater x hx)⟩
  · refine forall_mem_append.mpr ⟨h.inTime, fun x hx => ?_⟩
    obtain ⟨before, hseen, hbefore⟩ := hold x (mem_append_left _ hx)
    exact ⟨before, n, hseen, hdue x hx, hbefore⟩
  · refine Perm.trans ?_ h.once
    rw [map_append, map_append, map_append, ← hserials, ← append_assoc, append_assoc (due.map _)]
    exact perm_append_comm
  · show _ ↔ (if t ∈ due.map Sleeper.thread then Phase.running else s.phase t) = .blocked
    split
    · rename_i ht
      exact iff_of_false (fun hm => (nodup_append.mp hnodup).2.2 t ht t hm rfl) nofun
    · rename_i ht
      rw [← h.asleep t, ← hthreads, mem_append]
      exact (or_iff_right ht).symm

theorem Inv.step {a : Act} (h : Inv s) (ha : step s a = some s') : Inv s' := by
  cases a with
  | sleep t ticks =>
    obtain ⟨hph, rfl⟩ := of_guard ha
    refine { h with asleep := fun u => (h.asleep u).trans ?_ }
    show _ ↔ update s.phase t _ u = _
    by_cases hu : u = t
    · rw [hu, update_self, hph]
      exact iff_of_false nofun nofun
    · rw [update_of_ne hu]
  | queue t =>
    simp only [MavTimer.step] at ha
    split at ha
    · next start ticks hph =>
      rw [← Option.some.inj ha]
      exact h.queue (by rw [hph]; exact nofun) start ticks
    · exact nomatch ha
  | interrupt =>
    rw [← Option.some.inj ha]
    exact h.interrupt

/-- **SLEEP**: in every state of every run the list is sorted by wake-up tick and
    holds the blocked threads, each once. Every call that queued is there or
    was woken, once; a thread that is there has seen no interrupt at or after its
    wake-up tick, and one that was woken was woken by the first. -/
theorem sleepers_woken_once (as : List Act) (s : Timer) (h : exec step booted as = some s) :
    s.sleeping.Pairwise (fun a b => a.wakeUpTick ≤ b.wakeUpTick) ∧
      (s.sleeping.map Sleeper.thread).Nodup ∧
      (∀ t, t ∈ s.sleeping.map Sleeper.thread ↔ s.phase t = .blocked) ∧
      ((s.sleeping ++ s.woken).map Sleeper.serial).Perm (range s.calls) ∧
      (∀ x ∈ s.sleeping, ∀ n ∈ x.seen, n < x.wakeUpTick) ∧ ∀ x ∈ s.woken, x.InTime := by
  have hboot : Inv booted :=
    ⟨Pairwise.nil, nofun, nofun, Perm.refl _, fun _ => iff_of_false nofun nofun, nodup_nil⟩
  have hinv := exec_inv_all (fun _ _ _ hI ha => hI.step ha) hboot h
  exact ⟨hinv.sorted, hinv.nodup, hinv.asleep, hinv.once, hinv.early, hinv.inTime⟩

/-- The clock moves on before the first thread is queued, and the second, with a
    deadline in the past, is woken by the next interrupt. -/
theorem sleepers_woken_once_late :
    ∃ s, exec step booted [.sleep 1 3, .interrupt, .queue 1, .sleep 2 (-5), .queue 2, .interrupt] =
      some s ∧ s.woken.map Sleeper.thread = [2] ∧ ∀ x ∈ s.woken, x.InTime :=
  ⟨_, rfl, rfl, (sleepers_woken_once
    [.sleep 1 3, .interrupt, .queue 1, .sleep 2 (-5), .queue 2, .interrupt] _ rfl).2.2.2.2.2⟩

end MavTimer
