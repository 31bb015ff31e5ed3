import Maverick.PrioRulesProofs

/-! # Condition variables under priorities — who is asleep when a signal compares

`cond_wait` files its semaphore with the condition, releases the lock, and only then goes to sleep
on that semaphore. Under `SCHED_PRIO`, `cond_signal` compares the first sleepers of the filed
semaphores, so that it relies on every filed thread being asleep already.

`Waits` follows the threads through `cond_wait`: a filed thread is inside it, nobody is about to
wake it, and a thread that a signal took off the condition is woken exactly once. A filed thread
that is blocked sleeps on its own semaphore, alone; one that is not blocked is still between
`lock_release` and its sleep, and its semaphore has no sleeper (`signal_sound_iff`). The release
itself may switch to a thread that signals (`signal_compares_awake`). -/

namespace MavCond

open MavPrio MavQueue MavRun List Option
open Function (update update_self update_of_ne update_eq_self update_idem forall_update_iff)

/-! ## Any interleaving -/

/-- The running thread takes a step, or the timer takes the CPU from it. -/
inductive Move where
  | own (a : Step)
  | preempt
  deriving DecidableEq, Repr

def move (s : Prio) : Move → Option Prio
  | .own a => step s a
  | .preempt => if s.current = s.idle then none else some (threadYield s)

/-- What a thread asleep on a semaphore does next. -/
def again : Sema → Instr
  | .user i => .semaDown i
  | .lock l => .lockSleep l
  | .waiter _ => .waiterDown

/-- The points of the calls where a thread can be. -/
inductive Inside : List Instr → Prop
  | free : Inside []
  | single (i : Instr) (h : i ≠ .waiterDown) (h' : ∀ c l, i ≠ .condPush c l) : Inside [i]
  | push (c l : Nat) : Inside [.condPush c l, .lockRelease l, .waiterDown, .lockAcquire l]
  | release (l : Nat) : Inside [.lockRelease l, .waiterDown, .lockAcquire l]
  | down (l : Nat) : Inside [.waiterDown, .lockAcquire l]
  | signal (c l : Nat) : Inside [.condSignal c l, .condBroadcast c l]
  | up (t c l : Nat) : Inside [.waiterUp t, .condBroadcast c l]

/-- Inside `cond_wait`, filed and not yet let through. -/
def inWait : List Instr → Bool
  | [.lockRelease _, .waiterDown, .lockAcquire _] => true
  | [.waiterDown, .lockAcquire _] => true
  | _ => false

theorem Op.inside_body (op : Op) : Inside op.body ∧ inWait op.body = false ∧
    ∀ t, .waiterUp t ∉ op.body := by
  cases op with
  | condWait c l => exact ⟨.push c l, rfl, by simp [Op.body]⟩
  | _ => exact ⟨.single _ (by simp) (by simp), rfl, by simp [Op.body]⟩

/-! ## The invariant -/

/-- Where the sleepers are, and how the wake-ups of `cond_signal` reach them. -/
structure Waits (s : Prio) : Prop where
  asleep : ∀ m u, u ∈ s.waiters m →
    (s.todo u).head? = some (again m) ∧ ∀ t, m = .waiter t → u = t
  blocked : ∀ u, s.status u = .blocked → u ≠ s.idle → ∃ m, u ∈ s.waiters m
  fresh : ∀ u, s.status u = .unused → s.todo u = []
  inside : ∀ u, Inside (s.todo u)
  idle : s.todo s.idle = []
  filed : ∀ c t, t ∈ s.conds c →
    inWait (s.todo t) = true ∧ s.value (.waiter t) = 0 ∧ ∀ u, .waiterUp t ∉ s.todo u
  once : ∀ c d t, t ∈ s.conds c → t ∈ s.conds d → c = d
  nodup : ∀ c, (s.conds c).Nodup
  called : ∀ t u, .waiterUp t ∈ s.todo u →
    inWait (s.todo t) = true ∧ s.value (.waiter t) = 0
  caller : ∀ t u v, .waiterUp t ∈ s.todo u → .waiterUp t ∈ s.todo v → u = v

theorem booted_waits (values : Nat → Nat) : Waits (booted values) where
  asleep := fun _ _ h => absurd h not_mem_nil
  blocked := by
    intro u hu hidle
    have hne : u ≠ 2 := hidle
    simp only [booted, if_neg hne] at hu
    split at hu <;> cases hu
  fresh := fun u _ => rfl
  inside := fun u => .free
  idle := rfl
  filed := fun _ _ h => absurd h not_mem_nil
  once := fun _ _ _ h => absurd h not_mem_nil
  nodup := fun c => nodup_nil
  called := fun _ _ h => absurd h not_mem_nil
  caller := fun _ _ _ h => absurd h not_mem_nil

/-- What the scheduler and the priorities leave as it is. -/
structure Frame (s s' : Prio) : Prop where
  todo : s'.todo = s.todo
  waiters : s'.waiters = s.waiters
  conds : s'.conds = s.conds
  idle : s'.idle = s.idle
  value : ∀ t, s'.value (.waiter t) = s.value (.waiter t)
  blocked : ∀ u, s'.status u = .blocked → s.status u = .blocked
  unused : ∀ u, s'.status u = .unused → s.status u = .unused

theorem Frame.refl (s : Prio) : Frame s s :=
  ⟨rfl, rfl, rfl, rfl, fun _ => rfl, fun _ h => h, fun _ h => h⟩

variable {s : Prio} {l t d : Nat} {m : Sema} {is : List Instr}

theorem Frame.trans {s' s'' : Prio} (h : Frame s s') (h' : Frame s' s'') : Frame s s'' :=
  ⟨h'.todo.trans h.todo, h'.waiters.trans h.waiters, h'.conds.trans h.conds,
    h'.idle.trans h.idle, fun t => (h'.value t).trans (h.value t),
    fun u hu => h.blocked u (h'.blocked u hu), fun u hu => h.unused u (h'.unused u hu)⟩

theorem Waits.frame {s' : Prio} (h : Waits s) (hf : Frame s s') : Waits s' where
  asleep := by rw [hf.waiters, hf.todo]; exact h.asleep
  blocked := by
    rw [hf.waiters, hf.idle]
    exact fun u hu => h.blocked u (hf.blocked u hu)
  fresh := by rw [hf.todo]; exact fun u hu => h.fresh u (hf.unused u hu)
  inside := by rw [hf.todo]; exact h.inside
  idle := by rw [hf.todo, hf.idle]; exact h.idle
  filed := by
    rw [hf.conds, hf.todo]
    intro c t ht
    rw [hf.value]
    exact h.filed c t ht
  once := by rw [hf.conds]; exact h.once
  nodup := by rw [hf.conds]; exact h.nodup
  called := by
    rw [hf.todo]
    intro t u ht
    rw [hf.value]
    exact h.called t u ht
  caller := by rw [hf.todo]; exact h.caller

/-! ## What the scheduler leaves alone -/

section Frames

variable {s' : Prio}

/-- A status that is neither blocked nor unused. -/
theorem frame_setStatus (s : Prio) (t : Nat) {st : Status} (hb : st ≠ .blocked)
    (hu : st ≠ .unused) : Frame s (s.setStatus t st) := by
  refine ⟨rfl, rfl, rfl, rfl, fun _ => rfl, ?_, ?_⟩
  · exact (forall_update_iff s.status fun u st => st = .blocked → s.status u = .blocked).mpr
      ⟨fun h => absurd h hb, fun u _ h => h⟩
  · exact (forall_update_iff s.status fun u st => st = .unused → s.status u = .unused).mpr
      ⟨fun h => absurd h hu, fun u _ h => h⟩

theorem frame_schedule (s : Prio) : Frame s (schedule s) := by
  have hrun := fun t => frame_setStatus s t (show Status.running ≠ .blocked from nofun) nofun
  unfold schedule
  split
  · exact { hrun s.idle with }
  · exact { hrun _ with }

theorem frame_admitted (s : Prio) (t : Nat) : Frame s (admitted s t) :=
  { frame_setStatus (threadEnqueue s t) t (show Status.ready ≠ .blocked from nofun) nofun with }

theorem frame_threadYield (s : Prio) : Frame s (threadYield s) :=
  (frame_admitted s s.current).trans (frame_schedule _)

theorem frame_yieldTo (s : Prio) (t : Nat) : Frame s (yieldTo s t) := by
  unfold yieldTo
  split
  · exact frame_threadYield s
  · exact Frame.refl s

theorem frame_threadSetPriority (s : Prio) (p : Int) : Frame s (threadSetPriority s p) := by
  unfold threadSetPriority
  dsimp only
  split
  · exact { Frame.refl s with }
  · refine Frame.trans ?_ (frame_yieldTo _ _)
    exact { Frame.refl s with }

/-- A semaphore that is not on the stack of a waiter. -/
theorem frame_setValue (s : Prio) (hm : ∀ t, m ≠ .waiter t) (v : Nat) : Frame s (s.setValue m v) :=
  { Frame.refl s with value := fun t => update_of_ne (fun e => hm t e.symm) .. }

theorem frame_semaTryDown (s : Prio) (hm : ∀ t, m ≠ .waiter t) : Frame s (semaTryDown s m) := by
  unfold semaTryDown
  split
  · exact frame_setValue s hm _
  · exact Frame.refl s

theorem frame_takeLock (s : Prio) (l : Nat) : Frame s (takeLock s l) := { Frame.refl s with }

theorem frame_lockTryAcquire (h : lockTryAcquire s l = some s') : Frame s s' := by
  obtain ⟨-, h⟩ := ite_none_left_eq_some.mp h
  split at h
  · rw [← some.inj h]
    exact (frame_semaTryDown s (m := .lock l) nofun).trans (frame_takeLock _ l)
  · rw [← some.inj h]
    exact Frame.refl s

/-- A new thread starts outside all calls, ready. -/
theorem Waits.frame_create (hw : Waits s) {p : Int}
    (h : threadCreate s t p = some s') : Frame s s' := by
  obtain ⟨hnew, h⟩ := ite_none_right_eq_some.mp h
  obtain ⟨s1, hs1, rfl⟩ := map_eq_some_iff.mp h
  obtain ⟨-, rfl⟩ := threadUnblock_eq hs1
  refine Frame.trans ?_ (frame_yieldTo _ t)
  have htodo : update s.todo t [] = s.todo := by
    rw [← hw.fresh t hnew.1]
    exact update_eq_self ..
  refine ⟨htodo, rfl, rfl, rfl, fun _ => rfl, ?_, ?_⟩
  all_goals
    intro u hu
    obtain ⟨hut, hu⟩ := of_update hu nofun
    exact (update_of_ne hut ..).symm.trans hu

end Frames

/-! ## Moves of the waiters -/

section Moves

variable {s' : Prio} {c : Nat}

/-- Filed with no condition, and nobody is about to wake it. -/
def Unfiled (s : Prio) (t : Nat) : Prop :=
  (∀ d, t ∉ s.conds d) ∧ ∀ u, .waiterUp t ∉ s.todo u

theorem Waits.unfiled (h : Waits s) (hno : inWait (s.todo t) = false) : Unfiled s t :=
  ⟨fun d hd => (nomatch hno.symm.trans (h.filed d t hd).1),
    fun u hu => (nomatch hno.symm.trans (h.called t u hu).1)⟩

theorem uncalled_setTodo {js : List Instr} (hjs : .waiterUp t ∉ js)
    (h : ∀ u, u ≠ c → .waiterUp t ∉ s.todo u) : ∀ u, .waiterUp t ∉ (s.setTodo c js).todo u :=
  (forall_update_iff s.todo fun _ is => .waiterUp t ∉ is).mpr ⟨hjs, h⟩

/-- The thread is somewhere else in its calls, and may be about to wake a waiter
    that no condition has any more. -/
theorem Waits.setTodo (h : Waits s) (hs : Shape (some c) s) (hidle : c ≠ s.idle)
    {js : List Instr} (hin : Inside js)
    (hwait : inWait js = true ∨ Unfiled s c)
    (hup : ∀ t, .waiterUp t ∈ js → .waiterUp t ∈ s.todo c ∨
      (Unfiled s t ∧ t ≠ c ∧ inWait (s.todo t) = true ∧ s.value (.waiter t) = 0)) :
    Waits (s.setTodo c js) := by
  have hself : (s.setTodo c js).todo c = js := update_self ..
  have hother : ∀ u, u ≠ c → (s.setTodo c js).todo u = s.todo u := fun u hu =>
    update_of_ne hu ..
  have hsub : ∀ t u, .waiterUp t ∈ (s.setTodo c js).todo u → .waiterUp t ∈ s.todo u ∨
      (u = c ∧ Unfiled s t ∧ t ≠ c ∧ inWait (s.todo t) = true ∧ s.value (.waiter t) = 0) := by
    intro t u ht
    by_cases hu : u = c
    · subst hu
      exact (hup t (hself ▸ ht)).imp_right fun hf => ⟨rfl, hf⟩
    · exact .inl (hother u hu ▸ ht)
  have hstill : ∀ t, (t = c → ¬ Unfiled s c) → inWait (s.todo t) = true →
      inWait ((s.setTodo c js).todo t) = true := by
    intro t hfiled ht
    by_cases htc : t = c
    · rw [htc, hself]
      exact hwait.resolve_right (hfiled htc)
    · rwa [hother t htc]
  refine { h with asleep := ?_, fresh := ?_, inside := ?_, idle := ?_, filed := ?_, called := ?_
                  caller := ?_ }
  · intro m u hu
    rw [hother u fun e => hs.not_waiter (e ▸ hu)]
    exact h.asleep m u hu
  · intro u hu
    rw [hother u (by rintro rfl; exact nomatch (hs.running u rfl).symm.trans hu)]
    exact h.fresh u hu
  · exact (forall_update_iff s.todo fun _ is => Inside is).mpr ⟨hin, fun u _ => h.inside u⟩
  · exact (hother s.idle hidle.symm).trans h.idle
  · intro d t ht
    obtain ⟨h₁, h2, h₃⟩ := h.filed d t ht
    refine ⟨hstill t (fun e hf => hf.1 d (e ▸ ht)) h₁, h2, fun u hu => ?_⟩
    rcases hsub t u hu with hu | ⟨-, hf, -⟩
    · exact h₃ u hu
    · exact hf.1 d ht
  · intro t u ht
    rcases hsub t u ht with ht | ⟨-, -, hne, h₁, h2⟩
    · obtain ⟨h₁, h2⟩ := h.called t u ht
      exact ⟨hstill t (fun e hf => hf.2 u (e ▸ ht)) h₁, h2⟩
    · exact ⟨hstill t (fun e => absurd e hne) h₁, h2⟩
  · intro t u v hu hv
    rcases hsub t u hu with hu | ⟨hu, hf, -⟩ <;> rcases hsub t v hv with hv | ⟨hv, hf', -⟩
    · exact h.caller t u v hu hv
    · exact absurd hu (hf'.2 u)
    · exact absurd hv (hf.2 v)
    · exact hu.trans hv.symm

/-- A list with one more entry. -/
theorem mem_update_append {α : Type} [DecidableEq α] {f : α → List Nat} {a b : α} {x : Nat} :
    x ∈ update f a (f a ++ [c]) b ↔ x ∈ f b ∨ (x = c ∧ b = a) := by
  by_cases hb : b = a
  · subst hb
    simp
  · simp [hb]

/-- The thread falls asleep on a semaphore. -/
theorem Waits.asleepOn (h : Waits s) (hhead : (s.todo c).head? = some (again m))
    (hown : ∀ t, m = .waiter t → c = t) : Waits (asleepOn s c m) := by
  have hmem : ∀ m' u, u ∈ (MavPrio.asleepOn s c m).waiters m' ↔
      u ∈ s.waiters m' ∨ (u = c ∧ m' = m) := fun m' u => mem_update_append
  refine { h with asleep := ?_, blocked := ?_, fresh := ?_ }
  · intro m' u hu
    rcases (hmem m' u).mp hu with hu | ⟨rfl, rfl⟩
    · exact h.asleep m' u hu
    · exact ⟨hhead, hown⟩
  · intro u hu hidle
    by_cases huc : u = c
    · exact ⟨m, (hmem m u).mpr (.inr ⟨huc, rfl⟩)⟩
    · obtain ⟨m', hm'⟩ := h.blocked u ((update_of_ne huc ..).symm.trans hu) hidle
      exact ⟨m', (hmem m' u).mpr (.inl hm')⟩
  · intro u hu
    exact h.fresh u (of_update hu nofun).2

/-- A sleeper is woken. -/
theorem Waits.woken (h : Waits s) (m : Sema) (t : Nat) : Waits (woken s m t) := by
  have hf := frame_admitted (s.setWaiters m ((s.waiters m).erase t)) t
  have hsub : ∀ m' u, u ∈ (MavPrio.woken s m t).waiters m' → u ∈ s.waiters m' := fun m' u =>
    (forall_update_iff s.waiters fun m' us => u ∈ us → u ∈ s.waiters m').mpr
      ⟨mem_of_mem_erase, fun m' _ hu => hu⟩ m'
  have hkept : ∀ m' u, u ≠ t → u ∈ s.waiters m' → u ∈ (MavPrio.woken s m t).waiters m' :=
    fun m' u hut => (forall_update_iff s.waiters fun m' us => u ∈ s.waiters m' → u ∈ us).mpr
      ⟨(mem_erase_of_ne hut).mpr, fun m' _ hu => hu⟩ m'
  refine { h with asleep := ?_, blocked := ?_, fresh := ?_ }
  · intro m' u hu
    exact h.asleep m' u (hsub m' u hu)
  · intro u hu hidle
    have hut : u ≠ t := (of_update hu nofun).1
    obtain ⟨m', hm'⟩ := h.blocked u (hf.blocked u hu) hidle
    exact ⟨m', hkept m' u hut hm'⟩
  · intro u hu
    exact h.fresh u (hf.unused u hu)

/-- `sema_up`: nobody sleeps there, or one sleeper is woken. -/
theorem semaUp_cases (h : semaUp s m = some s') :
    (s.waiters m = [] ∧ s' = s.setValue m (s.value m + 1)) ∨
      ∃ t ∈ s.waiters m, Frame ((woken s m t).setValue m (s.value m + 1)) s' := by
  unfold semaUp at h
  split at h
  · rename_i hnone
    exact .inl ⟨listMax_eq_none.mp hnone, (some.inj h).symm⟩
  · rename_i t ht
    obtain ⟨s1, hs1, rfl⟩ := map_eq_some_iff.mp h
    obtain ⟨-, rfl⟩ := threadUnblock_eq hs1
    exact .inr ⟨t, listMax_mem ht, frame_yieldTo _ t⟩

/-- `sema_up` of a semaphore of the program or of a lock. -/
theorem Waits.semaUp (h : Waits s) (hm : ∀ t, m ≠ .waiter t)
    (hu : semaUp s m = some s') : Waits s' := by
  rcases semaUp_cases hu with ⟨-, rfl⟩ | ⟨t, -, hf⟩
  · exact h.frame (frame_setValue s hm _)
  · exact ((h.woken m t).frame (frame_setValue _ hm _)).frame hf

/-- `sema_down` of a semaphore of the program or of a lock, by a thread that is
    not in `cond_wait`. -/
theorem Waits.semaDown (h : Waits s) (hs : Shape (some s.current) s) (hm : ∀ t, m ≠ .waiter t)
    (hidle : s.current ≠ s.idle) (hfree : s.todo s.current = []) (hin : Inside [again m])
    (hup : ∀ t, again m ≠ .waiterUp t) : Waits (semaDown s m (again m)) := by
  unfold MavPrio.semaDown
  split
  · rw [hfree]
    have htodo : Waits (s.setTodo s.current [again m]) := by
      refine h.setTodo hs hidle hin (.inr (h.unfiled ?_)) ?_
      · rw [hfree]
        rfl
      · intro t ht
        exact absurd (mem_singleton.mp ht).symm (hup t)
    have hsleep := htodo.asleepOn (c := s.current) (m := m)
      (by rw [show (s.setTodo s.current [again m]).todo s.current = [again m] from
            update_self ..]
          rfl)
      fun t ht => absurd ht (hm t)
    exact hsleep.frame (frame_schedule _)
  · exact h.frame (frame_setValue s hm _)

theorem frame_of_lent (h : Lent s s') : Frame s s' where
  todo := h.todo
  waiters := h.waiters
  conds := h.conds
  idle := h.idle
  value := fun _ => congrFun h.value _
  blocked := fun _ hu => h.status ▸ hu
  unused := fun _ hu => h.status ▸ hu

theorem Waits.lockSleep (h : Waits s) (hs : Shape (some s.current) s) (hidle : s.current ≠ s.idle)
    (hfree : s.todo s.current = []) : Waits (lockSleep s l) := by
  have hdown : Waits (MavPrio.semaDown s (.lock l) (.lockSleep l)) :=
    h.semaDown (m := .lock l) hs nofun hidle hfree (.single _ nofun nofun) nofun
  unfold MavPrio.lockSleep
  split
  · exact hdown
  · exact (hdown.frame (frame_takeLock _ l)).frame { Frame.refl _ with }

/-- `lock_acquire`, by a thread that has nothing else to do. -/
theorem Waits.lockAcquire (h : Waits s) (hs : Shape (some s.current) s) {turns : Nat}
    (hidle : s.current ≠ s.idle)
    (hfree : s.todo s.current = []) (ha : lockAcquire turns s l = some s') : Waits s' := by
  obtain ⟨-, ha⟩ := ite_none_left_eq_some.mp ha
  obtain ⟨s1, hd, rfl⟩ := map_eq_some_iff.mp ha
  have hs0 : Shape (some s.current) (s.setWaitingLock s.current (some l)) := hs.setWaitingLock
  obtain ⟨hl, hs1⟩ := lent_donateTo hs0 hd
  have hcur : s1.current = s.current := hl.current
  have hframe : Frame s s1 := { frame_of_lent hl with }
  refine (h.frame hframe).lockSleep (hcur ▸ hs1) ?_ ?_
  · rw [hcur, hframe.idle]
    exact hidle
  · rw [hcur, hframe.todo]
    exact hfree

theorem Waits.lockRelease (h : Waits s) (hr : lockRelease s l = some s') : Waits s' := by
  obtain ⟨-, hr⟩ := ite_none_right_eq_some.mp hr
  have hf : Frame s (dropLock s l) := { Frame.refl s with }
  exact (h.frame hf).semaUp (m := .lock l) nofun hr

/-! ## `cond_wait` and `cond_signal` -/

/-- The head of `cond_wait`: the thread is filed, with a fresh semaphore. -/
theorem Waits.condPush (h : Waits s) (hnw : ∀ m, s.current ∉ s.waiters m)
    (hwait : inWait (s.todo s.current) = true) (hnew : Unfiled s s.current)
    (hp : condPush s d l = some s') : Waits s' := by
  obtain ⟨-, rfl⟩ := of_guard hp
  have hsub : ∀ m u, u ∈ update s.waiters (.waiter s.current) [] m → u ∈ s.waiters m :=
    fun m u => (forall_update_iff s.waiters fun m us => u ∈ us → u ∈ s.waiters m).mpr
      ⟨fun hu => absurd hu not_mem_nil, fun m _ hu => hu⟩ m
  have hother : ∀ t, t ≠ s.current →
      update s.value (.waiter s.current) 0 (.waiter t) = s.value (.waiter t) :=
    fun t ht => update_of_ne (fun e => ht (Sema.waiter.inj e)) ..
  -- the entries of a condition are the old ones, and the new one
  have hmem : ∀ e t, t ∈ update s.conds d (s.conds d ++ [s.current]) e →
      t ∈ s.conds e ∨ (t = s.current ∧ e = d) := fun e t => mem_update_append.mp
  refine { h with asleep := ?_, blocked := ?_, filed := ?_, once := ?_, nodup := ?_, called := ?_ }
  · exact fun m u hu => h.asleep m u (hsub m u hu)
  · intro u hu hidle
    obtain ⟨m, hm⟩ := h.blocked u hu hidle
    refine ⟨m, ?_⟩
    have hne : m ≠ .waiter s.current := by
      rintro rfl
      exact hnw _ ((h.asleep _ u hm).2 _ rfl ▸ hm)
    show u ∈ update s.waiters (.waiter s.current) [] m
    rw [update_of_ne hne]
    exact hm
  · intro e t ht
    rcases hmem e t ht with ht | ⟨rfl, -⟩
    · obtain ⟨h₁, h2, h₃⟩ := h.filed e t ht
      exact ⟨h₁, (hother t fun heq => hnew.1 e (heq ▸ ht)).trans h2, h₃⟩
    · exact ⟨hwait, update_self .., hnew.2⟩
  · intro e f t he hf
    rcases hmem e t he with he | ⟨rfl, rfl⟩
    · rcases hmem f t hf with hf | ⟨rfl, -⟩
      · exact h.once e f t he hf
      · exact absurd he (hnew.1 e)
    · rcases hmem f _ hf with hf | ⟨-, rfl⟩
      · exact absurd hf (hnew.1 f)
      · rfl
  · refine (forall_update_iff s.conds fun _ ts => ts.Nodup).mpr ⟨?_, fun e _ => h.nodup e⟩
    exact nodup_append.mpr ⟨h.nodup d, nodup_singleton _,
      fun a ha b hb hab => hnew.1 d (mem_singleton.mp hb ▸ hab ▸ ha)⟩
  · intro t u ht
    obtain ⟨h₁, h2⟩ := h.called t u ht
    have hne : t ≠ s.current := by
      rintro rfl
      exact hnew.2 u ht
    exact ⟨h₁, (hother t hne).trans h2⟩

/-- `cond_signal` takes one entry off the condition. -/
theorem condSignal_cases (h : condSignal s d l = some s') : s.holder l = some s.current ∧
      ((s.conds d = [] ∧ s' = s) ∨
        ∃ t ∈ s.conds d, s' =
          { s.setTodo s.current (.waiterUp t :: s.todo s.current) with
            conds := update s.conds d ((s.conds d).erase t) }) := by
  obtain ⟨hl, h⟩ := ite_none_right_eq_some.mp h
  refine ⟨hl, ?_⟩
  split at h
  · rename_i hnil
    exact .inl ⟨hnil, (some.inj h).symm⟩
  obtain ⟨t, ht, rfl⟩ := map_eq_some_iff.mp h
  refine .inr ⟨t, ?_, rfl⟩
  unfold condMax at ht
  split at ht
  · exact nomatch ht
  · rename_i heq
    rw [heq, ← some.inj ht]
    exact mem_singleton.mpr rfl
  · obtain ⟨-, ht⟩ := ite_none_right_eq_some.mp ht
    exact listMax_mem ht

/-- The entry leaves the condition for the list of its caller. -/
theorem Waits.signalled (h : Waits s) (hs : Shape (some s.current) s)
    (hidle : s.current ≠ s.idle) (ht : t ∈ s.conds d)
    (hin : Inside (.waiterUp t :: s.todo s.current))
    (hno : inWait (s.todo s.current) = false) :
    Waits { s.setTodo s.current (.waiterUp t :: s.todo s.current) with
            conds := update s.conds d ((s.conds d).erase t) } := by
  obtain ⟨hwt, hvt, hct⟩ := h.filed d t ht
  have hne : t ≠ s.current := by
    rintro rfl
    exact nomatch hno.symm.trans hwt
  -- the entries that are left are others
  have hmem : ∀ e x, x ∈ update s.conds d ((s.conds d).erase t) e →
      x ∈ s.conds e ∧ x ≠ t := by
    intro e x hx
    by_cases he : e = d
    · subst he
      rw [update_self] at hx
      exact ⟨mem_of_mem_erase hx, ((h.nodup e).mem_erase_iff.mp hx).1⟩
    · rw [update_of_ne he] at hx
      exact ⟨hx, fun hxt => he (h.once e d t (hxt ▸ hx) ht)⟩
  have herased : Waits { s with conds := update s.conds d ((s.conds d).erase t) } := by
    refine { h with filed := ?_, once := ?_, nodup := ?_ }
    · exact fun e x hx => h.filed e x (hmem e x hx).1
    · exact fun e f x he hf => h.once e f x (hmem e x he).1 (hmem f x hf).1
    · exact (forall_update_iff s.conds fun _ ts => ts.Nodup).mpr
        ⟨(h.nodup d).erase t, fun e _ => h.nodup e⟩
  -- the only new wake-up is that of `t`
  refine herased.setTodo { hs with } hidle hin (.inr (herased.unfiled hno)) fun x hx => ?_
  rcases mem_cons.mp hx with hx | hx
  · rw [Instr.waiterUp.inj hx]
    exact .inr ⟨⟨fun e he => (hmem e t he).2 rfl, hct⟩, hne, hwt, hvt⟩
  · exact .inl hx

/-- The semaphore of a thread in `cond_wait` is free to change once the thread
    is filed nowhere and nobody is about to wake it. -/
theorem Waits.setValue (h : Waits s) {v : Nat} (hf : Unfiled s t) :
    Waits (s.setValue (.waiter t) v) := by
  have hother : ∀ u, u ≠ t → (s.setValue (.waiter t) v).value (.waiter u) = s.value (.waiter u) :=
    fun u hu => update_of_ne (fun e => hu (Sema.waiter.inj e)) ..
  refine { h with filed := ?_, called := ?_ }
  · intro d x hx
    obtain ⟨h₁, h2, h₃⟩ := h.filed d x hx
    exact ⟨h₁, (hother x fun e => hf.1 d (e ▸ hx)).trans h2, h₃⟩
  · intro x u hx
    obtain ⟨h₁, h2⟩ := h.called x u hx
    exact ⟨h₁, (hother x fun e => hf.2 u (e ▸ hx)).trans h2⟩

end Moves

/-! ## Steps and runs -/

/-- Nothing about the priorities: the lists and links alone. -/
theorem rules_true : Rules False fun _ _ => True where
  same := fun _ _ => trivial
  reset := fun _ _ _ _ _ _ => trivial
  init := fun _ _ _ => trivial
  enqueued := fun _ _ _ _ _ => trivial
  doze := fun _ _ _ => trivial
  await := fun _ _ _ => trivial
  sleep := fun _ _ _ _ => trivial
  wake := fun _ _ _ _ _ => trivial
  take := fun _ _ _ _ _ => trivial
  lend := fun _ _ _ _ _ _ _ => trivial
  schedule := fun _ _ => trivial

/-- The invariant of the system. -/
structure Orderly (s : Prio) : Prop where
  placed : Keeps (fun _ _ => True) s
  waits : Waits s

theorem booted_orderly (values : Nat → Nat) : Orderly (booted values) :=
  ⟨booted_keeps trivial, booted_waits values⟩

section Steps

variable {s' : Prio}

/-- The timer takes the CPU from a thread at any point of its calls. -/
theorem Orderly.preempt (h : Orderly s) (hidle : s.current ≠ s.idle) : Orderly (threadYield s) := by
  refine ⟨rules_true.keeps_schedule ?_ trivial, h.waits.frame (frame_threadYield s)⟩
  exact h.placed.shape.enqueued h.placed.shape.not_ready hidle h.placed.head
    (fun m => h.placed.shape.not_waiter) (.inr ⟨rfl, rfl⟩)

/-- The primitive that is a whole call. -/
theorem Waits.popped (h : Waits s) (hs : Shape (some s.current) s) (hidle : s.current ≠ s.idle) {i : Instr}
    (htodo : s.todo s.current = i :: is) (hin : Inside is)
    (hwait : inWait is = true ∨ inWait (i :: is) = false) : Waits (s.setTodo s.current is) := by
  refine h.setTodo hs hidle hin ?_ ?_
  · refine hwait.imp_right fun hno => h.unfiled ?_
    rw [htodo]
    exact hno
  · intro t ht
    rw [htodo]
    exact .inl (mem_cons_of_mem _ ht)

/-- `sema_down` at the end of `cond_wait`: let through, or to sleep. -/
theorem Waits.waiterDown (h : Waits s) (hs : Shape (some s.current) s) (hidle : s.current ≠ s.idle)
    (htodo : s.todo s.current = [.waiterDown, .lockAcquire l]) :
    Waits (MavPrio.semaDown (s.setTodo s.current [.lockAcquire l]) (.waiter s.current)
      .waiterDown) := by
  unfold MavPrio.semaDown
  split
  · -- the thread is where it was, asleep
    have hback : update (s.setTodo s.current [.lockAcquire l]).todo s.current
        (.waiterDown :: (s.setTodo s.current [.lockAcquire l]).todo s.current) = s.todo := by
      show update (update s.todo _ _) _
        (.waiterDown :: update s.todo s.current [.lockAcquire l] s.current) = _
      rw [update_self, update_idem, ← htodo, update_eq_self]
    have hsleep := h.asleepOn (c := s.current) (m := .waiter s.current) (by rw [htodo]; rfl)
      fun t ht => Sema.waiter.inj ht
    refine Waits.frame ?_ (frame_schedule _)
    exact hsleep.frame { Frame.refl _ with todo := hback }
  · rename_i hv
    have hv : s.value (.waiter s.current) ≠ 0 := hv
    -- the value says that a signal took the thread off its condition and woke it
    have hf : Unfiled s s.current :=
      ⟨fun d hd => hv (h.filed d _ hd).2.1, fun u hu => hv (h.called _ u hu).2⟩
    exact (h.setValue hf).setTodo (hs.setValue nofun) hidle (.single _ nofun nofun) (.inr hf)
      fun t ht => nomatch mem_singleton.mp ht

/-- The `sema_up` that ends `cond_signal`. -/
theorem Waits.waiterUp (h : Waits s) (hs : Shape (some s.current) s) (hidle : s.current ≠ s.idle)
    (htodo : s.todo s.current = .waiterUp t :: is) (hin : Inside is) (hno : .waiterUp t ∉ is)
    (hu : MavPrio.semaUp (s.setTodo s.current is) (.waiter t) = some s') : Waits s' := by
  have hpop := h.popped hs hidle htodo hin (.inr rfl)
  have hmine : .waiterUp t ∈ s.todo s.current := by
    rw [htodo]
    exact mem_cons_self ..
  have hfree : Unfiled (s.setTodo s.current is) t :=
    ⟨fun d hd => (h.filed d t hd).2.2 _ hmine,
      uncalled_setTodo hno fun u huc hu => huc (h.caller t u s.current hu hmine)⟩
  rcases semaUp_cases hu with ⟨-, rfl⟩ | ⟨x, -, hf⟩
  · exact hpop.setValue hfree
  · exact ((hpop.woken (.waiter t) x).setValue hfree).frame hf

/-- **STEP**: every move keeps the invariant. -/
theorem Orderly.step (h : Orderly s) {a : Step} (ha : step s a = some s') : Orderly s' := by
  refine ⟨rules_true.step h.placed False.elim ha, ?_⟩
  have hs := h.placed.shape
  obtain ⟨hidle, ⟨op, rfl, htodo, rfl⟩ | ⟨turns, i, is, rfl, htodo, hp⟩⟩ := step_cases ha
  · obtain ⟨hin, -, hup⟩ := Op.inside_body op
    refine h.waits.setTodo hs hidle hin (.inr (h.waits.unfiled ?_))
      fun t ht => absurd ht (hup t)
    rw [htodo]
    rfl
  have hin := h.waits.inside s.current
  rw [htodo] at hin
  have hpop : Inside is → (inWait is = true ∨ inWait (i :: is) = false) →
      Waits (s.setTodo s.current is) := h.waits.popped hs hidle htodo
  have hs0 : Shape (some s.current) (s.setTodo s.current is) :=
    (rules_true.popped h.placed htodo).1
  have hself : (s.setTodo s.current is).todo (s.setTodo s.current is).current = is :=
    update_self ..
  cases hin with
  | single i hd hc =>
    have hw := hpop .free (.inr (by cases i <;> rfl))
    cases i with
    | create t p => exact hw.frame (hw.frame_create hp)
    | yield =>
      rw [← some.inj hp]
      exact hw.frame (frame_threadYield _)
    | setPriority p =>
      rw [← some.inj hp]
      exact hw.frame (frame_threadSetPriority _ p)
    | semaDown i =>
      rw [← some.inj hp]
      exact hw.semaDown (m := .user i) hs0 nofun hidle hself (.single _ nofun nofun) nofun
    | semaTryDown i =>
      rw [← some.inj hp]
      exact hw.frame (frame_semaTryDown _ (m := .user i) nofun)
    | semaUp i => exact hw.semaUp (m := .user i) nofun hp
    | lockAcquire l => exact hw.lockAcquire hs0 hidle hself hp
    | lockSleep l =>
      rw [← some.inj hp]
      exact hw.lockSleep hs0 hidle hself
    | lockTryAcquire l => exact hw.frame (frame_lockTryAcquire hp)
    | lockRelease l => exact hw.lockRelease hp
    | condPush c l => exact absurd rfl (hc c l)
    | waiterDown => exact absurd rfl hd
    | condSignal d l =>
      obtain ⟨-, ⟨-, rfl⟩ | ⟨t, ht, rfl⟩⟩ := condSignal_cases hp
      · exact hw
      · refine hw.signalled hs0 hidle ht ?_ ?_
        · rw [hself]
          exact .single _ nofun nofun
        · rw [hself]
          rfl
    | waiterUp t => exact h.waits.waiterUp hs hidle htodo .free nofun hp
    | condBroadcast c l =>
      rw [← some.inj hp]
      unfold condBroadcast
      split
      · exact hw
      · rw [hself]
        refine hw.setTodo hs0 hidle (.signal c l) (.inr (hw.unfiled ?_)) ?_
        · exact (congrArg inWait hself).trans rfl
        · intro t ht
          simp at ht
  | push d l =>
    have hw := hpop (.release l) (.inl rfl)
    -- the thread is not in a wait yet, so that it is filed nowhere
    have hf : Unfiled s s.current := h.waits.unfiled (by rw [htodo]; rfl)
    refine hw.condPush (fun m => hs.not_waiter) ?_ ⟨hf.1, uncalled_setTodo (by simp) fun u _ => hf.2 u⟩ hp
    rw [hself]
    rfl
  | release l =>
    exact (hpop (.down l) (.inl rfl)).lockRelease hp
  | down l =>
    rw [← some.inj hp]
    exact h.waits.waiterDown hs hidle htodo
  | signal d l =>
    have hw := hpop (.single _ nofun nofun) (.inr rfl)
    obtain ⟨-, ⟨-, rfl⟩ | ⟨t, ht, rfl⟩⟩ := condSignal_cases hp
    · exact hw
    · refine hw.signalled hs0 hidle ht ?_ ?_
      · rw [hself]
        exact .up t d l
      · rw [hself]
        rfl
  | up t c l =>
    exact h.waits.waiterUp hs hidle htodo (.single _ nofun nofun) (by simp) hp

theorem Orderly.move (h : Orderly s) {a : Move} (ha : move s a = some s') : Orderly s' := by
  cases a with
  | own a => exact h.step ha
  | preempt =>
    obtain ⟨hidle, ha⟩ := ite_none_left_eq_some.mp ha
    rw [← some.inj ha]
    exact h.preempt hidle

end Steps

/-- **EVERY RUN** from the start of the system. -/
theorem run_orderly {values : Nat → Nat} {as : List Move}
    (h : exec move (booted values) as = some s) : Orderly s :=
  exec_inv_all (fun _ _ _ hI hs => hI.move hs) (booted_orderly values) h

/-! ## Signals -/

/-- `cond_signal` on `d` compares waiters, and finds one thread asleep on each of
    the filed semaphores. -/
def ComparesSleepers (s : Prio) (d : Nat) : Prop :=
  2 ≤ (s.conds d).length → ∀ t ∈ s.conds d, (s.waiters (.waiter t)).length = 1

/-- The call takes one entry off the condition and is about to wake it. -/
def TakesOne (s : Prio) (d : Nat) : Prop :=
  s.conds d ≠ [] → ∃ t ∈ s.conds d, ∀ turns, ∃ s', step s (.go turns) = some s' ∧
    s'.conds = Function.update s.conds d ((s.conds d).erase t) ∧
    (s'.todo s.current).head? = some (.waiterUp t)

/-- The `sema_up` lets one thread out of its `cond_wait`, and no other. -/
def WakesOne (s : Prio) (t : Nat) : Prop :=
  inWait (s.todo t) = true ∧ s.value (.waiter t) = 0 ∧
    ∀ turns, ∃ s', step s (.go turns) = some s' ∧
      s'.value (.waiter t) = 1 ∧ s'.waiters (.waiter t) = [] ∧
      ∀ u, u ≠ t → s'.value (.waiter u) = s.value (.waiter u) ∧
        s'.waiters (.waiter u) = s.waiters (.waiter u)

/-- What a signal is to do, at the step that the running thread takes next. -/
def SignalSound (s : Prio) : Prop :=
  match s.todo s.current with
  | .condSignal d l :: _ =>
    s.holder l = some s.current → ComparesSleepers s d ∧ TakesOne s d
  | .waiterUp t :: _ => WakesOne s t
  | _ => True

/-- Where `cond_signal` is to compare, no thread filed with the condition is
    still on its way to sleep. -/
def AllAsleep (s : Prio) : Prop :=
  match s.todo s.current with
  | .condSignal d l :: _ =>
    s.holder l = some s.current → 2 ≤ (s.conds d).length →
      ∀ t ∈ s.conds d, s.status t = .blocked
  | _ => True

theorem inWait_head {js : List Instr} (h : inWait js = true) :
    (∃ l, js.head? = some (.lockRelease l)) ∨ js.head? = some .waiterDown := by
  unfold inWait at h
  split at h
  · exact .inl ⟨_, rfl⟩
  · exact .inr rfl
  · exact nomatch h

/-- Only the thread itself sleeps on the semaphore of a waiter. -/
theorem Orderly.sleepers (h : Orderly s) (t : Nat) :
    s.waiters (.waiter t) = [] ∨ s.waiters (.waiter t) = [t] := by
  have hall : ∀ u ∈ s.waiters (.waiter t), u = t := fun u hu => (h.waits.asleep _ u hu).2 t rfl
  have hnd := h.placed.shape.nodup (.waiter t)
  rw [eq_replicate_of_mem hall] at hnd ⊢
  rcases Nat.le_one_iff_eq_zero_or_eq_one.mp (nodup_replicate.mp hnd) with h0 | h₁
  · exact .inl (by rw [h0]; rfl)
  · exact .inr (by rw [h₁]; rfl)

/-- A filed thread that is blocked sleeps on its own semaphore; one that is not
    blocked is still on its way there. -/
theorem Orderly.asleep_iff (h : Orderly s) (ht : t ∈ s.conds d) :
    (s.waiters (.waiter t)).length = 1 ↔ s.status t = .blocked := by
  constructor
  · intro hlen
    refine h.placed.shape.blocked (.waiter t) t ?_
    rcases h.sleepers t with hnil | hone
    · rw [hnil] at hlen
      exact nomatch hlen
    · rw [hone]
      exact mem_singleton.mpr rfl
  intro hb
  have hwait := (h.waits.filed d t ht).1
  have hidle : t ≠ s.idle := by
    rintro rfl
    rw [h.waits.idle] at hwait
    exact nomatch hwait
  obtain ⟨m, hm⟩ := h.waits.blocked t hb hidle
  obtain ⟨hhead, hown⟩ := h.waits.asleep m t hm
  -- inside `cond_wait` the only sleep is the one on its own semaphore
  have hown' : m = .waiter t := by
    rcases inWait_head hwait with ⟨l, hr⟩ | hd
    · have := hhead.symm.trans hr
      cases m <;> exact nomatch this
    · have := hhead.symm.trans hd
      cases m with
      | user i | lock l => exact nomatch this
      | waiter x => rw [hown x rfl]
  rw [hown'] at hm
  rcases h.sleepers t with hnil | hone
  · rw [hnil] at hm
    exact nomatch hm
  · rw [hone]
    rfl

theorem step_go (hidle : s.current ≠ s.idle) {i : Instr}
    (htodo : s.todo s.current = i :: is) (turns : Nat) :
    step s (.go turns) = perform turns (s.setTodo s.current is) i := by
  unfold step
  rw [if_neg hidle, htodo]

/-- `list_max` finds a waiter where every comparison reads a sleeper. -/
theorem condMax_isSome {ws : List Nat} (hne : ws ≠ [])
    (hall : 2 ≤ ws.length → ∀ t ∈ ws, (s.waiters (.waiter t)).length = 1) :
    ∃ t, condMax s ws = some t := by
  match ws, hne, hall with
  | [t], _, _ => exact ⟨t, rfl⟩
  | t :: u :: ws, _, hall =>
    have hsome : (t :: u :: ws).all (fun t => (condPriority s t).isSome) = true := by
      refine all_eq_true.mpr fun x hx => ?_
      have hlen := hall (by simp) x hx
      unfold condPriority
      cases hw : s.waiters (.waiter x) with
      | nil => rw [hw] at hlen; exact nomatch hlen
      | cons y ys => rfl
    exact ⟨_, if_pos hsome⟩

/-- The call of `cond_signal` takes one entry off, where the comparisons are safe. -/
theorem Orderly.takesOne (hidle : s.current ≠ s.idle)
    (htodo : s.todo s.current = .condSignal d l :: is) (hl : s.holder l = some s.current)
    (hcmp : ComparesSleepers s d) : TakesOne s d := by
  intro hne
  obtain ⟨t, ht⟩ := condMax_isSome hne hcmp
  obtain ⟨s', hsig⟩ : ∃ s', condSignal (s.setTodo s.current is) d l = some s' := by
    unfold condSignal
    rw [if_pos (show (s.setTodo s.current is).holder l =
      some (s.setTodo s.current is).current from hl)]
    split
    · exact ⟨_, rfl⟩
    · have hmax : condMax (s.setTodo s.current is) ((s.setTodo s.current is).conds d) = some t := ht
      rw [hmax]
      exact ⟨_, rfl⟩
  obtain ⟨-, ⟨hnil, -⟩ | ⟨t', ht', rfl⟩⟩ := condSignal_cases hsig
  · exact absurd hnil hne
  · refine ⟨t', ht', fun turns => ⟨_, (step_go hidle htodo turns).trans hsig, rfl, ?_⟩⟩
    have hself : ((s.setTodo s.current is).setTodo s.current
        (.waiterUp t' :: (s.setTodo s.current is).todo s.current)).todo s.current =
          .waiterUp t' :: (s.setTodo s.current is).todo s.current := update_self ..
    exact congrArg List.head? hself

/-- The `sema_up` of a signal wakes the thread it is for. -/
theorem Orderly.wakesOne (h : Orderly s) (hidle : s.current ≠ s.idle)
    (htodo : s.todo s.current = .waiterUp t :: is) : WakesOne s t := by
  obtain ⟨hwait, hv⟩ := h.waits.called t s.current (by rw [htodo]; exact mem_cons_self ..)
  refine ⟨hwait, hv, fun turns => ?_⟩
  have hother : ∀ u, u ≠ t → Sema.waiter u ≠ .waiter t := fun u hu e => hu (Sema.waiter.inj e)
  obtain ⟨s', hs'⟩ : ∃ s', semaUp (s.setTodo s.current is) (.waiter t) = some s' := by
    unfold semaUp
    split
    · exact ⟨_, rfl⟩
    · rename_i x hx
      have hb : s.status x = .blocked := h.placed.shape.blocked _ x (listMax_mem hx)
      unfold threadUnblock
      rw [if_pos (show ((s.setTodo s.current is).setWaiters _ _).status x = .blocked from hb)]
      exact ⟨_, rfl⟩
  refine ⟨s', (step_go hidle htodo turns).trans hs', ?_⟩
  rcases semaUp_cases hs' with ⟨hnil, rfl⟩ | ⟨x, hx, hf⟩
  · refine ⟨(update_self ..).trans (congrArg (· + 1) hv), hnil, fun u hu => ⟨?_, rfl⟩⟩
    exact update_of_ne (hother u hu) ..
  have hx' : x ∈ s.waiters (.waiter t) := hx
  have hxt : x = t := (h.waits.asleep _ x hx').2 t rfl
  have hone : s.waiters (.waiter t) = [t] :=
    (h.sleepers t).resolve_left fun hnil => by rw [hnil] at hx'; exact not_mem_nil hx'
  refine ⟨?_, ?_, fun u hu => ⟨?_, ?_⟩⟩
  · exact (hf.value t).trans ((update_self ..).trans (congrArg (· + 1) hv))
  · rw [hf.waiters]
    refine (update_self ..).trans ?_
    show (s.waiters (.waiter t)).erase x = []
    rw [hone, hxt, erase_cons_head]
  · exact (hf.value u).trans (update_of_ne (hother u hu) ..)
  · rw [hf.waiters]
    exact update_of_ne (hother u hu) ..

/-- **SIGNALS**: in every state of every run, under every interleaving, the next
    step of a signal compares sleepers only and wakes exactly one waiter,
    exactly when no thread filed with the condition is still on its way to
    sleep where the signal has to compare. -/
theorem signal_sound_iff (values : Nat → Nat) (as : List Move) (s : Prio)
    (hrun : exec move (booted values) as = some s) : SignalSound s ↔ AllAsleep s := by
  have h := run_orderly hrun
  unfold SignalSound AllAsleep
  have hidle : s.todo s.current ≠ [] → s.current ≠ s.idle := by
    intro hne e
    rw [e, h.waits.idle] at hne
    exact hne rfl
  split
  · rename_i d l is htodo
    have hne := hidle (by rw [htodo]; exact List.cons_ne_nil _ _)
    have hcmp : ComparesSleepers s d ↔
        (2 ≤ (s.conds d).length → ∀ t ∈ s.conds d, s.status t = .blocked) :=
      forall_congr' fun _ => forall_congr' fun t => forall_congr' fun ht => h.asleep_iff ht
    simp only [htodo]
    refine forall_congr' fun hl => ⟨fun hs => hcmp.mp hs.1, fun ha => ?_⟩
    exact ⟨hcmp.mpr ha, Orderly.takesOne hne htodo hl (hcmp.mpr ha)⟩
  · rename_i t is htodo
    have hne := hidle (by rw [htodo]; exact List.cons_ne_nil _ _)
    simp only [htodo]
    exact iff_of_true (h.wakesOne hne htodo) trivial
  · rename_i hother _
    split
    · rename_i htodo
      exact absurd htodo (hother _ _ _)
    · exact Iff.rfl

/-- **NO THREAD IS LOST**: under every interleaving the ready list has every ready thread once, and a
    thread other than the idle one is blocked exactly if it sleeps on a semaphore: on one only, once. -/
theorem no_thread_lost (values : Nat → Nat) (as : List Move) (s : Prio)
    (hrun : exec move (booted values) as = some s) :
    s.ready.Nodup ∧ (∀ m, (s.waiters m).Nodup) ∧ ∀ t, (t ∈ s.ready ↔ s.status t = .ready) ∧
      (t ≠ s.idle → (s.status t = .blocked ↔ ∃! m, t ∈ s.waiters m)) := by
  have h := run_orderly hrun
  have hs := h.placed.shape
  refine ⟨hs.ready_nodup, hs.nodup, fun t => ⟨hs.ready_iff t, fun hne => ⟨fun hb => ?_, ?_⟩⟩⟩
  · obtain ⟨m, hm⟩ := h.waits.blocked t hb hne
    exact ⟨m, hm, fun m' hm' => hs.once _ _ t hm' hm⟩
  · rintro ⟨m, hm, -⟩
    exact hs.blocked m t hm

/-- **NO WAKE-UP IS LOST OR DOUBLED**: under every interleaving a thread filed with a condition is
    in `cond_wait`, filed once and nowhere else, and nobody is about to wake it. A thread somebody
    is about to wake is in there too, and nobody else is about to. -/
theorem wakeup_once (values : Nat → Nat) (as : List Move) (s : Prio)
    (hrun : exec move (booted values) as = some s) (t : Nat) :
    (∀ c, t ∈ s.conds c → inWait (s.todo t) = true ∧ (s.conds c).count t = 1 ∧
      (∀ d, t ∈ s.conds d → d = c) ∧ ∀ u, .waiterUp t ∉ s.todo u) ∧
    ∀ u, .waiterUp t ∈ s.todo u → inWait (s.todo t) = true ∧ s.value (.waiter t) = 0 ∧
      ∀ v, .waiterUp t ∈ s.todo v → v = u := by
  have h := (run_orderly hrun).waits
  refine ⟨fun c hc => ?_, fun u hu => ?_⟩
  · obtain ⟨hin, -, hup⟩ := h.filed c t hc
    exact ⟨hin, List.count_eq_one_of_mem (h.nodup c) hc, fun d hd => h.once d c t hd hc, hup⟩
  · obtain ⟨hin, hzero⟩ := h.called t u hu
    exact ⟨hin, hzero, fun v hv => h.caller t v u hv hu⟩

/-- A call and its primitives, none of which takes more than three turns of the donation loop. -/
def calls (op : Op) (primitives : Nat) : List Move :=
  .own (.call op) :: List.replicate primitives (.own (.go 3))

/-- Thread 1 holds the lock while threads 3 and 4, of higher priorities, fall asleep on it, and then
    waits on the condition: its release switches to thread 4, which waits on the condition too.
    Then thread 3 takes the lock and signals. -/
def releaseToSignaller : List Move :=
  calls (.lockAcquire 0) 1 ++ calls (.threadCreate 3 32) 1 ++ calls (.lockAcquire 0) 1 ++
    calls (.threadCreate 4 33) 1 ++ calls (.lockAcquire 0) 1 ++ calls (.condWait 0 0) 2 ++
    [.own (.go 3)] ++ calls (.condWait 0 0) 3 ++ [.own (.go 3), .own (.call (.condSignal 0 0))]

/-- **SIGNAL TO A THREAD AWAKE**: threads 1 and 4 are filed with the condition,
    thread 1 has not gone to sleep, and the signal of thread 3 takes the front of
    an empty list. -/
theorem signal_compares_awake :
    ∃ s, exec move (booted fun _ => 0) releaseToSignaller = some s ∧
      s.todo s.current = [.condSignal 0 0] ∧ s.holder 0 = some s.current ∧
      s.conds 0 = [1, 4] ∧ s.waiters (.waiter 1) = [] ∧
      (move s (.own (.go 3))).isNone ∧ ¬ SignalSound s := by
  obtain ⟨s, hs, hobs⟩ := Option.map_eq_some_iff.mp
    (show (exec move (booted fun _ => 0) releaseToSignaller).map (fun s =>
        (s.todo s.current, decide (s.holder 0 = some s.current), s.conds 0,
          s.waiters (.waiter 1), (move s (.own (.go 3))).isNone)) =
      some ([.condSignal 0 0], true, [1, 4], [], true) by decide +kernel)
  simp only [Prod.mk.injEq, decide_eq_true_eq] at hobs
  obtain ⟨htodo, hl, hconds, hw, hnone⟩ := hobs
  refine ⟨s, hs, htodo, hl, hconds, hw, hnone, ?_⟩
  intro h
  unfold SignalSound at h
  rw [htodo] at h
  have hlen := (h hl).1 (by rw [hconds]; decide) 1 (by rw [hconds]; decide)
  rw [hw] at hlen
  exact nomatch hlen

/-- Threads 1 and 3 wait on the condition, and are asleep when thread 4 signals. -/
def signalSleepers : List Move :=
  calls (.threadCreate 3 33) 1 ++ calls (.lockAcquire 0) 1 ++ calls (.condWait 0 0) 3 ++
    calls (.threadCreate 4 30) 1 ++ calls (.lockAcquire 0) 1 ++ calls (.condWait 0 0) 3 ++
    calls (.lockAcquire 0) 1 ++ [.own (.call (.condSignal 0 0))]

theorem signal_sound_iff_sleepers :
    ∃ s, exec move (booted fun _ => 0) signalSleepers = some s ∧
      s.todo s.current = [.condSignal 0 0] ∧ s.conds 0 = [3, 1] ∧ SignalSound s := by
  obtain ⟨s, hs, hobs⟩ := Option.map_eq_some_iff.mp
    (show (exec move (booted fun _ => 0) signalSleepers).map (fun s =>
        (s.todo s.current, s.conds 0, s.status 3, s.status 1)) =
      some ([.condSignal 0 0], [3, 1], .blocked, .blocked) by decide +kernel)
  simp only [Prod.mk.injEq] at hobs
  obtain ⟨htodo, hconds, h3, h1⟩ := hobs
  refine ⟨s, hs, htodo, hconds, (signal_sound_iff (fun _ => 0) signalSleepers s hs).mpr ?_⟩
  unfold AllAsleep
  rw [htodo]
  intro _ _ t ht
  rw [hconds] at ht
  rcases List.mem_cons.mp ht with rfl | ht
  · exact h3
  · rw [List.mem_singleton.mp ht]
    exact h1

theorem no_thread_lost_sleepers :
    ∃ s, exec move (booted fun _ => 0) signalSleepers = some s ∧ ∃! m, 1 ∈ s.waiters m := by
  obtain ⟨s, hs, hobs⟩ := Option.map_eq_some_iff.mp
    (show (exec move (booted fun _ => 0) signalSleepers).map (fun s => (s.status 1, s.idle)) =
      some (.blocked, 2) by decide +kernel)
  obtain ⟨hb, hidle⟩ := Prod.mk.inj hobs
  exact ⟨s, hs, (((no_thread_lost _ _ s hs).2.2 1).2 (by rw [hidle]; decide)).mp hb⟩

theorem wakeup_once_sleepers :
    ∃ s, exec move (booted fun _ => 0) signalSleepers = some s ∧ inWait (s.todo 3) = true := by
  obtain ⟨s, hs, hobs⟩ := Option.map_eq_some_iff.mp
    (show (exec move (booted fun _ => 0) signalSleepers).map (fun s => s.conds 0) = some [3, 1] by
      decide +kernel)
  have hmem : 3 ∈ s.conds 0 := hobs ▸ List.mem_cons_self
  exact ⟨s, hs, ((wakeup_once _ _ s hs 3).1 0 hmem).1⟩

end MavCond
