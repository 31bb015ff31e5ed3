import Maverick.QueueProofs
import Maverick.RunProofs

/-! # The readers-writers lock — a monitor with barging

`rw_lock_acquire` and `rw_lock_release` run under a guard lock, except while they sleep in
`cond_wait`. A step is one stretch under the guard: from the call to its return or to `cond_wait`,
and from the return of `cond_wait` to the next one. A signalled caller runs at some later time, and
callers that arrive in between go first.

Two facts carry the absence of stuck states. A queued reader has a writer in front of it, inside or
waiting: only the release of a writer can change that, and it wakes all readers when no writer
waits. And while nobody is inside, a queued writer has another, signalled, writer in front of it.
-/

namespace MavRwLock

open MavQueue MavRun List
open Function (update update_self update_of_ne)

/-! ## The lock -/

/-- The `reader` flag of the calls. -/
inductive Role where
  | reader
  | writer
  deriving DecidableEq, Repr

/-- `struct rw_lock`: the counters and the queues of its two conditions.
    `signalled` has the callers that left a queue and have not run since, and
    `inside` those between acquire and release; no code keeps these two. -/
structure RwLock where
  AR : Nat
  WR : Nat
  AW : Nat
  WW : Nat
  waiters : Role → List Nat
  signalled : Role → List Nat
  inside : Role → List Nat

def rwLockInit : RwLock :=
  { AR := 0, WR := 0, AW := 0, WW := 0
    waiters := fun _ => [], signalled := fun _ => [], inside := fun _ => [] }

/-- The tests of the two loops of `rw_lock_acquire`. -/
def blocked (s : RwLock) : Role → Bool
  | .reader => decide (s.AW + s.WW > 0)
  | .writer => decide (s.AR + s.AW > 0)

/-- `cond_wait` up to the sleep, with the count before it. -/
def startWait (s : RwLock) (t : Nat) (r : Role) : RwLock :=
  let s := match r with
    | .reader => { s with WR := s.WR + 1 }
    | .writer => { s with WW := s.WW + 1 }
  { s with waiters := update s.waiters r (s.waiters r ++ [t]) }

/-- The count after `cond_wait`. -/
def endWait (s : RwLock) (t : Nat) (r : Role) : RwLock :=
  let s := match r with
    | .reader => { s with WR := s.WR - 1 }
    | .writer => { s with WW := s.WW - 1 }
  { s with signalled := update s.signalled r ((s.signalled r).erase t) }

/-- The way in. -/
def enter (s : RwLock) (t : Nat) (r : Role) : RwLock :=
  let s := match r with
    | .reader => { s with AR := s.AR + 1 }
    | .writer => { s with AW := s.AW + 1 }
  { s with inside := update s.inside r (t :: s.inside r) }

/-- The loop of `rw_lock_acquire` from a test of its condition on. -/
def acquireLoop (s : RwLock) (t : Nat) (r : Role) : RwLock :=
  if blocked s r then startWait s t r else enter s t r

/-- How `cond_signal` chooses: the longest waiting caller, or under `SCHED_PRIO`
    the first with the largest effective priority at that moment. -/
inductive Pick where
  | front
  | largest (effPriority : Nat → Int)

def Pick.choose : Pick → List Nat → Option Nat
  | .front, ws => ws.head?
  | .largest effPriority, ws => listMax effPriority ws

def condSignal (s : RwLock) (pick : Pick) (r : Role) : RwLock :=
  match pick.choose (s.waiters r) with
  | none => s
  | some t =>
    { s with
      waiters := update s.waiters r ((s.waiters r).erase t)
      signalled := update s.signalled r (s.signalled r ++ [t]) }

/-- The loop of `cond_broadcast`, for as many rounds as there are waiters. -/
def broadcastLoop (pick : Pick) (r : Role) : Nat → RwLock → RwLock
  | 0, s => s
  | n + 1, s => if s.waiters r = [] then s else broadcastLoop pick r n (condSignal s pick r)

def condBroadcast (s : RwLock) (pick : Pick) (r : Role) : RwLock :=
  broadcastLoop pick r (s.waiters r).length s

def rwLockRelease (s : RwLock) (t : Nat) (r : Role) (pick : Pick) : RwLock :=
  let s := { s with inside := update s.inside r ((s.inside r).erase t) }
  match r with
  | .reader =>
    let s := { s with AR := s.AR - 1 }
    if s.AR = 0 ∧ s.WW > 0 then condSignal s pick .writer else s
  | .writer =>
    let s := { s with AW := s.AW - 1 }
    if s.WW > 0 then condSignal s pick .writer
    else if s.WR > 0 then condBroadcast s pick .reader
    else s

/-- The stretches under the guard lock. -/
inductive Section where
  | acquire (t : Nat) (r : Role)
  | resume (t : Nat) (r : Role)
  | release (t : Nat) (r : Role) (pick : Pick)

/-- The callers asleep in `cond_wait`, or on their way back from it. -/
def RwLock.waiting (s : RwLock) : List Nat :=
  s.waiters .reader ++ s.waiters .writer ++ s.signalled .reader ++ s.signalled .writer

/-- One stretch; `none` where the caller is not at the start of it. -/
def stretch (s : RwLock) : Section → Option RwLock
  | .acquire t r => if t ∈ s.waiting then none else some (acquireLoop s t r)
  | .resume t r => if t ∈ s.signalled r then some (acquireLoop (endWait s t r) t r) else none
  | .release t r pick =>
    if t ∈ s.inside r ∧ t ∉ s.waiting then some (rwLockRelease s t r pick) else none

/-! ## Waking -/

/-- A signal to a queue: nothing if it is empty, one caller otherwise. -/
theorem condSignal_cases (s : RwLock) (pick : Pick) (r : Role) :
    (s.waiters r = [] ∧ condSignal s pick r = s) ∨
      ∃ t ∈ s.waiters r, condSignal s pick r =
        { s with
          waiters := update s.waiters r ((s.waiters r).erase t)
          signalled := update s.signalled r (s.signalled r ++ [t]) } := by
  unfold condSignal
  cases hc : pick.choose (s.waiters r) with
  | none =>
    refine .inl ⟨?_, rfl⟩
    cases pick with
    | front => exact List.head?_eq_none_iff.mp hc
    | largest effPriority => exact listMax_eq_none.mp hc
  | some t =>
    refine .inr ⟨t, ?_, rfl⟩
    cases pick with
    | front => exact mem_of_head? hc
    | largest effPriority => exact listMax_mem hc

/-- What signals to the queue `r` leave as it is: the counters, who is inside,
    the other queue, and how many callers of `r` wait. -/
structure Signals (r : Role) (s s' : RwLock) : Prop where
  AR : s'.AR = s.AR
  WR : s'.WR = s.WR
  AW : s'.AW = s.AW
  WW : s'.WW = s.WW
  inside : s'.inside = s.inside
  others : ∀ q, q ≠ r → s'.waiters q = s.waiters q ∧ s'.signalled q = s.signalled q
  waiting : (s'.waiters r).length + (s'.signalled r).length =
    (s.waiters r).length + (s.signalled r).length

theorem Signals.refl (r : Role) (s : RwLock) : Signals r s s :=
  ⟨rfl, rfl, rfl, rfl, rfl, fun _ _ => ⟨rfl, rfl⟩, rfl⟩

variable {r : Role} {s s' : RwLock}

theorem Signals.trans {s'' : RwLock} (h : Signals r s s') (h' : Signals r s' s'') :
    Signals r s s'' :=
  ⟨h'.AR.trans h.AR, h'.WR.trans h.WR, h'.AW.trans h.AW, h'.WW.trans h.WW, h'.inside.trans h.inside,
    fun q hq => ⟨(h'.others q hq).1.trans (h.others q hq).1,
      (h'.others q hq).2.trans (h.others q hq).2⟩,
    h'.waiting.trans h.waiting⟩

theorem condSignal_signals (s : RwLock) (pick : Pick) (r : Role) :
    Signals r s (condSignal s pick r) := by
  rcases condSignal_cases s pick r with ⟨-, heq⟩ | ⟨t, ht, heq⟩
  · rw [heq]
    exact Signals.refl r s
  rw [heq]
  refine ⟨rfl, rfl, rfl, rfl, rfl, ?_, ?_⟩
  · intro q hq
    exact ⟨update_of_ne hq .., update_of_ne hq ..⟩
  · have hpos : 0 < (s.waiters r).length := length_pos_of_mem ht
    simp only [update_self, length_erase_of_mem ht, length_append, length_singleton]
    omega

/-- Where a signal leaves somebody in the queue, somebody is signalled. -/
theorem condSignal_signalled {pick : Pick}
    (h : (condSignal s pick r).waiters r ≠ []) : (condSignal s pick r).signalled r ≠ [] := by
  rcases condSignal_cases s pick r with ⟨hnil, heq⟩ | ⟨t, -, heq⟩
  · rw [heq] at h
    exact absurd hnil h
  · rw [heq]
    simp only [update_self]
    exact append_ne_nil_of_right_ne_nil _ (cons_ne_nil _ _)

/-- The loop of `cond_broadcast` ends with an empty queue. -/
theorem broadcastLoop_spec (pick : Pick) (r : Role) (n : Nat) (s : RwLock)
    (hn : (s.waiters r).length ≤ n) :
    Signals r s (broadcastLoop pick r n s) ∧ (broadcastLoop pick r n s).waiters r = [] := by
  induction n generalizing s with
  | zero => exact ⟨Signals.refl r s, length_eq_zero_iff.mp (Nat.le_zero.mp hn)⟩
  | succ n ih =>
    unfold broadcastLoop
    split
    case isTrue hnil => exact ⟨Signals.refl r s, hnil⟩
    case isFalse hne =>
      have hlen : ((condSignal s pick r).waiters r).length ≤ n := by
        rcases condSignal_cases s pick r with ⟨hnil, -⟩ | ⟨t, ht, heq⟩
        · exact absurd hnil hne
        · rw [heq]
          simp only [update_self, length_erase_of_mem ht]
          omega
      obtain ⟨hsig, hnil⟩ := ih (condSignal s pick r) hlen
      exact ⟨(condSignal_signals s pick r).trans hsig, hnil⟩

theorem condBroadcast_spec (s : RwLock) (pick : Pick) (r : Role) :
    Signals r s (condBroadcast s pick r) ∧ (condBroadcast s pick r).waiters r = [] :=
  broadcastLoop_spec pick r _ s (Nat.le_refl _)

/-! ## The invariant -/

/-- The counters count, and the lock excludes. -/
structure Counters (s : RwLock) : Prop where
  AR : s.AR = (s.inside .reader).length
  AW : s.AW = (s.inside .writer).length
  WR : s.WR = (s.waiters .reader).length + (s.signalled .reader).length
  WW : s.WW = (s.waiters .writer).length + (s.signalled .writer).length
  single : s.AW ≤ 1
  alone : s.AW = 0 ∨ s.AR = 0

/-- Every queued caller has somebody in front of it who will wake it. -/
structure Fair (s : RwLock) : Prop extends Counters s where
  readers : s.waiters .reader ≠ [] → 0 < s.AW + s.WW
  writers : s.waiters .writer ≠ [] → 0 < s.AR + s.AW ∨ s.signalled .writer ≠ []

theorem rwLockInit_fair : Fair rwLockInit :=
  ⟨⟨rfl, rfl, rfl, rfl, Nat.zero_le _, .inl rfl⟩, fun h => absurd rfl h, fun h => absurd rfl h⟩

theorem update_reader {α : Type} (f : Role → α) (x : α) :
    update f .reader x .reader = x ∧ update f .reader x .writer = f .writer :=
  ⟨update_self .., update_of_ne (by decide) ..⟩

theorem update_writer {α : Type} (f : Role → α) (x : α) :
    update f .writer x .writer = x ∧ update f .writer x .reader = f .reader :=
  ⟨update_self .., update_of_ne (by decide) ..⟩

/-- A writer at the loop goes in or waits for somebody inside, whatever the queues were promised. -/
theorem Counters.writerLoop (h : Counters s) (t : Nat) : Fair (acquireLoop s t .writer) := by
  unfold acquireLoop
  by_cases hb : s.AR + s.AW > 0
  · rw [if_pos (show blocked s .writer = true from decide_eq_true hb)]
    have hWW := h.WW
    refine ⟨⟨h.AR, h.AW, ?_, ?_, h.single, h.alone⟩, fun _ => ?_, fun _ => .inl hb⟩
    · exact h.WR
    · simp only [startWait, update_writer, length_append, length_singleton]
      omega
    · show 0 < s.AW + (s.WW + 1)
      omega
  rw [if_neg (by simpa [blocked] using hb)]
  have hAW := h.AW
  refine ⟨⟨?_, ?_, h.WR, h.WW, ?_, .inr ?_⟩, fun _ => ?_, fun _ => .inl ?_⟩
  · exact h.AR
  · simp only [enter, update_writer, length_cons]
    omega
  · show s.AW + 1 ≤ 1
    omega
  · show s.AR = 0
    omega
  · show 0 < s.AW + 1 + s.WW
    omega
  · show 0 < s.AR + (s.AW + 1)
    omega

/-- Arriving at the loop: a caller waits only for somebody inside, or for a
    writer that waits itself. -/
theorem Fair.loop (h : Fair s) (t : Nat) (r : Role) : Fair (acquireLoop s t r) := by
  cases r with
  | reader =>
    unfold acquireLoop
    by_cases hb : s.AW + s.WW > 0
    · rw [if_pos (show blocked s .reader = true from decide_eq_true hb)]
      have hWR := h.WR
      refine { h with WR := ?_, WW := ?_, readers := fun _ => hb, writers := ?_ }
      · simp only [startWait, update_reader, length_append, length_singleton]
        omega
      · exact h.WW
      · exact h.writers
    rw [if_neg (by simpa [blocked] using hb)]
    have hAR := h.AR
    refine { h with AR := ?_, AW := ?_, alone := .inl ?_, writers := fun _ => .inl ?_ }
    · simp only [enter, update_reader, length_cons]
      omega
    · exact h.AW
    · show s.AW = 0
      omega
    · show 0 < s.AR + 1 + s.AW
      omega
  | writer => exact h.toCounters.writerLoop t

/-- Coming back from `cond_wait`, and through the loop again. The writer that comes back is the one
    others may rely on, and it goes in or waits for somebody inside. -/
theorem Fair.resume (h : Fair s) {t : Nat} (ht : t ∈ s.signalled r) :
    Fair (acquireLoop (endWait s t r) t r) := by
  have hlen := length_erase_of_mem ht
  have hpos : 0 < (s.signalled r).length := length_pos_of_mem ht
  cases r with
  | reader =>
    refine Fair.loop ?_ t .reader
    have hWR := h.WR
    refine { h with WR := ?_, WW := ?_, writers := ?_ }
    · simp only [endWait, update_reader]
      omega
    · exact h.WW
    · exact h.writers
  | writer =>
    have hWW := h.WW
    refine Counters.writerLoop (s := endWait s t .writer) { h with WR := ?_, WW := ?_ } t
    · exact h.WR
    · simp only [endWait, update_writer]
      omega

/-- Signals keep what the counters say; what is left are the two promises to the queues. -/
theorem Counters.signals (h : Counters s) (hs : Signals r s s')
    (hreaders : s'.waiters .reader ≠ [] → 0 < s.AW + s.WW)
    (hwriters : s'.waiters .writer ≠ [] → 0 < s.AR + s.AW ∨ s'.signalled .writer ≠ []) :
    Fair s' := by
  have hall : ∀ q, (s'.waiters q).length + (s'.signalled q).length =
      (s.waiters q).length + (s.signalled q).length := by
    intro q
    by_cases hq : q = r
    · rw [hq]
      exact hs.waiting
    · rw [(hs.others q hq).1, (hs.others q hq).2]
  refine ⟨⟨?_, ?_, ?_, ?_, ?_, ?_⟩, ?_, ?_⟩
  · rw [hs.AR, hs.inside]; exact h.AR
  · rw [hs.AW, hs.inside]; exact h.AW
  · rw [hs.WR, hall]; exact h.WR
  · rw [hs.WW, hall]; exact h.WW
  · rw [hs.AW]; exact h.single
  · rw [hs.AW, hs.AR]; exact h.alone
  · rw [hs.AW, hs.WW]; exact hreaders
  · rw [hs.AW, hs.AR]; exact hwriters

/-- The way out. -/
theorem Fair.release (h : Fair s) {t : Nat} (ht : t ∈ s.inside r)
    (pick : Pick) : Fair (rwLockRelease s t r pick) := by
  have hlen := length_erase_of_mem ht
  have hpos : 0 < (s.inside r).length := length_pos_of_mem ht
  have hAR := h.AR
  have hAW := h.AW
  have hWR := h.WR
  have hWW := h.WW
  have halone := h.alone
  have hsingle := h.single
  unfold rwLockRelease
  cases r with
  | reader =>
    have hc : Counters { s with
        inside := update s.inside .reader ((s.inside .reader).erase t)
        AR := s.AR - 1 } := by
      refine ⟨?_, ?_, hWR, hWW, hsingle, .inl ?_⟩
      · simp only [update_reader]
        omega
      · exact hAW
      · show s.AW = 0
        omega
    dsimp only
    split
    case isTrue hlast =>
      -- the last reader: the readers in the queue still have the writers in front of them
      have hww : s.WW > 0 := hlast.2
      refine hc.signals (condSignal_signals _ pick .writer) (fun _ => ?_)
        (fun hne => .inr (condSignal_signalled hne))
      show 0 < s.AW + s.WW
      omega
    case isFalse hmore =>
      refine hc.signals (Signals.refl .reader _) h.readers (fun hne => .inl ?_)
      have hlen : 0 < (s.waiters .writer).length := length_pos_iff.mpr hne
      show 0 < s.AR - 1 + s.AW
      omega
  | writer =>
    have hc : Counters { s with
        inside := update s.inside .writer ((s.inside .writer).erase t)
        AW := s.AW - 1 } := by
      refine ⟨?_, ?_, hWR, hWW, ?_, .inl ?_⟩
      · exact hAR
      · simp only [update_writer]
        omega
      · show s.AW - 1 ≤ 1
        omega
      · show s.AW - 1 = 0
        omega
    dsimp only
    split
    case isTrue hww =>
      refine hc.signals (condSignal_signals _ pick .writer) (fun _ => ?_)
        (fun hne => .inr (condSignal_signalled hne))
      show 0 < s.AW - 1 + s.WW
      omega
    case isFalse hww =>
      have hnone : s.waiters .writer = [] := length_eq_zero_iff.mp (by omega)
      split
      case isTrue =>
        -- no writer waits: every reader is woken
        obtain ⟨hsig, hnil⟩ := condBroadcast_spec
          { s with inside := update s.inside .writer ((s.inside .writer).erase t)
                   AW := s.AW - 1 } pick .reader
        exact hc.signals hsig (fun hne => absurd hnil hne)
          (fun hne => absurd (((hsig.others .writer nofun).1).trans hnone) hne)
      case isFalse hwr =>
        have hnil : s.waiters .reader = [] := length_eq_zero_iff.mp (by omega)
        exact hc.signals (Signals.refl .reader _) (fun hne => absurd hnil hne)
          (fun hne => absurd hnone hne)

/-- **STEP**: every stretch under the guard keeps the invariant. -/
theorem Fair.step (h : Fair s) {e : Section} (hs : stretch s e = some s') : Fair s' := by
  cases e with
  | acquire t r =>
    obtain ⟨-, hs⟩ := Option.ite_none_left_eq_some.mp hs
    rw [← Option.some.inj hs]
    exact h.loop t r
  | resume t r =>
    obtain ⟨ht, rfl⟩ := of_guard hs
    exact h.resume ht
  | release t r pick =>
    obtain ⟨ht, rfl⟩ := of_guard hs
    exact h.release ht.1 pick

/-- While nobody is inside, a caller that waits has a signalled one to go
    first, which finds the way in free. -/
theorem Fair.not_stuck (h : Fair s) (hAR : s.AR = 0) (hAW : s.AW = 0)
    (hw : s.waiting ≠ []) : ∃ r, ∃ t ∈ s.signalled r, blocked (endWait s t r) r = false := by
  have hwriter : s.signalled .writer ≠ [] →
      ∃ r, ∃ t ∈ s.signalled r, blocked (endWait s t r) r = false := by
    intro hne
    obtain ⟨t, ht⟩ := exists_mem_of_ne_nil _ hne
    exact ⟨.writer, t, ht, by simp [blocked, endWait, hAR, hAW]⟩
  by_cases hsw : s.signalled .writer = []
  · -- then no writer waits at all, and no reader is queued
    have hww : s.waiters .writer = [] := by
      by_contra hne
      rcases h.writers hne with hpos | hs
      · omega
      · exact hs hsw
    have hWW : s.WW = 0 := by rw [h.WW, hww, hsw]; rfl
    have hwr : s.waiters .reader = [] := by
      by_contra hne
      have := h.readers hne
      omega
    have hsr : s.signalled .reader ≠ [] := by
      intro hnil
      exact hw (by simp [RwLock.waiting, hwr, hww, hnil, hsw])
    obtain ⟨t, ht⟩ := exists_mem_of_ne_nil _ hsr
    exact ⟨.reader, t, ht, by simp [blocked, endWait, hAW, hWW]⟩
  · exact hwriter hsw

theorem run_fair {es : List Section} (h : exec stretch rwLockInit es = some s) : Fair s :=
  exec_inv_all (fun _ _ _ hI hs => hI.step hs) rwLockInit_fair h

/-- **READERS AND WRITERS**: in every state of every run, `AR` and `AW` count the
    readers and writers inside, at most one writer is inside and never with a
    reader; and whenever a caller waits and nobody is inside, a waiting caller
    has been signalled. -/
theorem rwLock_safe_and_live (es : List Section) (s : RwLock)
    (hrun : exec stretch rwLockInit es = some s) :
    s.AR = (s.inside .reader).length ∧ s.AW = (s.inside .writer).length ∧ s.AW ≤ 1 ∧
      ¬ (0 < s.AW ∧ 0 < s.AR) ∧
      (s.waiting ≠ [] → s.AR = 0 → s.AW = 0 → ∃ r, ∃ t ∈ s.signalled r, t ∈ s.waiting) := by
  have h := run_fair hrun
  refine ⟨h.AR, h.AW, h.single, ?_, ?_⟩
  · have := h.alone
    omega
  · intro hw hAR hAW
    obtain ⟨r, t, ht, -⟩ := h.not_stuck hAR hAW hw
    refine ⟨r, t, ht, ?_⟩
    cases r with
    | reader => exact List.mem_append_left _ (List.mem_append_right _ ht)
    | writer => exact List.mem_append_right _ ht

/-- A writer is inside, a reader waits for it and is woken, and a second writer
    goes in before that reader runs. -/
def barging : List Section :=
  [.acquire 1 .writer, .acquire 2 .reader, .release 1 .writer .front, .acquire 3 .writer,
   .resume 2 .reader, .acquire 4 .writer, .release 3 .writer .front]

theorem rwLock_safe_and_live_barging :
    ∃ s, exec stretch rwLockInit barging = some s ∧
      s.AR = 0 ∧ s.AW = 0 ∧ s.waiters .reader = [2] ∧
      ∃ r, ∃ t ∈ s.signalled r, t ∈ s.waiting :=
  ⟨_, rfl, rfl, rfl, rfl, (rwLock_safe_and_live barging _ rfl).2.2.2.2 (by decide) rfl rfl⟩

end MavRwLock
