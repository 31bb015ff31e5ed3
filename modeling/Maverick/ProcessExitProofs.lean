import Maverick.RunProofs
import Maverick.CountProofs

/-! # Ending a process — threads that wait for each other

`thread_count` counts the threads of a process. `pthread_exit` takes one off and wakes whoever
waits on `exit_cond`; `pthread_exit_main` waits there until the main thread is alone or somebody
exits the process; `process_exit` sets `is_exiting` and waits there until its thread is alone.

A thread in `process_exit` never takes itself off the count. So two of them wait for each other: a
second thread calls `exit`, or the main thread comes to the end of a system call, finds `is_exiting`
set and calls `process_exit` as well. As long as nobody enters `process_exit` when `is_exiting` is
set, some thread can always go on.

Every section under `exit_lock` is one step. -/

namespace MavProcessExit

open MavRun MavCount Option
open Function (update update_self update_of_ne update_eq_self forall_update_iff comp_update)

/-! ## The protocol -/

/-- Where a thread of the process stands. -/
inductive Phase where
  /-- not created -/
  | absent
  /-- in `start_pthread`: before it counts itself, and before its stack is set up;
      the creator waits for `started` -/
  | starting (creator : Nat)
  | settingUp (creator : Nat)
  | creating (child : Nat)
  /-- in user mode or in a system call -/
  | running
  /-- before the section of `pthread_exit`, and of `pthread_exit_main` -/
  | leaving
  | mainLeaving
  /-- in `cond_wait` of `pthread_exit_main`; woken or not -/
  | mainWaiting (woken : Bool)
  /-- before the section of `process_exit`, and in its `cond_wait` -/
  | exiting
  | exitWaiting (woken : Bool)
  /-- past the wait of `process_exit` -/
  | ended
  /-- has left -/
  | gone
  deriving DecidableEq

structure Process where
  phase : Nat → Phase
  threadCount : Int
  isExiting : Bool
  nextTid : Nat

def isMainThread (th : Nat) : Bool := th == 0

namespace Process

variable (s : Process)

def setPhase (th : Nat) (ph : Phase) : Process := { s with phase := Function.update s.phase th ph }

end Process

def Phase.wake : Phase → Phase
  | .mainWaiting _ => .mainWaiting true
  | .exitWaiting _ => .exitWaiting true
  | ph => ph

/-- `cond_broadcast` on `exit_cond`. -/
def condBroadcast (s : Process) : Process := { s with phase := fun th => (s.phase th).wake }

/-- `pthread_execute` up to its wait; `create` is the answer of `thread_create`. -/
def pthreadExecute (s : Process) (th : Nat) (create : Bool) : Process :=
  if create then
    { (s.setPhase th (.creating s.nextTid)).setPhase s.nextTid (.starting th) with
      nextTid := s.nextTid + 1 }
  else s

/-- The first section of `start_pthread`; `memory` is for its status. -/
def startPthread (s : Process) (th creator : Nat) (memory : Bool) : Process :=
  if memory = false ∨ s.isExiting then (s.setPhase th .gone).setPhase creator .running
  else { s.setPhase th (.settingUp creator) with threadCount := s.threadCount + 1 }

/-- The rest of `start_pthread`: a thread whose stack cannot be set up takes itself
    off the count, and wakes nobody. -/
def setupThread (s : Process) (th creator : Nat) (success : Bool) : Process :=
  if success then (s.setPhase th .running).setPhase creator .running
  else { (s.setPhase th .gone).setPhase creator .running with threadCount := s.threadCount - 1 }

/-- `pthread_exit` up to its section. -/
def pthreadExit (s : Process) (th : Nat) : Process :=
  s.setPhase th (if isMainThread th then .mainLeaving else .leaving)

/-- The section of `pthread_exit`. -/
def leaveProcess (s : Process) (th : Nat) : Process :=
  condBroadcast { s.setPhase th .gone with threadCount := s.threadCount - 1 }

/-- The section of `pthread_exit_main`, entered or woken. -/
def pthreadExitMain (s : Process) (th : Nat) : Process :=
  if s.threadCount > 1 ∧ s.isExiting = false then s.setPhase th (.mainWaiting false)
  else if s.isExiting then leaveProcess s th
  else s.setPhase th .exiting

/-- The loop of `process_exit`. -/
def exitLoop (s : Process) (th : Nat) : Process :=
  s.setPhase th (if s.threadCount > 1 then .exitWaiting false else .ended)

/-- The section of `process_exit`. -/
def processExit (s : Process) (th : Nat) : Process :=
  exitLoop (condBroadcast { s with isExiting := true }) th

/-- The end of `syscall_handler`. -/
def syscallEnd (s : Process) (th : Nat) : Process :=
  if s.isExiting then s.setPhase th (if isMainThread th then .exiting else .leaving) else s

inductive Act where
  | create (th : Nat) (create : Bool)
  | start (th : Nat) (memory : Bool)
  | setUp (th : Nat) (success : Bool)
  | pthreadExit (th : Nat)
  | leave (th : Nat)
  | main (th : Nat)
  | exit (th : Nat)
  | syscallEnd (th : Nat)
  | enter (th : Nat)
  | recheck (th : Nat)

def step (s : Process) : Act → Option Process
  | .create th create => if s.phase th = .running then some (pthreadExecute s th create) else none
  | .start th memory =>
    match s.phase th with
    | .starting creator => some (startPthread s th creator memory)
    | _ => none
  | .setUp th success =>
    match s.phase th with
    | .settingUp creator => some (setupThread s th creator success)
    | _ => none
  | .pthreadExit th => if s.phase th = .running then some (pthreadExit s th) else none
  | .leave th => if s.phase th = .leaving then some (leaveProcess s th) else none
  | .main th =>
    if s.phase th = .mainLeaving ∨ s.phase th = .mainWaiting true then some (pthreadExitMain s th)
    else none
  | .exit th => if s.phase th = .running then some (s.setPhase th .exiting) else none
  | .syscallEnd th => if s.phase th = .running then some (syscallEnd s th) else none
  | .enter th => if s.phase th = .exiting then some (processExit s th) else none
  | .recheck th => if s.phase th = .exitWaiting true then some (exitLoop s th) else none

/-- A process with its main thread. -/
def boot : Process := ⟨fun th => if th = 0 then .running else .absent, 1, false, 1⟩

/-! ## The count -/

/-- The thread has counted itself, and has not taken itself off the count. -/
def Phase.counted : Phase → Bool
  | .absent | .starting _ | .gone => false
  | _ => true

/-- The threads on the count. -/
def onCount (s : Process) (th : Nat) : Option Unit := if (s.phase th).counted then some () else none

/-- A thread that creates another waits for it. -/
def Phase.creator : Phase → Option Nat
  | .starting creator | .settingUp creator => some creator
  | _ => none

structure Tallied (s : Process) : Prop where
  count : ∃ n : Nat, s.threadCount = n ∧ Counts (onCount s) () n
  creators : ∀ th u, (s.phase th).creator = some u → s.phase u = .creating th
  tids : ∀ th, s.nextTid ≤ th → s.phase th = .absent

variable {s s' : Process} {th u : Nat} {ph : Phase}

theorem onCount_setPhase (s : Process) (th : Nat) (ph : Phase) :
    onCount (s.setPhase th ph) =
      update (onCount s) th (if ph.counted then some () else none) :=
  comp_update (fun ph : Phase => if ph.counted then some () else none) s.phase th ph

/-- A thread that stays on the count, or off it. -/
theorem onCount_same (h : ph.counted = (s.phase th).counted) : onCount (s.setPhase th ph) = onCount s := by
  rw [onCount_setPhase, h]
  exact update_eq_self ..

theorem wake_counted (ph : Phase) : ph.wake.counted = ph.counted := by
  cases ph <;> rfl

theorem onCount_broadcast (s : Process) : onCount (condBroadcast s) = onCount s := by
  funext x
  show (if (s.phase x).wake.counted then some () else none) = _
  rw [wake_counted]
  rfl

theorem wake_creator (ph : Phase) : ph.wake.creator = ph.creator := by
  cases ph <;> rfl

theorem wake_eq_creating (h : ph = .creating u) : ph.wake = .creating u := by
  rw [h]
  rfl

theorem Tallied.broadcast (h : Tallied s) : Tallied (condBroadcast s) where
  count := by
    rw [onCount_broadcast]
    exact h.count
  creators := fun x y hx => wake_eq_creating (h.creators x y ((wake_creator _).symm.trans hx))
  tids := fun x hx => by
    show (s.phase x).wake = _
    rw [h.tids x hx]
    rfl

/-- A thread in a phase of its own. -/
def Phase.alone : Phase → Bool
  | .absent | .starting _ | .settingUp _ | .creating _ => false
  | _ => true

/-- A thread that nobody else names takes another phase. -/
theorem creators_update {f : Nat → Phase} (h : ∀ x y, (f x).creator = some y → f y = .creating x)
    (hth : ∀ x, x ≠ th → (f x).creator ≠ some th)
    (hph : ∀ y, ph.creator = some y → y ≠ th ∧ f y = .creating th) (x y : Nat)
    (hx : (update f th ph x).creator = some y) : update f th ph y = .creating x := by
  by_cases hxt : x = th
  · rw [hxt, update_self] at hx
    obtain ⟨hne, hy⟩ := hph y hx
    rw [update_of_ne hne, hy, hxt]
  · rw [update_of_ne hxt] at hx
    rw [update_of_ne, h x y hx]
    rintro rfl
    exact hth x hxt hx

theorem tids_update {f : Nat → Phase} {n : Nat} (h : ∀ x, n ≤ x → f x = .absent)
    (hth : f th ≠ .absent) (x : Nat) (hx : n ≤ x) : update f th ph x = .absent := by
  rw [update_of_ne, h x hx]
  rintro rfl
  exact hth (h x hx)

/-- Nobody names a thread that creates no other. -/
theorem Tallied.unnamed (h : Tallied s) (hth : ∀ x, s.phase th ≠ .creating x) (x : Nat)
    (_ : x ≠ th) : (s.phase x).creator ≠ some th := fun hx => hth x (h.creators x th hx)

theorem Phase.alone_ne_absent (h : ph.alone = true) : ph ≠ .absent := by
  rintro rfl
  exact nomatch h

section

variable (h : Tallied s)

include h

/-- What a thread that nobody waits for may do with its phase. -/
theorem creators_setPhase (hth : (s.phase th).alone = true) (hph : ph.creator = none) :
    ∀ x y, ((s.setPhase th ph).phase x).creator = some y → (s.setPhase th ph).phase y = .creating x := by
  refine creators_update h.creators (h.unnamed fun x hx => ?_) (by rw [hph]; exact nofun)
  rw [hx] at hth
  exact nomatch hth

theorem Tallied.setPhase (hth : (s.phase th).alone = true) (hph : ph.creator = none)
    (hcount : ph.counted = (s.phase th).counted) : Tallied (s.setPhase th ph) where
  count := by
    rw [onCount_same hcount]
    exact h.count
  creators := creators_setPhase h hth hph
  tids := tids_update h.tids (Phase.alone_ne_absent hth)

/-- A thread takes itself off the count. -/
theorem Tallied.leaveProcess (hth : (s.phase th).alone = true)
    (hcount : (s.phase th).counted = true) : Tallied (leaveProcess s th) := by
  refine Tallied.broadcast ⟨?_, creators_setPhase h hth rfl,
    tids_update h.tids (Phase.alone_ne_absent hth)⟩
  obtain ⟨n, hn, hc⟩ := h.count
  have hon : onCount s th = some () := if_pos hcount
  have hpos := hc.pos hon
  refine ⟨n - 1, ?_, ?_⟩
  · show s.threadCount - 1 = _
    omega
  · show Counts (onCount (s.setPhase th .gone)) () (n - 1)
    rw [onCount_setPhase]
    exact hc.drop hon nofun

/-- A created thread and its creator, which goes on. -/
structure Resumed (s s' : Process) (th : Nat) (ph : Phase) : Prop where
  creators : ∀ x y, (s'.phase x).creator = some y → s'.phase y = .creating x
  tids : ∀ x, s'.nextTid ≤ x → s'.phase x = .absent
  count : onCount s' = Function.update (onCount s) th (if ph.counted then some () else none)

theorem resumed (hth : (s.phase th).creator = some u) (hph : ph.creator = none) :
    Resumed s ((s.setPhase th ph).setPhase u .running) th ph := by
  have hu := h.creators th u hth
  have hne : u ≠ th := by
    rintro rfl
    rw [hu] at hth
    exact nomatch hth
  have habs : s.phase th ≠ .absent := fun ha => by rw [ha] at hth; exact nomatch hth
  have hcreating : update s.phase th ph u = .creating th := (update_of_ne hne ..).trans hu
  have h1 : ∀ x y, (update s.phase th ph x).creator = some y →
      update s.phase th ph y = .creating x :=
    creators_update h.creators (h.unnamed fun x hx => by rw [hx] at hth; exact nomatch hth)
      (by rw [hph]; exact nofun)
  refine ⟨creators_update h1 (fun x _ hx => ?_) nofun,
    tids_update (tids_update h.tids habs) fun ha => (nomatch hcreating.symm.trans ha), ?_⟩
  · obtain rfl := Phase.creating.inj (hcreating.symm.trans (h1 x u hx))
    change (update s.phase th ph th).creator = some u at hx
    rw [update_self, hph] at hx
    exact nomatch hx
  · rw [onCount_same, onCount_setPhase]
    show true = (update s.phase th ph u).counted
    rw [hcreating]
    rfl

/-- The creator goes on and the count stays. -/
theorem Tallied.resume (hth : (s.phase th).creator = some u) (hph : ph.creator = none)
    (hcount : (if ph.counted then some () else none) = onCount s th) :
    Tallied ((s.setPhase th ph).setPhase u .running) := by
  obtain ⟨n, hn, hc⟩ := h.count
  have hr := resumed h hth hph
  refine ⟨⟨n, hn, ?_⟩, hr.creators, hr.tids⟩
  rw [hr.count, hcount, update_eq_self]
  exact hc

theorem Tallied.startPthread (hph : s.phase th = .starting u) (memory : Bool) :
    Tallied (startPthread s th u memory) := by
  have hth : (s.phase th).creator = some u := by rw [hph]; rfl
  have hoff : onCount s th = none := if_neg (by rw [hph]; exact nofun)
  have hu := h.creators th u hth
  obtain ⟨n, hn, hc⟩ := h.count
  rw [MavProcessExit.startPthread]
  split
  · exact Tallied.resume h hth rfl hoff.symm
  refine ⟨⟨n + 1, ?_, ?_⟩, creators_update h.creators ?_ fun y hy => ?_, tids_update h.tids ?_⟩
  · rw [hn]
    rfl
  · show Counts (onCount (s.setPhase th (.settingUp u))) () (n + 1)
    rw [onCount_setPhase]
    exact hc.take fun h => nomatch hoff.symm.trans h
  · exact h.unnamed fun x hx => nomatch hph.symm.trans hx
  · obtain rfl := some.inj hy
    refine ⟨?_, hu⟩
    rintro rfl
    exact nomatch hph.symm.trans hu
  · rw [hph]
    exact nofun

theorem Tallied.setupThread (hph : s.phase th = .settingUp u) (success : Bool) :
    Tallied (setupThread s th u success) := by
  have hth : (s.phase th).creator = some u := by rw [hph]; rfl
  have hon : onCount s th = some () := if_pos (by rw [hph]; rfl)
  obtain ⟨n, hn, hc⟩ := h.count
  rw [MavProcessExit.setupThread]
  split
  · exact Tallied.resume h hth rfl hon.symm
  · have hr := resumed h hth (show Phase.gone.creator = none from rfl)
    have hpos := hc.pos hon
    refine ⟨⟨n - 1, ?_, ?_⟩, hr.creators, hr.tids⟩
    · show s.threadCount - 1 = _
      omega
    · show Counts (onCount ((s.setPhase th .gone).setPhase u .running)) () (n - 1)
      rw [hr.count]
      exact hc.drop hon nofun

theorem Tallied.pthreadExecute (hph : s.phase th = .running) (create : Bool) :
    Tallied (pthreadExecute s th create) := by
  cases create with
  | false => exact h
  | true =>
    have habs := h.tids s.nextTid (Nat.le_refl _)
    have hne : th ≠ s.nextTid := by
      rintro rfl
      exact nomatch hph.symm.trans habs
    obtain ⟨n, hn, hc⟩ := h.count
    have hnew : update s.phase th (.creating s.nextTid) s.nextTid = .absent :=
      (update_of_ne (Ne.symm hne) ..).trans habs
    have h1 : ∀ x y, (update s.phase th (.creating s.nextTid) x).creator = some y →
        update s.phase th (.creating s.nextTid) y = .creating x :=
      creators_update h.creators (h.unnamed fun x hx => nomatch hph.symm.trans hx) nofun
    refine ⟨⟨n, hn, ?_⟩, creators_update h1 (fun x _ hx => ?_) fun y hy => ?_, fun x hx => ?_⟩
    · show Counts (onCount ((s.setPhase th (.creating s.nextTid)).setPhase s.nextTid (.starting th))) () n
      rw [onCount_same, onCount_same]
      · exact hc
      · rw [hph]
        rfl
      · show false = (update s.phase th _ s.nextTid).counted
        rw [hnew]
        rfl
    · exact nomatch hnew.symm.trans (h1 x _ hx)
    · obtain rfl := some.inj hy
      exact ⟨hne, update_self ..⟩
    · refine (update_of_ne (Nat.ne_of_gt hx) ..).trans ?_
      exact tids_update h.tids (by rw [hph]; exact nofun) x (Nat.le_of_succ_le hx)

theorem Tallied.exitLoop (hth : (s.phase th).alone = true)
    (hcount : (s.phase th).counted = true) : Tallied (exitLoop s th) := by
  rw [MavProcessExit.exitLoop]
  split
  · exact h.setPhase hth rfl hcount.symm
  · exact h.setPhase hth rfl hcount.symm

/-- **STEP**: every section keeps the count. -/
theorem Tallied.step (a : Act) (hs : step s a = some s') : Tallied s' := by
  cases a <;> simp only [MavProcessExit.step] at hs
  case create th create =>
    obtain ⟨hph, rfl⟩ := of_guard hs
    exact h.pthreadExecute hph create
  case start th memory =>
    split at hs
    · next creator hph =>
        obtain rfl := some.inj hs
        exact h.startPthread hph memory
    · exact nomatch hs
  case setUp th success =>
    split at hs
    · next creator hph =>
        obtain rfl := some.inj hs
        exact h.setupThread hph success
    · exact nomatch hs
  case pthreadExit th =>
    obtain ⟨hph, rfl⟩ := of_guard hs
    rw [pthreadExit]
    split <;> exact h.setPhase (by rw [hph]; rfl) rfl (by rw [hph]; rfl)
  case leave th =>
    obtain ⟨hph, rfl⟩ := of_guard hs
    exact h.leaveProcess (by rw [hph]; rfl) (by rw [hph]; rfl)
  case main th =>
    obtain ⟨hph, rfl⟩ := of_guard hs
    have hth : (s.phase th).alone = true ∧ (s.phase th).counted = true := by
      rcases hph with hph | hph <;> rw [hph] <;> exact ⟨rfl, rfl⟩
    rw [pthreadExitMain]
    split
    · exact h.setPhase hth.1 rfl hth.2.symm
    · split
      · exact h.leaveProcess hth.1 hth.2
      · exact h.setPhase hth.1 rfl hth.2.symm
  case exit th =>
    obtain ⟨hph, rfl⟩ := of_guard hs
    exact h.setPhase (by rw [hph]; rfl) rfl (by rw [hph]; rfl)
  case syscallEnd th =>
    obtain ⟨hph, rfl⟩ := of_guard hs
    rw [syscallEnd]
    split
    · split <;> exact h.setPhase (by rw [hph]; rfl) rfl (by rw [hph]; rfl)
    · exact h
  case enter th =>
    obtain ⟨hph, rfl⟩ := of_guard hs
    have hset : Tallied (condBroadcast { s with isExiting := true }) :=
      Tallied.broadcast { h with }
    have hph' : (condBroadcast { s with isExiting := true }).phase th = .exiting := by
      show (s.phase th).wake = _
      rw [hph]
      rfl
    exact hset.exitLoop (by rw [hph']; rfl) (by rw [hph']; rfl)
  case recheck th =>
    obtain ⟨hph, rfl⟩ := of_guard hs
    exact h.exitLoop (by rw [hph]; rfl) (by rw [hph]; rfl)

end

theorem tallied_boot : Tallied boot := by
  refine ⟨⟨1, rfl, [0], List.nodup_singleton 0, fun th => ?_, rfl⟩, fun th u hth => ?_, fun th hth => ?_⟩
  · rw [List.mem_singleton]
    show th = 0 ↔ (if (if th = 0 then Phase.running else .absent).counted then some () else none) = some ()
    split
    · rename_i h0
      exact ⟨fun _ => rfl, fun _ => h0⟩
    · rename_i h0
      exact ⟨fun h => absurd h h0, nofun⟩
  · change (if th = 0 then Phase.running else .absent).creator = some u at hth
    split at hth <;> exact nomatch hth
  · exact if_neg (Nat.ne_of_gt hth)

/-! ## Nobody waits for ever -/

/-- In the loop of `process_exit`, or past it. -/
def Phase.past : Phase → Bool
  | .exitWaiting _ | .ended => true
  | _ => false

/-- In `pthread_exit_main`. -/
def Phase.ofMain : Phase → Bool
  | .mainLeaving | .mainWaiting _ => true
  | _ => false

/-- One thread at most is past the entry of `process_exit`, and the main thread
    does not sleep when it is. -/
structure Calm (s : Process) : Prop where
  asleep : ∀ th, s.phase th = .mainWaiting false → s.isExiting = false
  main : ∀ th, (s.phase th).ofMain = true → isMainThread th = true
  past : ∀ th, (s.phase th).past = true → s.isExiting = true
  one : ∀ th u, (s.phase th).past = true → (s.phase u).past = true → th = u

/-- A thread takes another phase. -/
theorem Calm.setPhase (h : Calm s)
    (hpast : ph.past = true → s.isExiting = true ∧ ∀ x, (s.phase x).past = true → x = th)
    (hmain : ph.ofMain = true → isMainThread th = true)
    (hsleep : ph = .mainWaiting false → s.isExiting = false) : Calm (s.setPhase th ph) where
  asleep := (forall_update_iff s.phase fun _ p => p = .mainWaiting false → s.isExiting = false).mpr
    ⟨hsleep, fun x _ => h.asleep x⟩
  main := (forall_update_iff s.phase fun x p => p.ofMain = true → isMainThread x = true).mpr
    ⟨hmain, fun x _ => h.main x⟩
  past := (forall_update_iff s.phase fun _ p => p.past = true → s.isExiting = true).mpr
    ⟨fun hp => (hpast hp).1, fun x _ => h.past x⟩
  one := by
    have hcases : ∀ x, (update s.phase th ph x).past = true →
        (x = th ∧ ph.past = true) ∨ (s.phase x).past = true :=
      (forall_update_iff s.phase fun x p => p.past = true → _ ∨ (s.phase x).past = true).mpr
        ⟨fun hp => .inl ⟨rfl, hp⟩, fun x _ => .inr⟩
    intro x y hx hy
    rcases hcases x hx with ⟨hxt, hp⟩ | hx' <;> rcases hcases y hy with ⟨hyt, hp'⟩ | hy'
    · exact hxt.trans hyt.symm
    · exact hxt.trans ((hpast hp).2 y hy').symm
    · exact ((hpast hp').2 x hx').trans hyt.symm
    · exact h.one x y hx' hy'

theorem wake_past (ph : Phase) : ph.wake.past = ph.past := by
  cases ph <;> rfl

theorem wake_ofMain (ph : Phase) : ph.wake.ofMain = ph.ofMain := by
  cases ph <;> rfl

theorem wake_ne_asleep (ph : Phase) : ph.wake ≠ .mainWaiting false := by
  cases ph <;> exact nofun

theorem Calm.broadcast (h : Calm s) : Calm (condBroadcast s) where
  asleep := fun _ hth => absurd hth (wake_ne_asleep _)
  main := fun th hth => h.main th ((wake_ofMain _).symm.trans hth)
  past := fun th hth => h.past th ((wake_past _).symm.trans hth)
  one := fun th u hth hu => h.one th u ((wake_past _).symm.trans hth) ((wake_past _).symm.trans hu)

/-- The loop of `process_exit`, with nobody else in it. -/
theorem Calm.exitLoop (h : Calm s) (hset : s.isExiting = true)
    (honly : ∀ x, (s.phase x).past = true → x = th) : Calm (exitLoop s th) := by
  rw [MavProcessExit.exitLoop]
  split <;> exact h.setPhase (fun _ => ⟨hset, honly⟩) nofun nofun

/-- The first thread to enter `process_exit`. -/
theorem Calm.processExit (h : Calm s) (hfirst : s.isExiting = false) (th : Nat) :
    Calm (processExit s th) := by
  have hnone : ∀ x, (s.phase x).wake.past = true → False := by
    intro x hx
    rw [wake_past] at hx
    exact nomatch hfirst.symm.trans (h.past x hx)
  have hset : Calm (condBroadcast { s with isExiting := true }) :=
    { h.broadcast with
      asleep := fun _ hth => absurd hth (wake_ne_asleep _)
      past := fun _ _ => rfl }
  exact hset.exitLoop rfl fun x hx => (hnone x hx).elim

/-- Nobody enters `process_exit` when `is_exiting` is set. -/
def Single (s : Process) : Act → Prop
  | .enter _ => s.isExiting = false
  | _ => True

instance (s : Process) (a : Act) : Decidable (Single s a) := by
  cases a <;> unfold Single <;> infer_instance

/-- Neither in `process_exit` past its entry, nor in `pthread_exit_main`. -/
def Phase.plain (ph : Phase) : Bool := !ph.past && !ph.ofMain

theorem Calm.plain (h : Calm s) (hph : ph.plain = true) : Calm (s.setPhase th ph) := by
  refine h.setPhase (fun hp => ?_) (fun hm => ?_) fun hs => ?_
  · rw [Phase.plain, hp] at hph
    exact nomatch hph
  · rw [Phase.plain, hm, Bool.not_true, Bool.and_false] at hph
    exact nomatch hph
  · rw [hs] at hph
    exact nomatch hph

theorem Calm.leaveProcess (h : Calm s) (th : Nat) : Calm (leaveProcess s th) :=
  have hgone : Calm (s.setPhase th .gone) := h.plain rfl
  Calm.broadcast { hgone with }

/-- **STEP**: what keeps one thread at most past the entry of `process_exit`. -/
theorem Calm.step (h : Calm s) (a : Act) (ha : Single s a) (hs : step s a = some s') : Calm s' := by
  cases a <;> simp only [MavProcessExit.step] at hs
  case create th create =>
    obtain ⟨-, rfl⟩ := of_guard hs
    cases create with
    | false => exact h
    | true =>
      have hcreating : Calm (s.setPhase th (.creating s.nextTid)) := h.plain rfl
      have hstarting : Calm ((s.setPhase th (.creating s.nextTid)).setPhase s.nextTid (.starting th)) :=
        hcreating.plain rfl
      exact { hstarting with }
  case start th memory =>
    split at hs
    · next creator hph =>
        obtain rfl := some.inj hs
        rw [startPthread]
        split
        · exact Calm.plain (h.plain rfl) rfl
        · have hset : Calm (s.setPhase th (.settingUp creator)) := h.plain rfl
          exact { hset with }
    · exact nomatch hs
  case setUp th success =>
    split at hs
    · next creator hph =>
        obtain rfl := some.inj hs
        rw [setupThread]
        split
        · exact Calm.plain (h.plain rfl) rfl
        · have hgone : Calm ((s.setPhase th .gone).setPhase creator .running) :=
            Calm.plain (h.plain rfl) rfl
          exact { hgone with }
    · exact nomatch hs
  case pthreadExit th =>
    obtain ⟨hph, rfl⟩ := of_guard hs
    rw [pthreadExit]
    split
    · next hmain => exact h.setPhase nofun (fun _ => hmain) nofun
    · exact h.plain rfl
  case leave th =>
    obtain ⟨-, rfl⟩ := of_guard hs
    exact h.leaveProcess th
  case main th =>
    obtain ⟨hph, rfl⟩ := of_guard hs
    have hmain : isMainThread th = true := by
      refine h.main th ?_
      rcases hph with hph | hph <;> rw [hph] <;> rfl
    rw [pthreadExitMain]
    split
    · next hwait => exact h.setPhase nofun (fun _ => hmain) fun _ => hwait.2
    · split
      · exact h.leaveProcess th
      · exact h.plain rfl
  case exit th =>
    obtain ⟨-, rfl⟩ := of_guard hs
    exact h.plain rfl
  case syscallEnd th =>
    obtain ⟨-, rfl⟩ := of_guard hs
    rw [syscallEnd]
    split
    · split <;> exact h.plain rfl
    · exact h
  case enter th =>
    obtain ⟨-, rfl⟩ := of_guard hs
    exact h.processExit ha th
  case recheck th =>
    obtain ⟨hph, rfl⟩ := of_guard hs
    have hpast : (s.phase th).past = true := by rw [hph]; rfl
    exact h.exitLoop (h.past th hpast) fun x hx => h.one x th hx hpast

theorem calm_boot : Calm boot := by
  have hphase : ∀ th, boot.phase th = .running ∨ boot.phase th = .absent := by
    intro th
    show (if th = 0 then Phase.running else .absent) = _ ∨ (if th = 0 then Phase.running else .absent) = _
    split
    · exact .inl rfl
    · exact .inr rfl
  refine ⟨fun _ _ => rfl, fun th hth => ?_, fun th hth => ?_, fun th u hth => ?_⟩ <;>
  · rcases hphase th with h | h <;> rw [h] at hth <;> exact nomatch hth

/-! ## Ending a process -/

/-- The thread is of the process, and has not left it. -/
def Remaining (s : Process) (th : Nat) : Prop := s.phase th ≠ .absent ∧ s.phase th ≠ .gone

/-- The thread sleeps on `exit_cond`, and nobody has woken it. -/
def Asleep (s : Process) (th : Nat) : Prop :=
  s.phase th = .mainWaiting false ∨ s.phase th = .exitWaiting false

/-- Every thread that is left sleeps on `exit_cond`, and there is more than one on the count. -/
def Deadlocked (s : Process) : Prop := 1 < s.threadCount ∧ ∀ th, Remaining s th → Asleep s th

/-- At most one sleeper can be the whole process. -/
theorem not_deadlocked (h : Tallied s) (hc : Calm s) : ¬ Deadlocked s := by
  rintro ⟨hmany, hall⟩
  obtain ⟨n, hn, hcount⟩ := h.count
  have hasleep : ∀ th, onCount s th = some () → Asleep s th := by
    intro th hth
    refine hall th ⟨fun ha => ?_, fun hg => ?_⟩
    · rw [onCount, ha] at hth
      exact nomatch hth
    · rw [onCount, hg] at hth
      exact nomatch hth
  -- two sleepers are the same thread
  have hsame : ∀ th u, Asleep s th → Asleep s u → th = u := by
    rintro th u (hth | hth) (hu | hu)
    · have hm := hc.main th (by rw [hth]; rfl)
      have hm' := hc.main u (by rw [hu]; rfl)
      exact (eq_of_beq hm).trans (eq_of_beq hm').symm
    · exact nomatch (hc.asleep th hth).symm.trans (hc.past u (by rw [hu]; rfl))
    · exact nomatch (hc.asleep u hu).symm.trans (hc.past th (by rw [hth]; rfl))
    · exact hc.one th u (by rw [hth]; rfl) (by rw [hu]; rfl)
  obtain ⟨l, hnodup, hmem, rfl⟩ := hcount
  match l, hnodup, hmem, hn with
  | [], _, _, hn => rw [hn] at hmany; exact absurd hmany (by decide)
  | [_], _, _, hn => rw [hn] at hmany; exact Int.lt_irrefl _ hmany
  | a :: b :: rest, hnodup, hmem, _ =>
    have hab := hsame a b (hasleep a ((hmem a).mp (List.mem_cons_self ..)))
      (hasleep b ((hmem b).mp (List.mem_cons_of_mem _ (List.mem_cons_self ..))))
    exact (List.nodup_cons.mp hnodup).1 (hab ▸ List.mem_cons_self ..)

/-- **THE COUNT, AND NO DEADLOCK**: `thread_count` is the number of threads that
    have counted themselves and not taken themselves off; and in a run where nobody
    enters `process_exit` when `is_exiting` is set, the threads that are left never
    all sleep. -/
theorem process_exit_sound (acts : List Act) (s : Process) (hs : exec step boot acts = some s) :
    (∃ n : Nat, s.threadCount = n ∧ Counts (onCount s) () n) ∧
      (Guarded step Single boot acts → ¬ Deadlocked s) := by
  have ht : Tallied s := exec_inv_all (fun _ a _ h hs => h.step a hs) tallied_boot hs
  refine ⟨ht.count, fun hG => not_deadlocked ht ?_⟩
  exact exec_inv (fun _ a _ h ha hs => h.step a ha hs) acts boot s calm_boot hG hs

/-- The main thread makes another, leaves and waits; the other exits the process. -/
def orderlyRun : List Act :=
  [.create 0 true, .start 1 true, .setUp 1 true, .pthreadExit 0, .main 0, .exit 1, .enter 1, .main 0,
    .recheck 1]

theorem orderlyRun_sound :
    Guarded step Single boot orderlyRun ∧
    ∃ s, exec step boot orderlyRun = some s ∧
      (∃ n : Nat, s.threadCount = n ∧ Counts (onCount s) () n) ∧ ¬ Deadlocked s ∧
      s.phase 0 = .gone ∧ s.phase 1 = .ended ∧ s.threadCount = 1 := by
  have hG : Guarded step Single boot orderlyRun := by decide +kernel
  have hobs : (exec step boot orderlyRun).map (fun s => (s.phase 0, s.phase 1, s.threadCount)) =
      some (.gone, .ended, 1) := by decide +kernel
  obtain ⟨s, hs, hobs⟩ := Option.map_eq_some_iff.mp hobs
  simp only [Prod.mk.injEq] at hobs
  have hsound := process_exit_sound orderlyRun s hs
  exact ⟨hG, s, hs, hsound.1, hsound.2 hG, hobs⟩

/-- A second thread exits the process while the main thread is in a system call. -/
def lockedRun : List Act :=
  [.create 0 true, .start 1 true, .setUp 1 true, .exit 1, .enter 1, .syscallEnd 0, .enter 0, .recheck 1]

/-- **DEADLOCK**: both are in `process_exit` and wait for the count to drop. -/
theorem process_exit_deadlock :
    ∃ s, exec step boot lockedRun = some s ∧ s.threadCount = 2 ∧ Deadlocked s := by
  have hobs : ∀ n, (exec step boot lockedRun).map (fun s => (s.threadCount, s.phase n)) =
      some (2, if n < 2 then .exitWaiting false else .absent) := by
    intro n
    match n with
    | 0 | 1 => decide +kernel
    | n + 2 => rfl
  obtain ⟨s, hs, hobs0⟩ := Option.map_eq_some_iff.mp (hobs 0)
  have hcount : s.threadCount = 2 := (Prod.mk.inj hobs0).1
  have hphase : ∀ n, s.phase n = if n < 2 then .exitWaiting false else .absent := by
    intro n
    have hn := hobs n
    rw [hs] at hn
    exact (pair_inj hn).2
  refine ⟨s, hs, hcount, by rw [hcount]; decide, fun th hth => .inr ?_⟩
  have hp := hphase th
  split at hp
  · exact hp
  · exact absurd hp hth.1

end MavProcessExit
