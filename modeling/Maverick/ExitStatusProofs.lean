import Maverick.EngageProofs

/-! # The exit status of a child — who frees it

A parent and a child share a `process_status` record: the child leaves its exit code there, the
parent waits for it on a semaphore. Each has one reference, and whoever drops the last one takes
the record off the parent's list and frees it.

The code never drops a parent's reference but in `process_wait`. So a parent that exits without
waiting leaves its children's records behind, and a child that has been waited for may still have to
take its record off the list of a parent that is gone. In a run where no process frees its PCB with
children on its list, and no program fails to load, the protocol is sound.

Every section between two operations on a lock or semaphore is one step. -/

namespace MavExitStatus

open MavRun MavEngage
open Function (update)

/-! ## The state -/

/-- `struct process_status`, with the process whose list it is for and a count of
    how often it was freed. -/
structure Status where
  tid : Int
  exitCode : Int
  isWaitedOn : Bool
  refCount : Int
  waitSem : Nat
  parent : Nat
  freed : Nat
  deriving DecidableEq

/-- The fields of `struct process` that the protocol uses; `live` until the PCB is freed. -/
structure Proc where
  children : List Nat
  myStatus : Option Nat
  live : Bool
  deriving DecidableEq

/-- Where a thread stands. -/
inductive Phase where
  /-- in user mode or in some other call -/
  | running
  /-- `thread_create` failed: waits for a load that nobody signals -/
  | stuck (r : Nat)
  /-- waits for `loaded_signal` of the child -/
  | loading (c : Nat)
  /-- in `start_process` or `fork_process` -/
  | starting (r : Nat)
  /-- in `process_wait`: before its semaphore, before the lock, after the lock -/
  | waiting (tid : Int) (r : Nat)
  | woken (tid : Int) (r : Nat) (code : Int)
  | dropped (tid : Int) (r : Nat) (code : Int) (free : Bool)
  /-- in `process_exit`: waits for the other threads -/
  | exiting
  /-- before its `sema_up`, before the lock, after the lock -/
  | leaving (r : Nat)
  | signalled (r : Nat)
  | released (r : Nat) (free : Bool)
  | gone
  deriving DecidableEq

/-- What a call of `process_wait` returned, and through which record. -/
structure Answer where
  proc : Nat
  tid : Int
  result : Int
  via : Option Nat
  deriving DecidableEq

/-- Freed memory that was used: a record, or the child list of a PCB. -/
inductive Stray where
  | record (r : Nat)
  | children (p : Nat)
  deriving DecidableEq

structure System where
  proc : Nat → Nat
  phase : Nat → Phase
  procs : Nat → Proc
  recs : Nat → Status
  loads : Nat → Option Bool
  nextTid : Nat
  nextRec : Nat
  answers : List Answer
  exits : List (Nat × Int)
  stray : List Stray

namespace System

variable (s : System)

def setPhase (th : Nat) (ph : Phase) : System := { s with phase := update s.phase th ph }

def setRec (r : Nat) (R : Status) : System := { s with recs := update s.recs r R }

def setProc (p : Nat) (P : Proc) : System := { s with procs := update s.procs p P }

/-- A record is read or written. -/
def use (r : Nat) : System :=
  if (s.recs r).freed = 0 then s else { s with stray := .record r :: s.stray }

/-- A process's child list is read or written. -/
def useList (p : Nat) : System :=
  if (s.procs p).live then s else { s with stray := .children p :: s.stray }

def answer (th : Nat) (tid result : Int) (via : Option Nat) : System :=
  { s with answers := ⟨s.proc th, tid, result, via⟩ :: s.answers }

end System

/-! ## Execute, fork and start -/

def freshStatus (parent : Nat) : Status := ⟨-1, -1, false, 0, 0, parent, 0⟩

/-- `process_execute` and `process_fork` up to the wait for the child: whether there is memory for
    the record, for the command line and for the thread. A fork has no command line. -/
def processExecute (s : System) (th : Nat) (record page create : Bool) : System :=
  if record = false then s
  else
    let r := s.nextRec
    let s := { s.setRec r (freshStatus (s.proc th)) with nextRec := s.nextRec + 1 }
    if page = false then s
    else if create = false then s.setPhase th (.stuck r)
    else
      let c := s.nextTid
      let s := { s with proc := update s.proc c c, nextTid := s.nextTid + 1 }
      (s.setPhase c (.starting r)).setPhase th (.loading c)

/-- `start_process` and the end of `fork_process`: the child sets up its record
    and puts it on the parent's list, or leaves it alone when it fails. -/
def startProcess (s : System) (c r : Nat) (ok : Bool) : System :=
  let s := { s with loads := update s.loads c (some ok) }
  if ok then
    let s := s.use r
    let R := s.recs r
    let s := s.setRec r { R with refCount := R.refCount + 1 + 1, tid := c, isWaitedOn := false }
    let s := s.setProc c ⟨[], some r, true⟩
    let s := s.useList R.parent
    let P := s.procs R.parent
    (s.setProc R.parent { P with children := r :: P.children }).setPhase c .running
  else s.setPhase c .gone

/-! ## Wait -/

/-- The walk of `process_wait` over the list. -/
def walk (tid : Int) : List Nat → System → Option Nat × System
  | [], s => (none, s)
  | r :: rs, s =>
    let s := s.use r
    if (s.recs r).tid = tid then (some r, s) else walk tid rs s

/-- `process_wait` up to `sema_down`. -/
def processWait (s : System) (th : Nat) (tid : Int) : System :=
  let s := s.useList (s.proc th)
  match walk tid (s.procs (s.proc th)).children s with
  | (none, s) => s.answer th tid (-1) none
  | (some r, s) =>
    if (s.recs r).isWaitedOn then s.answer th tid (-1) none
    else (s.setRec r { s.recs r with isWaitedOn := true }).setPhase th (.waiting tid r)

/-- The way through `sema_down`, and the exit code. -/
def wake (s : System) (th : Nat) (tid : Int) (r : Nat) : System :=
  let s := s.use r
  let R := s.recs r
  (s.setRec r { R with waitSem := R.waitSem - 1 }).setPhase th (.woken tid r R.exitCode)

/-- The parent's section under `ref_lock`. -/
def dropRef (s : System) (th : Nat) (tid : Int) (r : Nat) (code : Int) : System :=
  let s := s.use r
  let R := s.recs r
  (s.setRec r { R with refCount := R.refCount - 1 }).setPhase th
    (.dropped tid r code (decide (R.refCount - 1 = 0)))

/-- Take the record off the parent's list and free it. -/
def unlink (s : System) (r : Nat) : System :=
  let s := s.use r
  let R := s.recs r
  let s := s.useList R.parent
  let P := s.procs R.parent
  (s.setProc R.parent { P with children := P.children.erase r }).setRec r { R with freed := R.freed + 1 }

/-- The end of `process_wait`. -/
def collect (s : System) (th : Nat) (tid : Int) (r : Nat) (code : Int) (free : Bool) : System :=
  let s := if free then unlink s r else s
  (s.answer th tid code (some r)).setPhase th .running

/-! ## Exit -/

/-- `exit_process` and the ways a process is killed put a code into the record;
    `pthread_exit_main` does not. -/
def exitProcess (s : System) (th r : Nat) (code : Option Int) : System :=
  match code with
  | none => s.setPhase th .exiting
  | some code =>
    let s := s.use r
    (s.setRec r { s.recs r with exitCode := code }).setPhase th .exiting

/-- The thread is the last one of its process and goes on. -/
def leave (s : System) (th r : Nat) : System :=
  { s with exits := (r, (s.recs r).exitCode) :: s.exits }.setPhase th (.leaving r)

/-- The child's `sema_up`. -/
def signal (s : System) (th r : Nat) : System :=
  let s := s.use r
  let R := s.recs r
  (s.setRec r { R with waitSem := R.waitSem + 1 }).setPhase th (.signalled r)

/-- The child's section under `ref_lock`. -/
def release (s : System) (th r : Nat) : System :=
  let s := s.use r
  let R := s.recs r
  (s.setRec r { R with refCount := R.refCount - 1 }).setPhase th
    (.released r (decide (R.refCount - 1 = 0)))

/-- The end of `process_exit`: the PCB goes. -/
def finish (s : System) (th r : Nat) (free : Bool) : System :=
  let s := if free then unlink s r else s
  let P := s.procs (s.proc th)
  (s.setProc (s.proc th) { P with live := false }).setPhase th .gone

/-! ## Steps -/

/-- The atomic sections. `spawn` and `quit` are the threads of a process that
    come and go without ending it. -/
inductive Act where
  | execute (th : Nat) (record page create : Bool)
  | start (c : Nat) (ok : Bool)
  | loaded (th : Nat)
  | wait (th : Nat) (tid : Int)
  | wake (th : Nat)
  | dropRef (th : Nat)
  | collect (th : Nat)
  | spawn (th : Nat)
  | quit (th : Nat)
  | exit (th : Nat) (code : Option Int)
  | leave (th : Nat)
  | signal (th : Nat)
  | release (th : Nat)
  | finish (th : Nat)
  deriving DecidableEq

/-- Every other thread of the process is gone. -/
def Last (s : System) (th : Nat) : Prop :=
  ∀ th' < s.nextTid, th' ≠ th → s.proc th' = s.proc th → s.phase th' = .gone

instance (s : System) (th : Nat) : Decidable (Last s th) :=
  inferInstanceAs (Decidable (∀ th' < s.nextTid, _))

def step (s : System) : Act → Option System
  | .execute th record page create =>
    if s.phase th = .running then some (processExecute s th record page create) else none
  | .start c ok =>
    match s.phase c with
    | .starting r => some (startProcess s c r ok)
    | _ => none
  | .loaded th =>
    match s.phase th with
    | .loading c => if s.loads c = none then none else some (s.setPhase th .running)
    | _ => none
  | .wait th tid => if s.phase th = .running then some (processWait s th tid) else none
  | .wake th =>
    match s.phase th with
    | .waiting tid r => if (s.recs r).waitSem = 0 then none else some (wake s th tid r)
    | _ => none
  | .dropRef th =>
    match s.phase th with
    | .woken tid r code => some (dropRef s th tid r code)
    | _ => none
  | .collect th =>
    match s.phase th with
    | .dropped tid r code free => some (collect s th tid r code free)
    | _ => none
  | .spawn th =>
    if s.phase th = .running then
      some ({ s with proc := update s.proc s.nextTid (s.proc th), nextTid := s.nextTid + 1 }
        |>.setPhase s.nextTid .running)
    else none
  | .quit th =>
    if s.phase th = .running ∧ ¬ Last s th then some (s.setPhase th .gone) else none
  | .exit th code =>
    match (s.procs (s.proc th)).myStatus with
    | some r => if s.phase th = .running then some (exitProcess s th r code) else none
    | none => none
  | .leave th =>
    match (s.procs (s.proc th)).myStatus with
    | some r => if s.phase th = .exiting ∧ Last s th then some (leave s th r) else none
    | none => none
  | .signal th =>
    match s.phase th with
    | .leaving r => some (signal s th r)
    | _ => none
  | .release th =>
    match s.phase th with
    | .signalled r => some (release s th r)
    | _ => none
  | .finish th =>
    match s.phase th with
    | .released r free => some (finish s th r free)
    | _ => none

/-- The first thread, with a PCB and no record of its own. -/
def boot : System where
  proc := fun th => th
  phase := fun th => if th = 1 then .running else .gone
  procs := fun p => if p = 1 then ⟨[], none, true⟩ else ⟨[], none, false⟩
  recs := fun _ => freshStatus 0
  loads := fun _ => none
  nextTid := 2
  nextRec := 0
  answers := []
  exits := []
  stray := []

/-! ## Stages of a record

A record passes through stages on the parent's side and on the child's side, each side at its own
pace. Everything in the record follows from the two. -/

/-- Where a thread in `process_wait` stands with a record. -/
inductive WaitTag where
  | waiting (tid : Int)
  | woken (tid code : Int)
  | dropped (tid code : Int) (free : Bool)

/-- Where a thread in `process_execute`, `start_process` or `process_exit` stands with a record. -/
inductive ExitTag where
  | stuck
  | starting
  | leaving
  | signalled
  | released (free : Bool)

def waitTag : Phase → Option (Nat × WaitTag)
  | .waiting tid r => some (r, .waiting tid)
  | .woken tid r code => some (r, .woken tid code)
  | .dropped tid r code free => some (r, .dropped tid code free)
  | _ => none

def exitTag : Phase → Option (Nat × ExitTag)
  | .stuck r => some (r, .stuck)
  | .starting r => some (r, .starting)
  | .leaving r => some (r, .leaving)
  | .signalled r => some (r, .signalled)
  | .released r free => some (r, .released free)
  | _ => none

/-- The parent's side: not waited for, a thread in `process_wait`, answered. -/
inductive PStage where
  | idle
  | busy (th : Nat) (tag : WaitTag)
  | done

/-- The child's side: no such record, a running child, a thread on its way in or
    out, a child that is gone. -/
inductive CStage where
  | absent
  | alive
  | busy (th : Nat) (tag : ExitTag)
  | gone

namespace PStage

def engaged : PStage → Option (Nat × WaitTag)
  | busy th tag => some (th, tag)
  | _ => none

def waited : PStage → Bool
  | idle => false
  | _ => true

/-- The parent's reference is there. -/
def holds : PStage → Bool
  | idle | busy _ (.waiting _) | busy _ (.woken _ _) => true
  | _ => false

/-- Nobody has taken the semaphore. -/
def early : PStage → Bool
  | idle | busy _ (.waiting _) => true
  | _ => false

/-- The parent's side has nothing more to do with the record. -/
def finished : PStage → Bool
  | busy _ (.dropped _ _ false) | done => true
  | _ => false

end PStage

namespace CStage

def engaged : CStage → Option (Nat × ExitTag)
  | busy th tag => some (th, tag)
  | _ => none

/-- The child has set the record up. -/
def born : CStage → Bool
  | absent | busy _ .stuck | busy _ .starting => false
  | _ => true

/-- The child's reference is there. -/
def holds : CStage → Bool
  | busy _ (.released _) | gone => false
  | _ => true

/-- The child is on its way out and its code is final. -/
def exited : CStage → Bool
  | busy _ .leaving | busy _ .signalled | busy _ (.released _) | gone => true
  | _ => false

/-- The child has raised the semaphore. -/
def up : CStage → Bool
  | busy _ .signalled | busy _ (.released _) | gone => true
  | _ => false

/-- The child's side has nothing more to do with the record. -/
def finished : CStage → Bool
  | busy _ (.released false) | gone => true
  | _ => false

end CStage

/-- The record is what its two stages say. -/
structure Fits (P : PStage) (C : CStage) (R : Status) : Prop where
  waited : R.isWaitedOn = P.waited
  refs : R.refCount = if C.born then (if P.holds then 1 else 0) + (if C.holds then 1 else 0) else 0
  sem : R.waitSem = if C.up && P.early then 1 else 0
  freed : R.freed = if P.finished && C.finished then 1 else 0
  unborn : C.born = false → P = .idle
  awake : P.early = false → C.up = true
  /-- the side that found the other reference gone is alone with the record -/
  last : ∀ th tid code, P = .busy th (.dropped tid code true) → C.finished = true
  last' : ∀ th, C = .busy th (.released true) → P.finished = true

theorem Fits.freed_le {P : PStage} {C : CStage} {R : Status} (h : Fits P C R) : R.freed ≤ 1 := by
  rw [h.freed]
  split <;> decide

variable {P : PStage} {C : CStage} {R : Status} {th : Nat} {tid code : Int} {free : Bool}

/-- The parent begins to wait. -/
theorem Fits.wait (h : Fits .idle C R) (hborn : C.born = true) (th : Nat) (tid : Int) :
    Fits (.busy th (.waiting tid)) C { R with isWaitedOn := true } where
  waited := rfl
  refs := h.refs
  sem := h.sem
  freed := h.freed
  unborn := fun hb => nomatch hborn.symm.trans hb
  awake := nofun
  last := nofun
  last' := fun th he => nomatch h.last' th he

/-- The parent gets the semaphore. -/
theorem Fits.wake (h : Fits (.busy th (.waiting tid)) C R) (hsem : R.waitSem ≠ 0) (code : Int) :
    Fits (.busy th (.woken tid code)) C { R with waitSem := R.waitSem - 1 } := by
  have hup : C.up = true := by
    cases hC : C.up with
    | true => rfl
    | false =>
      refine absurd ?_ hsem
      rw [h.sem, hC]
      rfl
  refine ⟨h.waited, h.refs, ?_, h.freed, fun hb => (nomatch h.unborn hb), fun _ => hup,
    nofun, fun th he => (nomatch h.last' th he)⟩
  rw [h.sem, hup]
  rfl

theorem CStage.over_of_holds (h : C.holds = true) : C.finished = false := by
  cases C with
  | busy th tag => cases tag <;> first | rfl | exact nomatch h
  | _ => first | rfl | exact nomatch h

/-- A child that dropped its reference is through, or has the record to free. -/
theorem CStage.over_or_freer (h : C.holds = false) :
    C.finished = true ∨ ∃ th, C = .busy th (.released true) := by
  cases C with
  | busy th tag =>
    cases tag with
    | released free =>
      cases free with
      | true => exact .inr ⟨th, rfl⟩
      | false => exact .inl rfl
    | _ => exact nomatch h
  | gone => exact .inl rfl
  | _ => exact nomatch h

theorem PStage.over_of_holds (h : P.holds = true) : P.finished = false := by
  cases P with
  | busy th tag => cases tag <;> first | rfl | exact nomatch h
  | _ => first | rfl | exact nomatch h

theorem PStage.over_or_freer (h : P.holds = false) :
    P.finished = true ∨ ∃ th tid code, P = .busy th (.dropped tid code true) := by
  cases P with
  | busy th tag =>
    cases tag with
    | dropped tid code free =>
      cases free with
      | true => exact .inr ⟨th, tid, code, rfl⟩
      | false => exact .inl rfl
    | _ => exact nomatch h
  | done => exact .inl rfl
  | idle => exact nomatch h

theorem Fits.born (h : Fits P C R) (hP : P ≠ .idle) : C.born = true := by
  cases hC : C.born with
  | true => rfl
  | false => exact absurd (h.unborn hC) hP

/-- The parent drops its reference: it is alone with the record if the child has dropped its own. -/
theorem Fits.dropRef (h : Fits (.busy th (.woken tid code)) C R) :
    Fits (.busy th (.dropped tid code (decide (R.refCount - 1 = 0)))) C
      { R with refCount := R.refCount - 1 } := by
  have hborn : C.born = true := h.born nofun
  have hrefs : R.refCount = 1 + if C.holds then 1 else 0 := by
    rw [h.refs, hborn]
    rfl
  have hover : C.holds = false → C.finished = true := fun hC =>
    (C.over_or_freer hC).resolve_right fun ⟨th', heq⟩ => nomatch h.last' th' heq
  refine ⟨h.waited, ?_, by rw [h.sem]; rfl, ?_, fun hb => (nomatch hborn.symm.trans hb),
    fun _ => h.awake rfl, fun th' tid' code' he => ?_, fun th' hC => (nomatch h.last' th' hC)⟩
  · rw [hrefs, hborn]
    show (1 : Int) + (if C.holds then 1 else 0) - 1 = 0 + (if C.holds then 1 else 0)
    omega
  · rw [h.freed]
    cases hC : C.holds with
    | true => rw [C.over_of_holds hC, Bool.and_false, Bool.and_false]
    | false =>
      rw [hrefs, hC]
      rfl
  · have hfree := of_decide_eq_true (WaitTag.dropped.inj (PStage.busy.inj he).2).2.2
    rw [hrefs] at hfree
    refine hover ?_
    cases hC : C.holds with
    | true => rw [hC] at hfree; exact nomatch hfree
    | false => rfl

/-- The parent is through, and has freed the record if it was alone with it. -/
theorem Fits.collect (h : Fits (.busy th (.dropped tid code free)) C R) :
    Fits .done C { R with freed := R.freed + if free then 1 else 0 } := by
  have hborn : C.born = true := h.born nofun
  refine ⟨h.waited, by rw [h.refs]; rfl, by rw [h.sem]; rfl, ?_,
    fun hb => (nomatch hborn.symm.trans hb), fun _ => h.awake rfl, nofun,
    fun _ _ => rfl⟩
  rw [h.freed]
  cases free with
  | false => rfl
  | true =>
    rw [h.last th tid code rfl]
    rfl

/-- The last thread of the child starts to leave. -/
theorem Fits.leave (h : Fits P .alive R) (th : Nat) : Fits P (.busy th .leaving) R where
  waited := h.waited
  refs := h.refs
  sem := h.sem
  freed := h.freed
  unborn := nofun
  awake := fun he => nomatch h.awake he
  last := fun th' tid' code' he => nomatch h.last th' tid' code' he
  last' := nofun

/-- The child raises the semaphore. -/
theorem Fits.signal (h : Fits P (.busy th .leaving) R) :
    Fits P (.busy th .signalled) { R with waitSem := R.waitSem + 1 } := by
  have hearly : P.early = true := by
    cases hP : P.early with
    | true => rfl
    | false => exact nomatch h.awake hP
  refine ⟨h.waited, h.refs, ?_, h.freed, nofun, fun _ => rfl,
    fun th' tid' code' he => (nomatch h.last th' tid' code' he), nofun⟩
  rw [h.sem, hearly]
  rfl

/-- The child drops its reference. -/
theorem Fits.release (h : Fits P (.busy th .signalled) R) :
    Fits P (.busy th (.released (decide (R.refCount - 1 = 0))))
      { R with refCount := R.refCount - 1 } := by
  have hrefs : R.refCount = (if P.holds then 1 else 0) + 1 := h.refs
  have hover : P.holds = false → P.finished = true := fun hP =>
    (P.over_or_freer hP).resolve_right fun ⟨th', tid', code', heq⟩ =>
      nomatch h.last th' tid' code' heq
  refine ⟨h.waited, ?_, h.sem, ?_, nofun, fun _ => rfl, fun th' tid' code' he => ?_,
    fun th' he => ?_⟩
  · show R.refCount - 1 = (if P.holds then 1 else 0) + 0
    omega
  · rw [h.freed]
    cases hP : P.holds with
    | true => rw [P.over_of_holds hP, Bool.false_and, Bool.false_and]
    | false =>
      rw [hrefs, hP, hover hP]
      rfl
  · exact nomatch h.last th' tid' code' he
  · have hfree := of_decide_eq_true (ExitTag.released.inj (CStage.busy.inj he).2)
    rw [hrefs] at hfree
    refine hover ?_
    cases hP : P.holds with
    | true => rw [hP] at hfree; exact nomatch hfree
    | false => rfl

/-- The child is gone, and has freed the record if it was alone with it. -/
theorem Fits.finish (h : Fits P (.busy th (.released free)) R) :
    Fits P .gone { R with freed := R.freed + if free then 1 else 0 } := by
  refine ⟨h.waited, h.refs, h.sem, ?_, nofun, fun _ => rfl, fun _ _ _ _ => rfl, nofun⟩
  rw [h.freed]
  cases free with
  | false => rfl
  | true =>
    rw [h.last' th rfl]
    rfl

theorem Fits.start {c : Nat} (h : Fits P (.busy c .starting) R) (tid : Int) :
    Fits P .alive { R with refCount := R.refCount + 1 + 1, tid := tid, isWaitedOn := false } := by
  obtain rfl := h.unborn rfl
  refine ⟨rfl, ?_, h.sem, h.freed, fun _ => rfl, nofun, nofun, nofun⟩
  rw [h.refs]
  rfl

theorem fits_fresh (p : Nat) (hC : C.born = false) (hup : C.up = false)
    (hlast : ∀ th, C ≠ .busy th (.released true)) : Fits .idle C (freshStatus p) where
  waited := rfl
  refs := by rw [hC]; rfl
  sem := by rw [hup]; rfl
  freed := rfl
  unborn := fun _ => rfl
  awake := nofun
  last := nofun
  last' := fun th he => absurd he (hlast th)

end MavExitStatus
