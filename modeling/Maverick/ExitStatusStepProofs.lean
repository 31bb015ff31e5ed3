import Maverick.ExitStatusProofs

/-! # The exit status of a child — one step

`Stages` ties the threads' phases and the records to the two stages of each record; `Lists` ties the
PCBs to them. One lemma moves one record and one thread, and every section of the protocol but the
creation of a process is an instance of it. -/

namespace MavExitStatus

open MavRun MavEngage List Option
open Function (update update_self update_of_ne update_eq_self update_idem update_comm comp_update comp_def)

def WaitTag.tid : WaitTag → Int
  | .waiting tid | .woken tid _ | .dropped tid _ _ => tid

/-- The exit code the thread has read. -/
def WaitTag.code : WaitTag → Option Int
  | .waiting _ => none
  | .woken _ code | .dropped _ code _ => some code

def PStage.isDone : PStage → Bool
  | done => true
  | _ => false

/-- Before a child's PCB is set up. -/
def noProc : Proc := ⟨[], none, false⟩

/-- A thread of process `p` waits for the record. -/
structure Party (p : Nat) (tag : WaitTag) (R : Status) : Prop where
  parent : p = R.parent
  tid : tag.tid = R.tid
  code : ∀ code, tag.code = some code → code = R.exitCode

/-- The thread is about to set the record up for a parent that waits for it. -/
structure Entering (s : System) (th parent : Nat) : Prop where
  own : s.proc th = th
  blank : s.procs th = noProc
  load : s.loads th = none
  waited : ∃ th', s.phase th' = .loading th ∧ s.proc th' = parent

/-- The thread is the last one of the process with this tid. -/
structure Leaving (s : System) (th : Nat) (tid : Int) : Prop where
  own : (s.proc th : Int) = tid
  alone : ∀ th' ≠ th, s.proc th' = s.proc th → s.phase th' = .gone

/-- What the child's side of a record is busy with. -/
def Busy (s : System) (th : Nat) (R : Status) : ExitTag → Prop
  | .stuck => s.proc th = R.parent
  | .starting => Entering s th R.parent
  | _ => Leaving s th R.tid

/-- What a call of `process_wait` may have returned. -/
def Answered (s : System) (ps : Nat → PStage) (a : Answer) : Prop :=
  match a.via with
  | none => a.result = -1
  | some r => (ps r).isDone = true ∧ a.proc = (s.recs r).parent ∧ a.tid = (s.recs r).tid ∧
      a.result = (s.recs r).exitCode

/-- Threads and records. -/
structure Stages (s : System) (ps : Nat → PStage) (cs : Nat → CStage) : Prop where
  waits : Matched (fun th => waitTag (s.phase th)) (fun r => (ps r).engaged)
  leaves : Matched (fun th => exitTag (s.phase th)) (fun r => (cs r).engaged)
  fits : ∀ r, Fits (ps r) (cs r) (s.recs r)
  party : ∀ r th tag, ps r = .busy th tag → Party (s.proc th) tag (s.recs r)
  busy : ∀ r th tag, cs r = .busy th tag → Busy s th (s.recs r) tag
  live : ∀ th, s.phase th = .gone ∨ (∃ r, s.phase th = .starting r) ∨
    (s.procs (s.proc th)).live = true
  tids : ∀ th, s.nextTid ≤ th → s.phase th = .gone ∧ s.procs th = noProc ∧ s.loads th = none
  absent : ∀ r, cs r = .absent ↔ s.nextRec ≤ r
  codes : ∀ r, (cs r).exited = true → (r, (s.recs r).exitCode) ∈ s.exits
  exits : ∀ e ∈ s.exits, (cs e.1).exited = true
  once : (s.exits.map Prod.fst).Nodup
  answered : ∀ r, s.answers.countP (fun a => a.via = some r) = if (ps r).isDone then 1 else 0
  answers : ∀ a ∈ s.answers, Answered s ps a
  stray : s.stray = []

/-- PCBs and records. -/
structure Lists (s : System) (cs : Nat → CStage) : Prop where
  mine : ∀ c r, (s.procs c).myStatus = some r ↔ (cs r).born = true ∧ (s.recs r).tid = c
  tid : ∀ r, (cs r).born = true → 0 ≤ (s.recs r).tid
  live : ∀ c r, (s.procs c).myStatus = some r → ((s.procs c).live = true ↔ cs r ≠ .gone)
  list : ∀ p r, r ∈ (s.procs p).children ↔
    (cs r).born = true ∧ (s.recs r).freed = 0 ∧ (s.recs r).parent = p
  nodup : ∀ p, (s.procs p).children.Nodup
  kept : ∀ p, (s.procs p).children ≠ [] → (s.procs p).live = true

variable {s s' : System} {ps : Nat → PStage} {cs : Nat → CStage} {th r : Nat} {ph : Phase}
  {R : Status} {P : PStage} {C : CStage}

/-! ## One record and one thread move -/

/-- One thread takes a new phase and one record new contents. -/
structure Moved (s s' : System) (th r : Nat) (ph : Phase) (R : Status) : Prop where
  proc : s'.proc = s.proc
  phase : s'.phase = update s.phase th ph
  recs : s'.recs = update s.recs r R
  loads : s'.loads = s.loads
  nextTid : s'.nextTid = s.nextTid
  stray : s'.stray = s.stray
  blank : ∀ c, s.procs c = noProc → s'.procs c = noProc
  parent : R.parent = (s.recs r).parent
  tid : R.tid = (s.recs r).tid

/-- A field that the update leaves alone. -/
theorem update_field {α β : Type} (f : α → β) (g : Nat → α) {p : Nat} {v : α} (h : f v = f (g p))
    (q : Nat) : f (update g p v q) = f (g q) := by
  by_cases hq : q = p
  · rw [hq, update_self, h]
  · rw [update_of_ne hq]

/-- The tags after one thread and one record have moved. -/
theorem matched_moved {σ β τ : Type} {f : σ → Option (Nat × τ)} {g : β → Option (Nat × τ)}
    {phase : Nat → σ} {stage : Nat → β} {a b : Nat} {v : σ} {w : β}
    (h : Matched (update (fun u => f (phase u)) a (f v)) (update (fun x => g (stage x)) b (g w))) :
    Matched (fun u => f (update phase a v u)) (fun x => g (update stage b w x)) := by
  rw [← comp_def f phase, ← comp_update f, ← comp_def g stage, ← comp_update g] at h
  exact h

/-- An answer stays right while its record does. -/
theorem Answered.congr {ps' : Nat → PStage} {ans : Answer} (hok : Answered s ps ans)
    (h : ∀ x, (ps x).isDone = true → (ps' x).isDone = true ∧ (s'.recs x).parent = (s.recs x).parent ∧
      (s'.recs x).tid = (s.recs x).tid ∧ (s'.recs x).exitCode = (s.recs x).exitCode) :
    Answered s' ps' ans := by
  rw [Answered] at hok ⊢
  cases hvia : ans.via with
  | none =>
    rw [hvia] at hok
    exact hok
  | some x =>
    rw [hvia] at hok
    obtain ⟨hdone, hparent, htid, hcode⟩ := h x hok.1
    dsimp only
    rw [hparent, htid, hcode]
    exact ⟨hdone, hok.2⟩

theorem Moved.parent_eq (m : Moved s s' th r ph R) (r' : Nat) :
    (s'.recs r').parent = (s.recs r').parent := by
  rw [m.recs]
  exact update_field Status.parent s.recs m.parent r'

theorem Moved.tid_eq (m : Moved s s' th r ph R) (r' : Nat) :
    (s'.recs r').tid = (s.recs r').tid := by
  rw [m.recs]
  exact update_field Status.tid s.recs m.tid r'

theorem moved_set (hparent : R.parent = (s.recs r).parent) (htid : R.tid = (s.recs r).tid) :
    Moved s ((s.setRec r R).setPhase th ph) th r ph R :=
  ⟨rfl, rfl, rfl, rfl, rfl, rfl, fun _ h => h, hparent, htid⟩

variable {th' c q : Nat} {tid : Int} {tag : ExitTag} {free : Bool}

theorem busy_leaving (hborn : (CStage.busy th tag).born = true) :
    Busy s th R tag ↔ Leaving s th R.tid := by
  cases tag with
  | stuck | starting => exact nomatch hborn
  | leaving | signalled | released free => exact Iff.rfl

/-- What a thread is busy with, in a system where nothing has changed for it. -/
theorem Busy.congr {R' : Status} (h : Busy s th R tag) (hparent : R'.parent = R.parent)
    (htid : R'.tid = R.tid) (hproc : s'.proc th = s.proc th)
    (henter : Entering s th R.parent → Entering s' th R.parent)
    (hleave : (CStage.busy th tag).born = true → Leaving s th R.tid → Leaving s' th R.tid) :
    Busy s' th R' tag := by
  cases tag with
  | stuck => exact (hproc.trans h).trans hparent.symm
  | starting => rw [Busy, hparent]; exact henter h
  | leaving | signalled | released free => rw [busy_leaving rfl, htid]; exact hleave rfl h

/-- A thread on its way out stays alone, since the thread that moves is not gone. -/
theorem Moved.leaving (m : Moved s s' th r ph R) (hth : s.phase th ≠ .gone)
    (h : Leaving s th' tid) : Leaving s' th' tid := by
  refine ⟨by rw [m.proc]; exact h.own, fun u hu hp => ?_⟩
  rw [m.proc] at hp
  rw [m.phase, update_of_ne, h.alone u hu hp]
  rintro rfl
  exact hth (h.alone u hu hp)

theorem Moved.entering (m : Moved s s' th r ph R)
    (hload : ∀ c, s.phase th = .loading c → s.loads c ≠ none) {p : Nat}
    (h : Entering s th' p) : Entering s' th' p := by
  obtain ⟨u, hu, hp⟩ := h.waited
  refine ⟨by rw [m.proc]; exact h.own, m.blank th' h.blank, by rw [m.loads]; exact h.load,
    u, ?_, by rw [m.proc]; exact hp⟩
  rw [m.phase, update_of_ne, hu]
  rintro rfl
  exact hload th' hu h.load

theorem Moved.busy (m : Moved s s' th r ph R) (hth : s.phase th ≠ .gone)
    (hload : ∀ c, s.phase th = .loading c → s.loads c ≠ none) (r' : Nat)
    (h : Busy s th' (s.recs r') tag) : Busy s' th' (s'.recs r') tag :=
  h.congr (m.parent_eq r') (m.tid_eq r') (congrFun m.proc th') (m.entering hload)
    fun _ hl => m.leaving hth hl

/-- The thread is in its process, and nobody counts on it to wait for a load. -/
structure Mobile (s : System) (th : Nat) : Prop where
  running : s.phase th ≠ .gone
  started : ∀ x, s.phase th ≠ .starting x
  load : ∀ c, s.phase th = .loading c → s.loads c ≠ none

def Phase.mobile : Phase → Bool
  | .gone | .starting _ | .loading _ => false
  | _ => true

theorem mobile_of (h : s.phase th = ph) (hph : ph.mobile = true) : Mobile s th := by
  refine ⟨?_, fun x => ?_, fun c => ?_⟩ <;>
  · rw [h]
    rintro rfl
    exact nomatch hph

/-- What the move does to the stages and to the two records of what happened. -/
structure Allowed (s s' : System) (ps : Nat → PStage) (cs : Nat → CStage) (th r : Nat) (ph : Phase)
    (R : Status) (P : PStage) (C : CStage) : Prop where
  waits : Matched (update (fun u => waitTag (s.phase u)) th (waitTag ph))
    (update (fun x => (ps x).engaged) r P.engaged)
  leaves : Matched (update (fun u => exitTag (s.phase u)) th (exitTag ph))
    (update (fun x => (cs x).engaged) r C.engaged)
  fits : Fits P C R
  mobile : Mobile s th
  party : ∀ u tag, P = .busy u tag → Party (s.proc u) tag R
  busy : ∀ u tag, C = .busy u tag → C = cs r ∨ Busy s' u R tag
  absent : ∀ x, update cs r C x = .absent ↔ s'.nextRec ≤ x
  live : ∀ u, s'.phase u ≠ .gone → (s.procs (s.proc u)).live = true →
    (s'.procs (s.proc u)).live = true
  exits : (s'.exits = s.exits ∧ C.exited = (cs r).exited ∧
      ((cs r).exited = true → R.exitCode = (s.recs r).exitCode)) ∨
    (s'.exits = (r, R.exitCode) :: s.exits ∧ (cs r).exited = false ∧ C.exited = true)
  answers : (s'.answers = s.answers ∧ P.isDone = (ps r).isDone ∧
      ((ps r).isDone = true → R.exitCode = (s.recs r).exitCode)) ∨
    (∃ a : Answer, s'.answers = a :: s.answers ∧ a.via = some r ∧ a.proc = R.parent ∧ a.tid = R.tid ∧
      a.result = R.exitCode ∧ (ps r).isDone = false ∧ P.isDone = true)

/-- The same records are there. -/
theorem Stages.absent_same (h : Stages s ps cs) (hC : C = .absent ↔ cs r = .absent)
    (hn : s'.nextRec = s.nextRec) (x : Nat) :
    update cs r C x = .absent ↔ s'.nextRec ≤ x := by
  rw [hn, ← h.absent x]
  exact Eq.to_iff (update_field (· = .absent) cs (propext hC) x)

/-- **MOVE**: what is allowed keeps threads and records together. -/
theorem Stages.move (h : Stages s ps cs) (m : Moved s s' th r ph R)
    (a : Allowed s s' ps cs th r ph R P C) :
    Stages s' (update ps r P) (update cs r C) where
  waits := by rw [m.phase]; exact matched_moved a.waits
  leaves := by rw [m.phase]; exact matched_moved a.leaves
  fits := by
    intro x
    rw [m.recs]
    by_cases hx : x = r
    · rw [hx, update_self, update_self, update_self]
      exact a.fits
    · rw [update_of_ne hx, update_of_ne hx, update_of_ne hx]
      exact h.fits x
  party := by
    intro x u tag hx
    rw [m.recs, m.proc]
    by_cases hxr : x = r
    · rw [hxr, update_self] at hx ⊢
      exact a.party u tag hx
    · rw [update_of_ne hxr] at hx ⊢
      exact h.party x u tag hx
  busy := by
    intro x u tag hx
    rcases update_cases hx with ⟨rfl, hC⟩ | ⟨-, hx⟩
    · rcases a.busy u tag hC with hsame | hnew
      · exact m.busy a.mobile.running a.mobile.load x (h.busy x u tag (hsame.symm.trans hC))
      · rw [m.recs, update_self]
        exact hnew
    · exact m.busy a.mobile.running a.mobile.load x (h.busy x u tag hx)
  live := by
    intro u
    rw [m.proc]
    by_cases hgone : s'.phase u = .gone
    · exact .inl hgone
    by_cases hu : u = th
    · refine .inr (.inr (a.live u hgone ?_))
      rw [hu]
      exact ((h.live th).resolve_left a.mobile.running).resolve_left fun ⟨x, hx⟩ => a.mobile.started x hx
    · have hphase : s'.phase u = s.phase u := by rw [m.phase, update_of_ne hu]
      rw [hphase] at hgone ⊢
      refine (h.live u).imp_right fun hl => hl.imp_right fun hl => a.live u ?_ hl
      rw [hphase]
      exact hgone
  tids := by
    intro u hu
    rw [m.nextTid] at hu
    obtain ⟨hgone, hblank, hload⟩ := h.tids u hu
    have hne : u ≠ th := by
      rintro rfl
      exact a.mobile.running hgone
    rw [m.phase, update_of_ne hne, m.loads]
    exact ⟨hgone, m.blank u hblank, hload⟩
  absent := a.absent
  codes := by
    intro x hx
    rw [m.recs]
    by_cases hxr : x = r
    · rw [hxr, update_self] at hx ⊢
      rcases a.exits with ⟨hsame, hC, hcode⟩ | ⟨hnew, -, -⟩
      · rw [hC] at hx
        rw [hsame, hcode hx]
        exact h.codes r hx
      · rw [hnew]
        exact mem_cons_self ..
    · rw [update_of_ne hxr] at hx ⊢
      have hmem := h.codes x hx
      rcases a.exits with ⟨hsame, -⟩ | ⟨hnew, -⟩
      · rw [hsame]
        exact hmem
      · rw [hnew]
        exact mem_cons_of_mem _ hmem
  exits := by
    intro e he
    have hold : e ∈ s.exits ∨ (e.1 = r ∧ C.exited = true) := by
      rcases a.exits with ⟨hsame, -⟩ | ⟨hnew, -, hC⟩
      · exact .inl (hsame ▸ he)
      · rw [hnew] at he
        rcases mem_cons.mp he with rfl | he
        · exact .inr ⟨rfl, hC⟩
        · exact .inl he
    by_cases her : e.1 = r
    · rw [her, update_self]
      rcases hold with hold | ⟨-, hC⟩
      · have hr := her ▸ h.exits e hold
        rcases a.exits with ⟨-, hC, -⟩ | ⟨-, hno, -⟩
        · rw [hC]
          exact hr
        · exact nomatch hno.symm.trans hr
      · exact hC
    · rw [update_of_ne her]
      exact h.exits e (hold.resolve_right fun hr => her hr.1)
  once := by
    rcases a.exits with ⟨hsame, -⟩ | ⟨hnew, hno, -⟩
    · rw [hsame]
      exact h.once
    · rw [hnew, map_cons, nodup_cons]
      refine ⟨fun hmem => ?_, h.once⟩
      obtain ⟨e, he, heq⟩ := mem_map.mp hmem
      have hr := h.exits e he
      rw [heq] at hr
      exact nomatch hno.symm.trans hr
  answered := by
    intro x
    by_cases hxr : x = r
    · subst hxr
      rw [update_self]
      rcases a.answers with ⟨hsame, hP, -⟩ | ⟨ans, hnew, hvia, -, -, -, hno, hyes⟩
      · rw [hsame, hP]
        exact h.answered x
      · have hx := h.answered x
        rw [hno] at hx
        rw [hnew, countP_cons, hx, hyes, if_pos (decide_eq_true hvia)]
        rfl
    · rw [update_of_ne hxr, ← h.answered x]
      rcases a.answers with ⟨hsame, -⟩ | ⟨ans, hnew, hvia, -⟩
      · rw [hsame]
      · rw [hnew, countP_cons, if_neg, Nat.add_zero]
        rw [hvia]
        exact fun heq => hxr (some.inj (of_decide_eq_true heq)).symm
  answers := by
    intro ans hans
    have hkeep : ((ps r).isDone = true → P.isDone = true ∧ R.exitCode = (s.recs r).exitCode) →
        ans ∈ s.answers → Answered s' (update ps r P) ans := by
      refine fun hr hans => (h.answers ans hans).congr fun x hdone => ?_
      rw [m.parent_eq, m.tid_eq, m.recs]
      by_cases hxr : x = r
      · subst hxr
        rw [update_self, update_self]
        exact ⟨(hr hdone).1, rfl, rfl, (hr hdone).2⟩
      · rw [update_of_ne hxr, update_of_ne hxr]
        exact ⟨hdone, rfl, rfl, rfl⟩
    rcases a.answers with ⟨hsame, hP, hcode⟩ | ⟨new, hnew, hvia, hproc, htid, hres, hno, hyes⟩
    · exact hkeep (fun hdone => ⟨hP.trans hdone, hcode hdone⟩) (hsame ▸ hans)
    · rw [hnew] at hans
      rcases mem_cons.mp hans with rfl | hans
      · rw [Answered, hvia]
        dsimp only
        rw [m.recs, update_self, update_self]
        exact ⟨hyes, hproc, htid, hres⟩
      · exact hkeep (fun hdone => nomatch hno.symm.trans hdone) hans
  stray := m.stray.trans h.stray

theorem Lists.congr (h : Lists s cs) (hprocs : s'.procs = s.procs) (hrecs : s'.recs = s.recs) :
    Lists s' cs := by
  refine ⟨?_, ?_, ?_, ?_, ?_, ?_⟩
  · rw [hprocs, hrecs]
    exact h.mine
  · rw [hrecs]
    exact h.tid
  · rw [hprocs]
    exact h.live
  · rw [hprocs, hrecs]
    exact h.list
  · rw [hprocs]
    exact h.nodup
  · rw [hprocs]
    exact h.kept

/-- The PCBs after a move that leaves them alone. -/
theorem Lists.move (h : Lists s cs) (m : Moved s s' th r ph R) (hprocs : s'.procs = s.procs)
    (hfreed : R.freed = (s.recs r).freed) (hborn : C.born = (cs r).born)
    (hgone : C = .gone ↔ cs r = .gone) : Lists s' (update cs r C) := by
  have hborn' := update_field CStage.born cs hborn
  have hfreed' : ∀ x, (s'.recs x).freed = (s.recs x).freed := by
    rw [m.recs]
    exact update_field Status.freed s.recs hfreed
  refine ⟨fun c x => ?_, fun x => ?_, fun c x hc => ?_, fun p x => ?_, ?_, ?_⟩
  · rw [hprocs, hborn', m.tid_eq]
    exact h.mine c x
  · rw [hborn', m.tid_eq]
    exact h.tid x
  · rw [hprocs] at hc ⊢
    rw [h.live c x hc]
    by_cases hx : x = r
    · rw [hx, update_self]
      exact (not_congr hgone).symm
    · rw [update_of_ne hx]
  · rw [hprocs, hborn', hfreed', m.parent_eq]
    exact h.list p x
  · rw [hprocs]
    exact h.nodup
  · rw [hprocs]
    exact h.kept

/-! ## Reading the stages off the phases -/

theorem PStage.eq_busy {tag : WaitTag} (h : P.engaged = some (th, tag)) : P = .busy th tag := by
  cases P with
  | busy th' tag' =>
    obtain ⟨rfl, rfl⟩ := pair_inj h
    rfl
  | _ => exact nomatch h

theorem CStage.eq_busy (h : C.engaged = some (th, tag)) : C = .busy th tag := by
  cases C with
  | busy th' tag' =>
    obtain ⟨rfl, rfl⟩ := pair_inj h
    rfl
  | _ => exact nomatch h

theorem Stages.wait_stage (h : Stages s ps cs) {tag : WaitTag}
    (hph : waitTag (s.phase th) = some (r, tag)) : ps r = .busy th tag :=
  PStage.eq_busy ((h.waits th r tag).mp hph)

theorem Stages.exit_stage (h : Stages s ps cs)
    (hph : exitTag (s.phase th) = some (r, tag)) : cs r = .busy th tag :=
  CStage.eq_busy ((h.leaves th r tag).mp hph)

/-- A record that one side is not through with has not been freed. -/
theorem Stages.unfreed (h : Stages s ps cs) (hover : ((ps r).finished && (cs r).finished) = false) :
    (s.recs r).freed = 0 := by
  rw [(h.fits r).freed, hover]
  rfl

theorem use_eq (h : (s.recs r).freed = 0) : s.use r = s := if_pos h

theorem useList_eq {p : Nat} (h : (s.procs p).live = true) : s.useList p = s := if_pos h

/-- A thread that is neither gone nor on its way in has a live process. -/
theorem Stages.live_of (h : Stages s ps cs) (hgone : s.phase th ≠ .gone)
    (hstart : ∀ x, s.phase th ≠ .starting x) : (s.procs (s.proc th)).live = true :=
  ((h.live th).resolve_left hgone).resolve_left fun ⟨x, hx⟩ => hstart x hx

/-! ## The sections of `process_wait` -/

/-- Together. -/
def Inv (s : System) : Prop := ∃ ps cs, Stages s ps cs ∧ Lists s cs

/-- A thread changes its phase and is at no record before or after. -/
theorem Stages.setPhase (hS : Stages s ps cs) (hmob : Mobile s th)
    (hwait : waitTag (s.phase th) = none) (hwait' : waitTag ph = none)
    (hexit : exitTag (s.phase th) = none) (hexit' : exitTag ph = none) :
    Stages (s.setPhase th ph) ps cs := by
  have m : Moved s (s.setPhase th ph) th 0 ph (s.recs 0) :=
    ⟨rfl, rfl, (update_eq_self ..).symm, rfl, rfl, rfl, fun _ h => h, rfl, rfl⟩
  have hmove := hS.move m (P := ps 0) (C := cs 0) ?_
  · rw [update_eq_self, update_eq_self] at hmove
    exact hmove
  refine ⟨?_, ?_, hS.fits 0, hmob, fun u tag he => hS.party 0 u tag he, fun _ _ _ => .inl rfl,
    hS.absent_same Iff.rfl rfl, fun _ _ h => h, .inl ⟨rfl, rfl, fun _ => rfl⟩,
    .inl ⟨rfl, rfl, fun _ => rfl⟩⟩
  · rw [hwait']
    exact hS.waits.same hwait rfl
  · rw [hexit']
    exact hS.leaves.same hexit rfl

section

variable (hS : Stages s ps cs) (hL : Lists s cs)

include hS hL

theorem inv_wait (hph : s.phase th = .running)
    (hr : r ∈ (s.procs (s.proc th)).children) (hw : (s.recs r).isWaitedOn = false) :
    Inv ((s.setRec r { s.recs r with isWaitedOn := true }).setPhase th
      (.waiting (s.recs r).tid r)) := by
  obtain ⟨hborn, hfreed, hparent⟩ := (hL.list _ _).mp hr
  have hidle : ps r = .idle := by
    have hwaited := (hS.fits r).waited.symm.trans hw
    cases hP : ps r with
    | idle => rfl
    | _ => rw [hP] at hwaited; exact nomatch hwaited
  have hfits := hS.fits r
  rw [hidle] at hfits
  have m : Moved s _ th r (.waiting (s.recs r).tid r) { s.recs r with isWaitedOn := true } :=
    moved_set rfl rfl
  refine ⟨_, _, hS.move m (P := .busy th (.waiting (s.recs r).tid)) (C := cs r) ?_,
    hL.move m rfl rfl rfl Iff.rfl⟩
  refine ⟨?_, ?_, hfits.wait hborn th _, mobile_of hph rfl, ?_, fun _ _ _ => .inl rfl, hS.absent_same Iff.rfl rfl,
    fun _ _ h => h, .inl ⟨rfl, rfl, fun _ => rfl⟩, .inl ⟨rfl, by rw [hidle]; rfl, fun _ => rfl⟩⟩
  · exact hS.waits.set (apart_of_free (by rw [hph]; rfl) (by rw [hidle]; rfl)) (some (.waiting _))
  · exact hS.leaves.same (by rw [hph]; rfl) rfl
  · intro u tag he
    obtain ⟨rfl, rfl⟩ := PStage.busy.inj he
    exact ⟨hparent.symm, rfl, nofun⟩

/-- A section of `process_wait` after the first: the thread is at the record
    already, and only the count or the semaphore changes. -/
theorem inv_waiting {tag tag' : WaitTag}
    (hold : waitTag (s.phase th) = some (r, tag)) (hmob : Mobile s th)
    (hnew : waitTag ph = some (r, tag')) (hexit : exitTag (s.phase th) = none)
    (hexit' : exitTag ph = none) (hfits : Fits (.busy th tag') (cs r) R)
    (hsame : R.tid = (s.recs r).tid ∧ R.parent = (s.recs r).parent ∧
      R.exitCode = (s.recs r).exitCode ∧ R.freed = (s.recs r).freed)
    (htid : tag'.tid = tag.tid) (hcode : ∀ code, tag'.code = some code → code = R.exitCode) :
    Inv ((s.setRec r R).setPhase th ph) := by
  have hbusy := hS.wait_stage hold
  have m : Moved s _ th r ph R := moved_set hsame.2.1 hsame.1
  have hparty := hS.party r th tag hbusy
  refine ⟨_, _, hS.move m (P := .busy th tag') (C := cs r) ?_,
    hL.move m rfl hsame.2.2.2 rfl Iff.rfl⟩
  refine ⟨?_, ?_, hfits, hmob, ?_, fun _ _ _ => .inl rfl, hS.absent_same Iff.rfl rfl, fun _ _ h => h,
    .inl ⟨rfl, rfl, fun _ => hsame.2.2.1⟩, .inl ⟨rfl, by rw [hbusy]; rfl, fun _ => hsame.2.2.1⟩⟩
  · rw [hnew]
    exact hS.waits.set (hS.waits.apart_of_busy hold) (some tag')
  · rw [hexit']
    exact hS.leaves.same hexit rfl
  · intro u tag'' he
    obtain ⟨rfl, rfl⟩ := PStage.busy.inj he
    exact ⟨hparty.parent.trans hsame.2.1.symm, htid.trans (hparty.tid.trans hsame.1.symm), hcode⟩

theorem inv_wake (hph : s.phase th = .waiting tid r) (hsem : (s.recs r).waitSem ≠ 0) : Inv (wake s th tid r) := by
  have hold : waitTag (s.phase th) = some (r, .waiting tid) := by rw [hph]; rfl
  have hbusy := hS.wait_stage hold
  have hfits := hS.fits r
  rw [hbusy] at hfits
  rw [wake, use_eq (hS.unfreed (by rw [hbusy]; rfl))]
  exact inv_waiting hS hL hold (mobile_of hph rfl) rfl
    (by rw [hph]; rfl) rfl (hfits.wake hsem _) ⟨rfl, rfl, rfl, rfl⟩ rfl
    fun code hc => (some.inj hc).symm

theorem inv_dropRef {code : Int} (hph : s.phase th = .woken tid r code) : Inv (dropRef s th tid r code) := by
  have hold : waitTag (s.phase th) = some (r, .woken tid code) := by rw [hph]; rfl
  have hbusy := hS.wait_stage hold
  have hfits := hS.fits r
  rw [hbusy] at hfits
  rw [dropRef, use_eq (hS.unfreed (by rw [hbusy]; rfl))]
  exact inv_waiting hS hL hold (mobile_of hph rfl) rfl (by rw [hph]; rfl) rfl hfits.dropRef
    ⟨rfl, rfl, rfl, rfl⟩ rfl fun code' hc =>
      (some.inj hc) ▸ (hS.party r th _ hbusy).code code rfl

/-! ## The sections of `process_exit` -/

/-- The record of a process with a thread that is not on its way out. -/
theorem Stages.alive_of (hr : (s.procs (s.proc th)).myStatus = some r) (hmob : Mobile s th)
    (hexit : exitTag (s.phase th) = none) : cs r = .alive := by
  obtain ⟨hborn, htid⟩ := (hL.mine _ r).mp hr
  have hgone := (hL.live _ r hr).mp (hS.live_of hmob.running hmob.started)
  cases hC : cs r with
  | alive => rfl
  | absent => rw [hC] at hborn; exact nomatch hborn
  | gone => exact absurd hC hgone
  | busy u tag =>
    rw [hC] at hborn
    have hl := (busy_leaving hborn).mp (hS.busy r u tag hC)
    have hown : s.proc th = s.proc u := Int.ofNat.inj (htid.symm.trans hl.own.symm)
    by_cases hu : th = u
    · have htag := (hS.leaves u r tag).mpr (congrArg CStage.engaged hC)
      rw [← hu] at htag
      exact nomatch hexit.symm.trans htag
    · exact absurd (hl.alone th hu hown) hmob.running

theorem inv_phase (hmob : Mobile s th)
    (hwait : waitTag (s.phase th) = none) (hwait' : waitTag ph = none)
    (hexit : exitTag (s.phase th) = none) (hexit' : exitTag ph = none) : Inv (s.setPhase th ph) :=
  ⟨ps, cs, hS.setPhase hmob hwait hwait' hexit hexit', hL.congr rfl rfl⟩

theorem inv_exitProcess (hr : (s.procs (s.proc th)).myStatus = some r) (hph : s.phase th = .running)
    (code : Option Int) : Inv (exitProcess s th r code) := by
  have hmob : Mobile s th := mobile_of hph rfl
  cases code with
  | none => exact inv_phase hS hL hmob (by rw [hph]; rfl) rfl (by rw [hph]; rfl) rfl
  | some code =>
    have halive := hS.alive_of hL hr hmob (by rw [hph]; rfl)
    have hfits := hS.fits r
    rw [exitProcess, use_eq (hS.unfreed (by rw [halive]; exact Bool.and_false _))]
    -- nobody has read the code of a child that has not left
    have hearly : (ps r).early = true := by
      cases hP : (ps r).early with
      | true => rfl
      | false =>
        have hup := hfits.awake hP
        rw [halive] at hup
        exact nomatch hup
    have m : Moved s _ th r .exiting { s.recs r with exitCode := code } := moved_set rfl rfl
    refine ⟨_, _, hS.move m (P := ps r) (C := cs r) ?_, hL.move m rfl rfl rfl Iff.rfl⟩
    refine ⟨hS.waits.same (by rw [hph]; rfl) rfl, hS.leaves.same (by rw [hph]; rfl) rfl,
      { hfits with }, hmob, fun u tag he => ?_, fun _ _ _ => .inl rfl, hS.absent_same Iff.rfl rfl, fun _ _ h => h,
      .inl ⟨rfl, rfl, fun he => ?_⟩, .inl ⟨rfl, rfl, fun hd => ?_⟩⟩
    · have hparty := hS.party r u tag he
      rw [he] at hearly
      cases tag with
      | waiting tid => exact ⟨hparty.parent, hparty.tid, nofun⟩
      | _ => exact nomatch hearly
    · rw [halive] at he
      exact nomatch he
    · cases hP : ps r with
      | done => rw [hP] at hearly; exact nomatch hearly
      | _ => rw [hP] at hd; exact nomatch hd

theorem inv_leave (hr : (s.procs (s.proc th)).myStatus = some r) (hph : s.phase th = .exiting)
    (hlast : Last s th) : Inv (leave s th r) := by
  have hmob : Mobile s th := mobile_of hph rfl
  have halive := hS.alive_of hL hr hmob (by rw [hph]; rfl)
  obtain ⟨-, htid⟩ := (hL.mine _ r).mp hr
  have hfits := hS.fits r
  rw [halive] at hfits
  have halone : ∀ u ≠ th, s.proc u = s.proc th → s.phase u = .gone := by
    intro u hu hp
    by_cases hlt : u < s.nextTid
    · exact hlast u hlt hu hp
    · exact (hS.tids u (Nat.le_of_not_lt hlt)).1
  have m : Moved s (leave s th r) th r (.leaving r) (s.recs r) :=
    ⟨rfl, rfl, (update_eq_self ..).symm, rfl, rfl, rfl, fun _ h => h, rfl, rfl⟩
  refine ⟨_, _, hS.move m (P := ps r) (C := .busy th .leaving) ?_,
    hL.move m rfl rfl (by rw [halive]; rfl) ?_⟩
  · refine ⟨hS.waits.same (by rw [hph]; rfl) rfl, ?_, hfits.leave th, hmob,
      fun u tag he => hS.party r u tag he, fun u tag he => .inr ?_, ?_,
      fun _ _ h => h, .inr ⟨rfl, by rw [halive]; rfl, rfl⟩, .inl ⟨rfl, rfl, fun _ => rfl⟩⟩
    · exact hS.leaves.set (apart_of_free (by rw [hph]; rfl) (by rw [halive]; rfl)) (some .leaving)
    · obtain ⟨rfl, rfl⟩ := CStage.busy.inj he
      exact m.leaving hmob.running ⟨htid.symm, halone⟩
    · refine hS.absent_same ?_ rfl
      rw [halive]
      exact ⟨nofun, nofun⟩
  · rw [halive]
    exact ⟨nofun, nofun⟩

/-- A section of `process_exit` between the two: the thread is at its record, and
    only the count or the semaphore changes. -/
theorem inv_leaving {tag' : ExitTag}
    (hold : exitTag (s.phase th) = some (r, tag)) (hmob : Mobile s th)
    (hnew : exitTag ph = some (r, tag')) (hwait : waitTag (s.phase th) = none)
    (hwait' : waitTag ph = none) (hfits : Fits (ps r) (.busy th tag') R)
    (hsame : R.tid = (s.recs r).tid ∧ R.parent = (s.recs r).parent ∧
      R.exitCode = (s.recs r).exitCode ∧ R.freed = (s.recs r).freed)
    (hout : (CStage.busy th tag).born = true ∧ (CStage.busy th tag').born = true)
    (hexited : (CStage.busy th tag').exited = (CStage.busy th tag).exited) :
    Inv ((s.setRec r R).setPhase th ph) := by
  have hbusy := hS.exit_stage hold
  have m : Moved s _ th r ph R := moved_set hsame.2.1 hsame.1
  refine ⟨_, _, hS.move m (P := ps r) (C := .busy th tag') ?_,
    hL.move m rfl hsame.2.2.2 (by rw [hbusy, hout.1, hout.2]) ?_⟩
  · refine ⟨?_, ?_, hfits, hmob, fun u t he => ?_, fun u t he => .inr ?_, ?_, fun _ _ h => h,
      .inl ⟨rfl, by rw [hbusy, hexited], fun _ => hsame.2.2.1⟩, .inl ⟨rfl, rfl, fun _ => hsame.2.2.1⟩⟩
    · rw [hwait']
      exact hS.waits.same hwait rfl
    · rw [hnew]
      exact hS.leaves.set (hS.leaves.apart_of_busy hold) (some tag')
    · have hparty := hS.party r u t he
      exact ⟨hparty.parent.trans hsame.2.1.symm, hparty.tid.trans hsame.1.symm,
        fun code hc => (hparty.code code hc).trans hsame.2.2.1.symm⟩
    · obtain ⟨rfl, rfl⟩ := CStage.busy.inj he
      rw [busy_leaving hout.2, hsame.1]
      exact m.leaving hmob.running ((busy_leaving hout.1).mp (hS.busy r _ tag hbusy))
    · refine hS.absent_same ?_ rfl
      rw [hbusy]
      exact ⟨nofun, nofun⟩
  · rw [hbusy]
    exact ⟨nofun, nofun⟩

theorem inv_signal (hph : s.phase th = .leaving r) : Inv (signal s th r) := by
  have hold : exitTag (s.phase th) = some (r, .leaving) := by rw [hph]; rfl
  have hbusy := hS.exit_stage hold
  have hfits := hS.fits r
  rw [hbusy] at hfits
  rw [signal, use_eq (hS.unfreed (by rw [hbusy]; exact Bool.and_false _))]
  exact inv_leaving hS hL hold (mobile_of hph rfl) rfl (by rw [hph]; rfl) rfl hfits.signal
    ⟨rfl, rfl, rfl, rfl⟩ ⟨rfl, rfl⟩ rfl

theorem inv_release (hph : s.phase th = .signalled r) : Inv (release s th r) := by
  have hold : exitTag (s.phase th) = some (r, .signalled) := by rw [hph]; rfl
  have hbusy := hS.exit_stage hold
  have hfits := hS.fits r
  rw [hbusy] at hfits
  rw [release, use_eq (hS.unfreed (by rw [hbusy]; exact Bool.and_false _))]
  exact inv_leaving hS hL hold (mobile_of hph rfl) rfl (by rw [hph]; rfl) rfl hfits.release
    ⟨rfl, rfl, rfl, rfl⟩ ⟨rfl, rfl⟩ rfl

end

/-! ## Taking a record off its list -/

def Proc.without (Q : Proc) (r : Nat) : Proc := { Q with children := Q.children.erase r }

/-- What `unlink` does to a record that is on its list. -/
theorem unlink_eq (hfreed : (s.recs r).freed = 0) (hlive : (s.procs (s.recs r).parent).live = true) :
    unlink s r = (s.setProc (s.recs r).parent ((s.procs (s.recs r).parent).without r)).setRec r
      { s.recs r with freed := (s.recs r).freed + 1 } := by
  rw [unlink, use_eq hfreed, useList_eq hlive]
  rfl

theorem Lists.unlink (h : Lists s cs) (hborn : (cs r).born = true) (hfreed : (s.recs r).freed = 0) :
    Lists (unlink s r) cs := by
  have hmem : r ∈ (s.procs (s.recs r).parent).children := (h.list _ r).mpr ⟨hborn, hfreed, rfl⟩
  have hlive := h.kept _ (ne_nil_of_mem hmem)
  rw [unlink_eq hfreed hlive]
  have hmine := update_field Proc.myStatus s.procs
    (show ((s.procs (s.recs r).parent).without r).myStatus = _ from rfl)
  have hlives := update_field Proc.live s.procs
    (show ((s.procs (s.recs r).parent).without r).live = _ from rfl)
  have htid := update_field Status.tid s.recs
    (show ({ s.recs r with freed := (s.recs r).freed + 1 } : Status).tid = _ from rfl)
  refine ⟨fun c x => ?_, fun x hx => ?_, fun c x hc => ?_, fun q x => ?_, fun q => ?_, fun q hq => ?_⟩
  · refine (Eq.congr_left (hmine c)).trans ((h.mine c x).trans (and_congr_right fun _ => ?_))
    exact (Eq.congr_left (htid x)).symm
  · exact (htid x).symm ▸ h.tid x hx
  · refine (Eq.congr_left (hlives c)).trans (h.live c x ((hmine c).symm.trans hc))
  · show x ∈ (update s.procs (s.recs r).parent _ q).children ↔ _ ∧
      (update s.recs r _ x).freed = 0 ∧ (update s.recs r _ x).parent = q
    by_cases hx : x = r
    · subst hx
      rw [update_self]
      refine ⟨fun hin => ?_, fun hin => absurd hin.2.1 (Nat.succ_ne_zero _)⟩
      by_cases hq : q = (s.recs x).parent
      · rw [hq, update_self] at hin
        exact absurd rfl ((h.nodup _).mem_erase_iff.mp hin).1
      · rw [update_of_ne hq] at hin
        exact absurd ((h.list q x).mp hin).2.2.symm hq
    · rw [update_of_ne hx, ← h.list q x]
      by_cases hq : q = (s.recs r).parent
      · rw [hq, update_self]
        exact mem_erase_of_ne hx
      · rw [update_of_ne hq]
  · show (update s.procs (s.recs r).parent _ q).children.Nodup
    by_cases hq : q = (s.recs r).parent
    · rw [hq, update_self]
      exact (h.nodup _).erase r
    · rw [update_of_ne hq]
      exact h.nodup q
  · refine (hlives q).trans ?_
    by_cases hqp : q = (s.recs r).parent
    · rw [hqp]
      exact hlive
    · refine h.kept q fun hnil => hq ?_
      show (update s.procs (s.recs r).parent _ q).children = []
      rw [update_of_ne hqp, hnil]

/-- The system after a side that may have the record to free. -/
structure Unlinked (s s' : System) (r : Nat) (free : Bool) : Prop where
  proc : s'.proc = s.proc
  phase : s'.phase = s.phase
  recs : s'.recs = update s.recs r
    { s.recs r with freed := (s.recs r).freed + if free then 1 else 0 }
  loads : s'.loads = s.loads
  nextTid : s'.nextTid = s.nextTid
  nextRec : s'.nextRec = s.nextRec
  answers : s'.answers = s.answers
  exits : s'.exits = s.exits
  stray : s'.stray = s.stray
  mine : ∀ q, (s'.procs q).myStatus = (s.procs q).myStatus
  live : ∀ q, (s'.procs q).live = (s.procs q).live
  empty : ∀ q, (s.procs q).children = [] → (s'.procs q).children = []

theorem unlinked (hL : Lists s cs) (free : Bool)
    (h : free = true → (cs r).born = true ∧ (s.recs r).freed = 0) :
    Unlinked s (if free then unlink s r else s) r free ∧
      Lists (if free then unlink s r else s) cs := by
  cases free with
  | false =>
    refine ⟨⟨rfl, rfl, (update_eq_self ..).symm, rfl, rfl, rfl, rfl, rfl, rfl,
      fun _ => rfl, fun _ => rfl, fun _ h => h⟩, hL⟩
  | true =>
    obtain ⟨hborn, hfreed⟩ := h rfl
    have hmem := (hL.list _ r).mpr ⟨hborn, hfreed, rfl⟩
    have hlive := hL.kept _ (ne_nil_of_mem hmem)
    refine ⟨?_, hL.unlink hborn hfreed⟩
    rw [if_pos rfl, unlink_eq hfreed hlive]
    refine ⟨rfl, rfl, rfl, rfl, rfl, rfl, rfl, rfl, rfl,
      update_field Proc.myStatus s.procs (v := Proc.without _ r) rfl,
      update_field Proc.live s.procs (v := Proc.without _ r) rfl, fun q hq => ?_⟩
    show (update s.procs (s.recs r).parent _ q).children = []
    by_cases hqp : q = (s.recs r).parent
    · rw [← hqp, update_self, Proc.without, hq]
      rfl
    · rw [update_of_ne hqp, hq]

theorem Unlinked.blank (u : Unlinked s s' r free) (h : s.procs c = noProc) :
    s'.procs c = noProc := by
  have hmine := u.mine c
  have hlive := u.live c
  have hempty := u.empty c (by rw [h]; rfl)
  rw [h] at hmine hlive
  cases hP : s'.procs c with
  | mk children myStatus live =>
    rw [hP] at hmine hlive hempty
    rw [show children = [] from hempty, show myStatus = none from hmine,
      show live = false from hlive]
    rfl

/-- **COLLECT**: the end of `process_wait`. -/
theorem inv_collect {code : Int} (hS : Stages s ps cs) (hL : Lists s cs)
    (hph : s.phase th = .dropped tid r code free) : Inv (collect s th tid r code free) := by
  have hold : waitTag (s.phase th) = some (r, .dropped tid code free) := by rw [hph]; rfl
  have hbusy := hS.wait_stage hold
  have hparty := hS.party r th _ hbusy
  have hfits := hS.fits r
  rw [hbusy] at hfits
  obtain ⟨hu, hL'⟩ := unlinked hL (r := r) free fun hf => by
    refine ⟨hfits.born nofun, hS.unfreed ?_⟩
    rw [hbusy, hf]
    rfl
  rw [collect]
  generalize (if free then unlink s r else s) = t at hu hL'
  have m : Moved s ((t.answer th tid code (some r)).setPhase th .running) th r .running
      { s.recs r with freed := (s.recs r).freed + if free then 1 else 0 } := by
    refine { hu with phase := ?_, blank := fun c hc => hu.blank hc, parent := rfl, tid := rfl }
    show update t.phase th .running = _
    rw [hu.phase]
  refine ⟨_, _, hS.move m (P := .done) (C := cs r) ?_, ?_⟩
  · refine ⟨?_, hS.leaves.same (by rw [hph]; rfl) rfl, hfits.collect, mobile_of hph rfl,
      nofun, fun _ _ _ => .inl rfl, hS.absent_same Iff.rfl hu.nextRec, fun u _ hl => (hu.live _).trans hl,
      .inl ⟨hu.exits, rfl, fun _ => rfl⟩, .inr ?_⟩
    · exact hS.waits.set (hS.waits.apart_of_busy hold) none
    · refine ⟨⟨t.proc th, tid, code, some r⟩, congrArg _ hu.answers, rfl, ?_, hparty.tid,
        hparty.code code rfl, by rw [hbusy]; rfl, rfl⟩
      rw [hu.proc]
      exact hparty.parent
  · rw [update_eq_self]
    exact hL'.congr rfl rfl

/-- A PCB without children goes. -/
theorem Lists.finish (h : Lists s cs) (hr : (s.procs c).myStatus = some r)
    (hempty : (s.procs c).children = []) :
    Lists (s.setProc c { s.procs c with live := false }) (update cs r .gone) := by
  have hborn : (cs r).born = true := ((h.mine c r).mp hr).1
  have hmine := update_field Proc.myStatus s.procs
    (show ({ s.procs c with live := false } : Proc).myStatus = (s.procs c).myStatus from rfl)
  have hchildren := update_field Proc.children s.procs
    (show ({ s.procs c with live := false } : Proc).children = (s.procs c).children from rfl)
  have hborn' := update_field CStage.born cs (v := .gone) hborn.symm
  refine ⟨fun q x => ?_, fun x => ?_, fun q x hq => ?_, fun q x => ?_, fun q => ?_, fun q hq => ?_⟩
  · rw [hborn']
    exact (Eq.congr_left (hmine q)).trans (h.mine q x)
  · rw [hborn']
    exact h.tid x
  · have hq' := (hmine q).symm.trans hq
    show (update s.procs c _ q).live = true ↔ _
    by_cases hx : x = r
    · have hqc : q = c := by
        rw [hx] at hq'
        exact Int.ofNat.inj (((h.mine q r).mp hq').2.symm.trans ((h.mine c r).mp hr).2)
      rw [hx, hqc, update_self, update_self]
      exact ⟨nofun, fun hl => absurd rfl hl⟩
    · have hqc : q ≠ c := by
        rintro rfl
        exact hx (some.inj (hq'.symm.trans hr))
      rw [update_of_ne hx, update_of_ne hqc]
      exact h.live q x hq'
  · rw [hborn']
    refine Iff.trans ?_ (h.list q x)
    exact Eq.to_iff (congrArg (x ∈ ·) (hchildren q))
  · exact (congrArg List.Nodup (hchildren q)).mpr (h.nodup q)
  · have hq' : (s.procs q).children ≠ [] := fun hnil => hq ((hchildren q).trans hnil)
    show (update s.procs c _ q).live = true
    rw [update_of_ne]
    · exact h.kept q hq'
    · rintro rfl
      exact hq' hempty

/-- **FINISH**: the end of `process_exit`, with no child left on the list. -/
theorem inv_finish (hS : Stages s ps cs) (hL : Lists s cs)
    (hph : s.phase th = .released r free) (hempty : (s.procs (s.proc th)).children = []) :
    Inv (finish s th r free) := by
  have hold : exitTag (s.phase th) = some (r, .released free) := by rw [hph]; rfl
  have hmob : Mobile s th := mobile_of hph rfl
  have hbusy := hS.exit_stage hold
  have hleave : Leaving s th (s.recs r).tid := hS.busy r th _ hbusy
  have hlive := hS.live_of hmob.running hmob.started
  have hfits := hS.fits r
  rw [hbusy] at hfits
  have hmine : (s.procs (s.proc th)).myStatus = some r :=
    (hL.mine _ r).mpr ⟨by rw [hbusy]; rfl, hleave.own.symm⟩
  obtain ⟨hu, hL'⟩ := unlinked hL (r := r) free fun hf => by
    refine ⟨by rw [hbusy]; rfl, hS.unfreed ?_⟩
    rw [hbusy, hf]
    exact Bool.and_false _
  rw [finish]
  generalize (if free then unlink s r else s) = t at hu hL'
  rw [hu.proc]
  have m : Moved s ((t.setProc (s.proc th) { t.procs (s.proc th) with live := false }).setPhase th .gone)
      th r .gone { s.recs r with freed := (s.recs r).freed + if free then 1 else 0 } := by
    refine { hu with phase := ?_, blank := fun c hc => ?_, parent := rfl, tid := rfl }
    · show update t.phase th .gone = _
      rw [hu.phase]
    · show update t.procs _ _ c = noProc
      rw [update_of_ne, hu.blank hc]
      rintro rfl
      rw [hc] at hlive
      exact nomatch hlive
  refine ⟨_, _, hS.move m (P := ps r) (C := .gone) ?_, ?_⟩
  · refine ⟨hS.waits.same (by rw [hph]; rfl) rfl, ?_, hfits.finish, hmob, fun u t' he => ?_,
      nofun, ?_, fun u hgone hl => ?_,
      .inl ⟨hu.exits, by rw [hbusy]; rfl, fun _ => rfl⟩, .inl ⟨hu.answers, rfl, fun _ => rfl⟩⟩
    · exact hS.leaves.set (hS.leaves.apart_of_busy hold) none
    · have hparty := hS.party r u t' he
      exact { hparty with }
    · refine hS.absent_same ?_ hu.nextRec
      rw [hbusy]
      exact ⟨nofun, nofun⟩
    · -- the other threads of this process are gone
      show (update t.procs _ _ _).live = true
      rw [update_of_ne]
      · exact (hu.live _).trans hl
      · intro hp
        rw [m.phase] at hgone
        by_cases huth : u = th
        · rw [huth, update_self] at hgone
          exact hgone rfl
        · rw [update_of_ne huth] at hgone
          exact hgone (hleave.alone u huth hp)
  · exact (hL'.finish ((hu.mine _).trans hmine) (hu.empty _ hempty)).congr rfl rfl

end MavExitStatus
