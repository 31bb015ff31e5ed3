import Maverick.ExitStatusStepProofs

/-! # The exit status of a child — every run

New processes, the start of a wait, and what a run of all the sections keeps. -/

namespace MavExitStatus

open MavRun MavEngage List Option
open Function (update update_self update_of_ne update_eq_self update_idem update_comm comp_update comp_def)

variable {s s' : System} {ps : Nat → PStage} {cs : Nat → CStage} {th r : Nat} {ph : Phase}
  {R : Status} {P : PStage} {C : CStage}
  {th' c q : Nat} {tid : Int} {tag : ExitTag} {free : Bool}

/-! ## New threads and new processes -/

/-- A thread is created. -/
structure Born (s s' : System) (q : Nat) (ph : Phase) : Prop where
  proc : s'.proc = update s.proc s.nextTid q
  phase : s'.phase = update s.phase s.nextTid ph
  recs : s'.recs = s.recs
  procs : s'.procs = s.procs
  loads : s'.loads = s.loads
  nextTid : s'.nextTid = s.nextTid + 1
  answers : s'.answers = s.answers
  exits : s'.exits = s.exits
  stray : s'.stray = s.stray

/-- No thread on its way out is in process `q`. -/
def NoneLeaves (s : System) (q : Nat) : Prop :=
  ∀ u x tag, exitTag (s.phase u) = some (x, tag) → (CStage.busy u tag).born = true → s.proc u ≠ q

theorem Born.busy (hb : Born s s' q ph) (hS : Stages s ps cs) (hq : NoneLeaves s q)
    {x u : Nat} (hx : cs x = .busy u tag) : Busy s' u (s'.recs x) tag := by
  have htag : exitTag (s.phase u) = some (x, tag) := (hS.leaves u x tag).mpr (congrArg CStage.engaged hx)
  have hold : ∀ {u' : Nat}, s.phase u' ≠ .gone → u' ≠ s.nextTid := by
    rintro u' hu' rfl
    exact hu' (hS.tids _ (Nat.le_refl _)).1
  have hu : u ≠ s.nextTid := hold fun hg => by rw [hg] at htag; exact nomatch htag
  refine (hS.busy x u tag hx).congr (by rw [hb.recs]) (by rw [hb.recs])
    (by rw [hb.proc, update_of_ne hu]) ?_ fun hborn hl => ?_
  · rintro ⟨hown, hblank, hload, u', hu', hp⟩
    have hne : u' ≠ s.nextTid := hold (by rw [hu']; exact nofun)
    refine ⟨by rw [hb.proc, update_of_ne hu]; exact hown, by rw [hb.procs]; exact hblank,
      by rw [hb.loads]; exact hload, u', ?_, ?_⟩
    · rw [hb.phase, update_of_ne hne, hu']
    · rw [hb.proc, update_of_ne hne, hp]
  · refine ⟨by rw [hb.proc, update_of_ne hu]; exact hl.own, fun u' hu' hp => ?_⟩
    rw [hb.proc, update_of_ne hu] at hp
    rw [hb.phase]
    by_cases hnew : u' = s.nextTid
    · rw [hnew, update_self] at hp
      exact absurd hp.symm (hq u x tag htag hborn)
    · rw [update_of_ne hnew] at hp ⊢
      exact hl.alone u' hu' hp

/-- **BIRTH**: a new thread, at a new record or at none. -/
theorem Stages.born (h : Stages s ps cs) (hb : Born s s' q ph) (hq : NoneLeaves s q)
    (hwait : waitTag ph = none)
    (hleaves : Matched (update (fun u => exitTag (s.phase u)) s.nextTid (exitTag ph))
      (update (fun x => (cs x).engaged) r C.engaged))
    (hfits : Fits (ps r) C (s.recs r))
    (hbusy : ∀ u tag, C = .busy u tag → C = cs r ∨ Busy s' u (s'.recs r) tag)
    (hlive : (∃ x, ph = .starting x) ∨ (s.procs q).live = true)
    (hrec : ∀ x, update cs r C x = .absent ↔ s'.nextRec ≤ x)
    (hexited : C.exited = (cs r).exited) : Stages s' ps (update cs r C) where
  waits := by
    have hw := h.waits.same (a := s.nextTid) (b := r) (v := waitTag ph) (w := (ps r).engaged)
      (by rw [hwait, (h.tids _ (Nat.le_refl _)).1]; rfl) rfl
    rw [update_eq_self, ← comp_def waitTag s.phase, ← comp_update waitTag, ← hb.phase] at hw
    exact hw
  leaves := by rw [hb.phase]; exact matched_moved hleaves
  fits := by
    intro x
    rw [hb.recs]
    by_cases hx : x = r
    · rw [hx, update_self]
      exact hfits
    · rw [update_of_ne hx]
      exact h.fits x
  party := by
    intro x u tag hx
    have htag : waitTag (s.phase u) = some (x, tag) := (h.waits u x tag).mpr (congrArg PStage.engaged hx)
    have hu : u ≠ s.nextTid := by
      rintro rfl
      rw [(h.tids _ (Nat.le_refl _)).1] at htag
      exact nomatch htag
    rw [hb.proc, update_of_ne hu, hb.recs]
    exact h.party x u tag hx
  busy := by
    intro x u tag hx
    rcases update_cases hx with ⟨rfl, hC⟩ | ⟨-, hx⟩
    · rcases hbusy u tag hC with hsame | hnew
      · exact hb.busy h hq (hsame.symm.trans hC)
      · exact hnew
    · exact hb.busy h hq hx
  live := by
    intro u
    rw [hb.procs]
    by_cases hu : u = s.nextTid
    · rw [hu, hb.phase, hb.proc, update_self, update_self]
      exact .inr hlive
    · rw [hb.phase, hb.proc, update_of_ne hu, update_of_ne hu]
      exact h.live u
  tids := by
    intro u hu
    rw [hb.nextTid] at hu
    have hne : u ≠ s.nextTid := by omega
    rw [hb.phase, update_of_ne hne, hb.procs, hb.loads]
    exact h.tids u (Nat.le_of_succ_le hu)
  absent := hrec
  codes := by
    intro x hx
    rw [hb.recs, hb.exits]
    refine h.codes x ?_
    by_cases hxr : x = r
    · rw [hxr, update_self, hexited] at hx
      rw [hxr, hx]
    · rw [update_of_ne hxr] at hx
      exact hx
  exits := by
    intro e he
    rw [hb.exits] at he
    by_cases her : e.1 = r
    · rw [her, update_self, hexited, ← her]
      exact h.exits e he
    · rw [update_of_ne her]
      exact h.exits e he
  once := by rw [hb.exits]; exact h.once
  answered := by rw [hb.answers]; exact h.answered
  answers := by
    intro ans hans
    rw [hb.answers] at hans
    refine (h.answers ans hans).congr fun x hx => ?_
    rw [hb.recs]
    exact ⟨hx, rfl, rfl, rfl⟩
  stray := hb.stray.trans h.stray

/-- The PCBs do not see a record that no child has set up. -/
theorem Lists.born (h : Lists s cs) (hb : Born s s' q ph) (hborn : C.born = (cs r).born)
    (hgone : C = .gone ↔ cs r = .gone) : Lists s' (update cs r C) := by
  have m : Moved s { s with procs := s.procs } 0 r (s.phase 0) (s.recs r) :=
    ⟨rfl, (update_eq_self ..).symm, (update_eq_self ..).symm, rfl, rfl, rfl, fun _ h => h, rfl, rfl⟩
  exact (h.move m rfl rfl hborn hgone).congr hb.procs hb.recs

theorem inv_spawn (hS : Stages s ps cs) (hL : Lists s cs) (hph : s.phase th = .running) :
    Inv ({ s with proc := update s.proc s.nextTid (s.proc th), nextTid := s.nextTid + 1 }
      |>.setPhase s.nextTid .running) := by
  have hmob : Mobile s th := mobile_of hph rfl
  have hb : Born s ({ s with
      proc := update s.proc s.nextTid (s.proc th), nextTid := s.nextTid + 1 }
      |>.setPhase s.nextTid .running) (s.proc th) .running := ⟨rfl, rfl, rfl, rfl, rfl, rfl, rfl, rfl, rfl⟩
  have hq : NoneLeaves s (s.proc th) := by
    intro u x tag htag hborn hp
    have hl := (busy_leaving hborn).mp (hS.busy x u tag (hS.exit_stage htag))
    have hne : th ≠ u := by
      rintro rfl
      rw [hph] at htag
      exact nomatch htag
    exact hmob.running (hl.alone th hne hp.symm)
  refine ⟨_, _, hS.born hb hq rfl (r := 0) (C := cs 0) ?_ (hS.fits 0) (fun _ _ _ => .inl rfl)
    (.inr (hS.live_of hmob.running hmob.started)) (hS.absent_same Iff.rfl rfl) rfl,
    hL.born hb rfl Iff.rfl⟩
  exact hS.leaves.same (by rw [(hS.tids _ (Nat.le_refl _)).1]; rfl) rfl

/-! ## `process_execute` and `start_process` -/

/-- A record that is not there can be written over. -/
theorem Stages.refresh (h : Stages s ps cs) (hr : s.nextRec ≤ r) (p : Nat) :
    Stages (s.setRec r (freshStatus p)) ps cs := by
  have hC : cs r = .absent := (h.absent r).mpr hr
  have hP : ps r = .idle := (h.fits r).unborn (by rw [hC]; rfl)
  have hrecs : ∀ x, x ≠ r → (s.setRec r (freshStatus p)).recs x = s.recs x := fun x hx =>
    update_of_ne hx ..
  have hbusyr : ∀ {x u : Nat} {tag : ExitTag}, cs x = .busy u tag → x ≠ r := by
    rintro x u tag hx rfl
    exact nomatch hC.symm.trans hx
  refine { h with
    fits := fun x => ?_, party := fun x u tag hx => ?_, busy := fun x u tag hx => ?_
    codes := fun x hx => ?_, answers := fun ans hans => ?_ }
  · by_cases hx : x = r
    · rw [hx, hP, hC]
      show Fits _ _ (update s.recs r _ r)
      rw [update_self]
      exact fits_fresh p rfl rfl nofun
    · rw [hrecs x hx]
      exact h.fits x
  · have hxr : x ≠ r := by
      rintro rfl
      exact nomatch hP.symm.trans hx
    rw [hrecs x hxr]
    exact h.party x u tag hx
  · rw [hrecs x (hbusyr hx)]
    exact (h.busy x u tag hx).congr rfl rfl rfl (fun he => { he with }) fun _ hl => { hl with }
  · have hxr : x ≠ r := by
      rintro rfl
      rw [hC] at hx
      exact nomatch hx
    rw [hrecs x hxr]
    exact h.codes x hx
  · have hok := h.answers ans hans
    refine hok.congr fun x hx => ?_
    rw [hrecs x]
    · exact ⟨hx, rfl, rfl, rfl⟩
    · rintro rfl
      rw [hP] at hx
      exact nomatch hx

theorem Lists.refresh (h : Lists s cs) (hC : cs r = .absent) (p : Nat) :
    Lists (s.setRec r (freshStatus p)) cs := by
  have hrecs : ∀ x, (cs x).born = true → (s.setRec r (freshStatus p)).recs x = s.recs x := by
    intro x hx
    refine update_of_ne ?_ ..
    rintro rfl
    rw [hC] at hx
    exact nomatch hx
  refine ⟨fun c x => (h.mine c x).trans (and_congr_right fun hx => ?_),
    fun x hx => by rw [hrecs x hx]; exact h.tid x hx, h.live, fun q x => (h.list q x).trans (and_congr_right fun hx => ?_), h.nodup, h.kept⟩
  · rw [hrecs x hx]
  · rw [hrecs x hx]

/-- **EXECUTE**: a new record with a thread for it, or one that waits for ever. -/
theorem inv_processExecute (hS : Stages s ps cs) (hL : Lists s cs) (hph : s.phase th = .running)
    {record page : Bool} (create : Bool) (hpage : record = true → page = true) :
    Inv (processExecute s th record page create) := by
  have hmob : Mobile s th := mobile_of hph rfl
  have hC : cs s.nextRec = .absent := (hS.absent _).mpr (Nat.le_refl _)
  have hP : ps s.nextRec = .idle := (hS.fits _).unborn (by rw [hC]; rfl)
  have hS1 := hS.refresh (Nat.le_refl s.nextRec) (s.proc th)
  have hL1 := hL.refresh hC (s.proc th)
  have hnext : ∀ (C : CStage), C ≠ .absent → ∀ x,
      update cs s.nextRec C x = .absent ↔ s.nextRec + 1 ≤ x := by
    intro C hne x
    by_cases hx : x = s.nextRec
    · rw [hx, update_self]
      exact ⟨fun h => absurd h hne, fun h => absurd h (Nat.not_succ_le_self _)⟩
    · rw [update_of_ne hx, hS.absent x]
      omega
  have hfresh : (s.setRec s.nextRec (freshStatus (s.proc th))).recs s.nextRec =
      freshStatus (s.proc th) := update_self ..
  cases record with
  | false => exact ⟨ps, cs, hS, hL⟩
  | true =>
    obtain rfl := hpage rfl
    cases create with
    | false =>
      have m : Moved (s.setRec s.nextRec (freshStatus (s.proc th)))
          (processExecute s th true true false) th s.nextRec (.stuck s.nextRec)
          (freshStatus (s.proc th)) := by
        refine ⟨rfl, rfl, ?_, rfl, rfl, rfl, fun _ h => h, by rw [hfresh], by rw [hfresh]⟩
        exact (update_idem ..).symm
      refine ⟨_, _, hS1.move m (P := .idle) (C := .busy th .stuck) ?_,
        hL1.move m rfl (by rw [hfresh]) (by rw [hC]; rfl) ?_⟩
      · have hnone : waitTag (s.phase th) = none := by rw [hph]; rfl
        refine ⟨hS1.waits.same hnone (congrArg PStage.engaged hP), ?_,
          fits_fresh _ rfl rfl nofun, mobile_of hph rfl,
          nofun, fun u tag he => .inr ?_, hnext _ nofun,
          fun _ _ h => h, .inl ⟨rfl, by rw [hC]; rfl, fun _ => by rw [hfresh]⟩,
          .inl ⟨rfl, by rw [hP], fun _ => by rw [hfresh]⟩⟩
        · exact hS1.leaves.set (apart_of_free (congrArg exitTag hph)
            (congrArg CStage.engaged hC)) (some .stuck)
        · obtain ⟨rfl, rfl⟩ := CStage.busy.inj he
          rfl
      · rw [hC]
        exact ⟨nofun, nofun⟩
    | true =>
      have hgone := (hS.tids _ (Nat.le_refl s.nextTid)).1
      have hne : th ≠ s.nextTid := by
        rintro rfl
        exact hmob.running hgone
      have hS2 : Stages ((s.setRec s.nextRec (freshStatus (s.proc th))).setPhase th
          (.loading s.nextTid)) ps cs :=
        hS1.setPhase (mobile_of hph rfl) (congrArg waitTag hph) rfl (congrArg exitTag hph) rfl
      have hL2 : Lists ((s.setRec s.nextRec (freshStatus (s.proc th))).setPhase th
          (.loading s.nextTid)) cs := hL1.congr rfl rfl
      have hb : Born ((s.setRec s.nextRec (freshStatus (s.proc th))).setPhase th
          (.loading s.nextTid)) (processExecute s th true true true) s.nextTid
          (.starting s.nextRec) := by
        refine ⟨rfl, ?_, rfl, rfl, rfl, rfl, rfl, rfl, rfl⟩
        exact update_comm (Ne.symm hne) ..
      have hblank := (hS.tids _ (Nat.le_refl s.nextTid)).2
      have hq : NoneLeaves ((s.setRec s.nextRec (freshStatus (s.proc th))).setPhase th
          (.loading s.nextTid)) s.nextTid := by
        intro u x tag htag hborn hp
        -- a thread on its way out has a live process
        rcases hS2.live u with hg | ⟨y, hy⟩ | hlive
        · rw [hg] at htag
          exact nomatch htag
        · rw [hy] at htag
          obtain ⟨-, rfl⟩ := pair_inj htag
          exact nomatch hborn
        · rw [hp] at hlive
          change (s.procs s.nextTid).live = true at hlive
          rw [hblank.1] at hlive
          exact nomatch hlive
      refine ⟨_, _, hS2.born hb hq rfl (r := s.nextRec) (C := .busy s.nextTid .starting) ?_ ?_ ?_
        (.inl ⟨_, rfl⟩) (hnext _ nofun) (by rw [hC]; rfl), hL2.born hb (by rw [hC]; rfl) ?_⟩
      · refine hS2.leaves.set (apart_of_free ?_ (congrArg CStage.engaged hC)) (some .starting)
        show exitTag (update s.phase th _ s.nextTid) = none
        rw [update_of_ne (Ne.symm hne), hgone]
        rfl
      · show Fits _ _ (update s.recs s.nextRec _ s.nextRec)
        rw [hP, update_self]
        exact fits_fresh _ rfl rfl nofun
      · intro u tag he
        obtain ⟨rfl, rfl⟩ := CStage.busy.inj he
        refine .inr ⟨update_self .., hblank.1, hblank.2, th, ?_, ?_⟩
        · exact update_self ..
        · show update s.proc s.nextTid s.nextTid th = (update s.recs _ _ _).parent
          rw [update_of_ne hne, update_self]
          rfl
      · rw [hC]
        exact ⟨nofun, nofun⟩

def Proc.withChild (Q : Proc) (r : Nat) : Proc := { Q with children := r :: Q.children }

def Status.setUp (R : Status) (c : Nat) : Status :=
  { R with refCount := R.refCount + 1 + 1, tid := c, isWaitedOn := false }

/-- The system after a start that succeeds. -/
def started (s : System) (c r : Nat) : System :=
  { s with
    loads := update s.loads c (some true)
    recs := update s.recs r ((s.recs r).setUp c)
    procs := update (update s.procs c ⟨[], some r, true⟩) (s.recs r).parent
      ((s.procs (s.recs r).parent).withChild r)
    phase := update s.phase c .running }

theorem startProcess_eq (hfreed : (s.recs r).freed = 0) (hpc : (s.recs r).parent ≠ c)
    (hlive : (s.procs (s.recs r).parent).live = true) : startProcess s c r true = started s c r := by
  have hproc : update s.procs c ⟨[], some r, true⟩ (s.recs r).parent =
      s.procs (s.recs r).parent := update_of_ne hpc ..
  rw [startProcess, if_pos rfl, use_eq (s := { s with
    loads := update s.loads c (some true) }) hfreed]
  dsimp only
  rw [useList_eq]
  · rw [System.setPhase, System.setProc, started]
    congr 1
    show update (update s.procs c _) _
      { update s.procs c _ _ with children := r :: (update s.procs c _ _).children } = _
    rw [hproc]
    rfl
  · show (update s.procs c _ _).live = true
    rw [hproc, hlive]

section Start

variable (hS : Stages s ps cs) (hL : Lists s cs) (hbusy : cs r = .busy c .starting)
  (hph : s.phase c = .starting r) (hent : Entering s c (s.recs r).parent)
  (hlive : (s.procs (s.recs r).parent).live = true) (hpc : (s.recs r).parent ≠ c)

include hlive in
/-- A blank PCB other than the child's stays blank. -/
theorem started_blank (hq : q ≠ c) (h : s.procs q = noProc) : (started s c r).procs q = noProc := by
  show update (update s.procs c _) _ _ q = noProc
  rw [update_of_ne, update_of_ne hq, h]
  rintro rfl
  rw [h] at hlive
  exact nomatch hlive

include hpc in
theorem started_live (h : (s.procs q).live = true ∨ q = c) :
    ((started s c r).procs q).live = true := by
  show (update (update s.procs c _) _ _ q).live = true
  by_cases hqp : q = (s.recs r).parent
  · rw [hqp, update_self]
    refine h.elim (fun h => hqp ▸ h) fun h => ?_
    exact absurd (hqp.symm.trans h) hpc
  · rw [update_of_ne hqp]
    by_cases hqc : q = c
    · rw [hqc, update_self]
    · rw [update_of_ne hqc]
      exact h.resolve_right hqc

include hS hbusy hph hent hlive hpc in
theorem started_stages : Stages (started s c r) ps (update cs r .alive) := by
  have hold : exitTag (s.phase c) = some (r, .starting) := by rw [hph]; rfl
  have hfits := hS.fits r
  rw [hbusy] at hfits
  have hP : ps r = .idle := hfits.unborn rfl
  have hrecs : ∀ x, x ≠ r → (started s c r).recs x = s.recs x := fun x hx =>
    update_of_ne hx ..
  have hphase : ∀ u, u ≠ c → (started s c r).phase u = s.phase u := fun u hu =>
    update_of_ne hu ..
  refine ⟨?_, ?_, fun x => ?_, fun x u tag hx => ?_, fun x u tag hx => ?_, fun u => ?_, fun u hu => ?_,
    ?_, fun x hx => ?_, fun e he => ?_, hS.once, hS.answered, fun ans hans => ?_, hS.stray⟩
  · have hw := hS.waits.same (a := c) (b := r) (v := waitTag .running) (w := (ps r).engaged)
      (by rw [hph]; rfl) rfl
    rw [update_eq_self, ← comp_def waitTag s.phase, ← comp_update waitTag] at hw
    exact hw
  · have hl := hS.leaves.set (hS.leaves.apart_of_busy hold) none
    exact matched_moved (v := Phase.running) (w := CStage.alive) hl
  · by_cases hx : x = r
    · rw [hx, update_self]
      show Fits _ _ (update s.recs r _ r)
      rw [update_self]
      exact hfits.start c
    · rw [hrecs x hx, update_of_ne hx]
      exact hS.fits x
  · have hxr : x ≠ r := by
      rintro rfl
      exact nomatch hP.symm.trans hx
    rw [hrecs x hxr]
    exact hS.party x u tag hx
  · have hxr : x ≠ r := by
      rintro rfl
      rw [update_self] at hx
      exact nomatch hx
    rw [update_of_ne hxr] at hx
    rw [hrecs x hxr]
    -- the child itself is busy with its own record only
    have huc : u ≠ c := by
      rintro rfl
      have htag := (hS.leaves u x tag).mpr (congrArg CStage.engaged hx)
      exact hxr (pair_inj (htag.symm.trans hold)).1
    refine (hS.busy x u tag hx).congr rfl rfl rfl ?_ fun _ hl => ⟨hl.own, fun u' hu' hp => ?_⟩
    · rintro ⟨hown', hblank', hload', u', hu', hp'⟩
      refine ⟨hown', started_blank hlive huc hblank', ?_, u', ?_, hp'⟩
      · show update s.loads c _ u = none
        rw [update_of_ne huc, hload']
      · rw [hphase u', hu']
        rintro rfl
        exact nomatch hph.symm.trans hu'
    · have hgone := hl.alone u' hu' hp
      rw [hphase u', hgone]
      rintro rfl
      exact nomatch hph.symm.trans hgone
  · by_cases huc : u = c
    · refine .inr (.inr (started_live hpc (.inr ?_)))
      rw [huc]
      exact hent.own
    · rw [hphase u huc]
      exact (hS.live u).imp_right fun h => h.imp_right fun h => started_live hpc (.inl h)
  · obtain ⟨hgone, hblank', hload'⟩ := hS.tids u hu
    have huc : u ≠ c := by
      rintro rfl
      exact nomatch hph.symm.trans hgone
    refine ⟨by rw [hphase u huc, hgone], started_blank hlive huc hblank', ?_⟩
    show update s.loads c _ u = none
    rw [update_of_ne huc, hload']
  · refine hS.absent_same ?_ rfl
    rw [hbusy]
    exact ⟨nofun, nofun⟩
  · have hxr : x ≠ r := by
      rintro rfl
      rw [update_self] at hx
      exact nomatch hx
    rw [update_of_ne hxr] at hx
    rw [hrecs x hxr]
    exact hS.codes x hx
  · have hex := hS.exits e he
    have her : e.1 ≠ r := by
      intro heq
      rw [heq, hbusy] at hex
      exact nomatch hex
    rw [update_of_ne her]
    exact hex
  · have hok := hS.answers ans hans
    refine hok.congr fun x hx => ?_
    rw [hrecs x]
    · exact ⟨hx, rfl, rfl, rfl⟩
    · rintro rfl
      rw [hP] at hx
      exact nomatch hx

include hL hbusy hent hlive hpc in
theorem started_lists (hfreed : (s.recs r).freed = 0) :
    Lists (started s c r) (update cs r .alive) := by
  have hmine : ∀ q, ((started s c r).procs q).myStatus =
      if q = c then some r else (s.procs q).myStatus := by
    intro q
    show (update (update s.procs c _) _ _ q).myStatus = _
    by_cases hqp : q = (s.recs r).parent
    · rw [hqp, update_self, if_neg hpc]
      rfl
    · rw [update_of_ne hqp]
      by_cases hqc : q = c
      · rw [hqc, update_self, if_pos rfl]
      · rw [update_of_ne hqc, if_neg hqc]
  have hchildren : ∀ q, ((started s c r).procs q).children =
      if q = (s.recs r).parent then r :: (s.procs q).children else (s.procs q).children := by
    intro q
    show (update (update s.procs c _) _ _ q).children = _
    by_cases hqp : q = (s.recs r).parent
    · rw [hqp, update_self, if_pos rfl]
      rfl
    · rw [update_of_ne hqp, if_neg hqp]
      by_cases hqc : q = c
      · rw [hqc, update_self, hent.blank]
        rfl
      · rw [update_of_ne hqc]
  have hnotin : ∀ q, r ∉ (s.procs q).children := by
    intro q hin
    have hborn := ((hL.list q r).mp hin).1
    rw [hbusy] at hborn
    exact nomatch hborn
  have hnotmine : ∀ q, (s.procs q).myStatus ≠ some r := by
    intro q hq
    have hborn := ((hL.mine q r).mp hq).1
    rw [hbusy] at hborn
    exact nomatch hborn
  have hrecs : ∀ x, x ≠ r → (started s c r).recs x = s.recs x := fun x hx =>
    update_of_ne hx ..
  have hrec : (started s c r).recs r = (s.recs r).setUp c := update_self ..
  refine ⟨fun q x => ?_, fun x hx => ?_, fun q x hq => ?_, fun q x => ?_, fun q => ?_, fun q hq => ?_⟩
  rotate_left
  · by_cases hxr : x = r
    · rw [hxr, hrec]
      exact Int.natCast_nonneg c
    · rw [update_of_ne hxr] at hx
      rw [hrecs x hxr]
      exact hL.tid x hx
  rotate_right
  · rw [hmine q]
    by_cases hx : x = r
    · rw [hx, hrec, update_self]
      split
      · rename_i hqc
        rw [hqc]
        exact ⟨fun _ => ⟨rfl, rfl⟩, fun _ => rfl⟩
      · rename_i hqc
        exact ⟨fun h => absurd h (hnotmine q), fun h => absurd (Int.ofNat.inj h.2).symm hqc⟩
    · rw [update_of_ne hx, hrecs x hx, ← hL.mine q x]
      split
      · rename_i hqc
        rw [hqc, hent.blank]
        exact ⟨fun h => absurd (some.inj h).symm hx, nofun⟩
      · rfl
  · rw [hmine q] at hq
    by_cases hqc : q = c
    · rw [if_pos hqc] at hq
      obtain rfl := some.inj hq
      rw [update_self]
      exact ⟨nofun, fun _ => started_live hpc (.inr hqc)⟩
    rw [if_neg hqc] at hq
    have hxr : x ≠ r := by
      rintro rfl
      exact hnotmine q hq
    rw [update_of_ne hxr, ← hL.live q x hq]
    show (update (update s.procs c _) _ _ q).live = true ↔ _
    by_cases hqp : q = (s.recs r).parent
    · rw [hqp, update_self]
      exact Iff.rfl
    · rw [update_of_ne hqp, update_of_ne hqc]
  · rw [hchildren q]
    by_cases hx : x = r
    · rw [hx, hrec, update_self]
      split
      · rename_i hqp
        exact ⟨fun _ => ⟨rfl, hfreed, hqp.symm⟩, fun _ => mem_cons_self ..⟩
      · rename_i hqp
        exact ⟨fun h => absurd h (hnotin q), fun h => absurd h.2.2.symm hqp⟩
    · rw [update_of_ne hx, hrecs x hx, ← hL.list q x]
      split
      · rw [mem_cons]
        exact ⟨fun h => h.resolve_left hx, .inr⟩
      · rfl
  · rw [hchildren q]
    split
    · exact nodup_cons.mpr ⟨hnotin q, hL.nodup q⟩
    · exact hL.nodup q
  · rw [hchildren q] at hq
    refine started_live hpc (.inl ?_)
    by_cases hqp : q = (s.recs r).parent
    · rw [hqp]
      exact hlive
    · rw [if_neg hqp] at hq
      exact hL.kept q hq

end Start

/-- **START**: the child sets up its record and its PCB. -/
theorem inv_startProcess (hS : Stages s ps cs) (hL : Lists s cs)
    (hph : s.phase c = .starting r) : Inv (startProcess s c r true) := by
  have hold : exitTag (s.phase c) = some (r, .starting) := by rw [hph]; rfl
  have hbusy := hS.exit_stage hold
  have hent : Entering s c (s.recs r).parent := hS.busy r c _ hbusy
  have hfreed := hS.unfreed (r := r) (by rw [hbusy]; exact Bool.and_false _)
  -- the parent has a thread that waits for the load
  have hlive : (s.procs (s.recs r).parent).live = true := by
    obtain ⟨u, hu, hup⟩ := hent.waited
    rw [← hup]
    exact hS.live_of (by rw [hu]; exact nofun) fun x => by rw [hu]; exact nofun
  have hpc : (s.recs r).parent ≠ c := by
    intro heq
    rw [heq, hent.blank] at hlive
    exact nomatch hlive
  rw [startProcess_eq hfreed hpc hlive]
  exact ⟨ps, _, started_stages hS hbusy hph hent hlive hpc,
    started_lists hL hbusy hent hlive hpc hfreed⟩

/-! ## The start of `process_wait` -/

/-- The walk over a list of records that are there finds the child, or nothing. -/
theorem walk_eq (tid : Int) : ∀ (rs : List Nat), (∀ x ∈ rs, (s.recs x).freed = 0) →
    (walk tid rs s = (none, s)) ∨ ∃ x ∈ rs, (s.recs x).tid = tid ∧ walk tid rs s = (some x, s) := by
  intro rs
  induction rs with
  | nil => intro _; exact .inl rfl
  | cons x rs ih =>
    intro h
    have hx := h x (mem_cons_self ..)
    rw [walk, use_eq hx]
    split
    · next htid => exact .inr ⟨x, mem_cons_self .., htid, rfl⟩
    · refine (ih fun y hy => h y (mem_cons_of_mem _ hy)).imp_right ?_
      rintro ⟨y, hy, htid, heq⟩
      exact ⟨y, mem_cons_of_mem _ hy, htid, heq⟩

/-- A call that returns -1. -/
theorem inv_refuse (hS : Stages s ps cs) (hL : Lists s cs) (th : Nat) (tid : Int) :
    Inv (s.answer th tid (-1) none) := by
  refine ⟨ps, cs, { hS with
    busy := fun x u tag hx => ?_, answered := fun x => ?_, answers := fun ans hans => ?_ },
    hL.congr rfl rfl⟩
  · exact (hS.busy x u tag hx).congr rfl rfl rfl (fun he => { he with }) fun _ hl => { hl with }
  · rw [← hS.answered x]
    exact countP_cons_of_neg (fun h => nomatch of_decide_eq_true h)
  · rcases mem_cons.mp hans with rfl | hans
    · rfl
    · exact hS.answers ans hans

theorem inv_processWait (hS : Stages s ps cs) (hL : Lists s cs) (hph : s.phase th = .running)
    (tid : Int) : Inv (processWait s th tid) := by
  have hmob : Mobile s th := mobile_of hph rfl
  rw [processWait, useList_eq (hS.live_of hmob.running hmob.started)]
  rcases walk_eq tid (s.procs (s.proc th)).children
    (fun x hx => ((hL.list _ x).mp hx).2.1) with heq | ⟨x, hx, htid, heq⟩
  · rw [heq]
    exact inv_refuse hS hL th tid
  · rw [heq]
    show Inv (if _ then _ else _)
    split
    · exact inv_refuse hS hL th tid
    · next hw =>
        rw [← htid]
        exact inv_wait hS hL hph hx (eq_false_of_ne_true hw)

/-! ## Runs -/

/-- What a step must not be for the protocol to work: a PCB is freed when no child
    is on its list, and what has a record gets loaded. -/
def Orderly (s : System) : Act → Prop
  | .execute _ record page _ => record = true → page = true
  | .start _ ok => ok = true
  | .finish th => (s.procs (s.proc th)).children = []
  | _ => True

instance (s : System) (a : Act) : Decidable (Orderly s a) := by
  cases a <;> unfold Orderly <;> infer_instance

/-- **STEP**: every orderly section keeps the invariant. -/
theorem inv_step (h : Inv s) (a : Act) (ha : Orderly s a) (hs : step s a = some s') : Inv s' := by
  obtain ⟨ps, cs, hS, hL⟩ := h
  cases a <;> simp only [step] at hs
  case execute th record page create =>
    obtain ⟨hph, rfl⟩ := of_guard hs
    exact inv_processExecute hS hL hph create ha
  case start c ok =>
    obtain rfl : ok = true := ha
    split at hs <;> cases hs
    exact inv_startProcess hS hL ‹_›
  case loaded th =>
    split at hs
    · next c hph =>
        obtain ⟨hload, hs⟩ := ite_none_left_eq_some.mp hs
        obtain rfl := some.inj hs
        have hmob : Mobile s th := by
          refine ⟨?_, fun x => ?_, fun c' hc' => ?_⟩
          · rw [hph]
            exact nofun
          · rw [hph]
            exact nofun
          · obtain rfl := Phase.loading.inj (hph.symm.trans hc')
            exact hload
        exact inv_phase hS hL hmob (by rw [hph]; rfl) rfl (by rw [hph]; rfl) rfl
    · exact nomatch hs
  case wait th tid =>
    obtain ⟨hph, rfl⟩ := of_guard hs
    exact inv_processWait hS hL hph tid
  case wake th =>
    split at hs
    · next tid r hph =>
        obtain ⟨hsem, hs⟩ := ite_none_left_eq_some.mp hs
        obtain rfl := some.inj hs
        exact inv_wake hS hL hph hsem
    · exact nomatch hs
  case dropRef th =>
    split at hs <;> cases hs
    exact inv_dropRef hS hL ‹_›
  case collect th =>
    split at hs <;> cases hs
    exact inv_collect hS hL ‹_›
  case spawn th =>
    obtain ⟨hph, rfl⟩ := of_guard hs
    exact inv_spawn hS hL hph
  case quit th =>
    obtain ⟨⟨hph, -⟩, rfl⟩ := of_guard hs
    exact inv_phase hS hL (mobile_of hph rfl) (by rw [hph]; rfl) rfl (by rw [hph]; rfl) rfl
  case exit th code =>
    split at hs
    · next r hr =>
        obtain ⟨hph, rfl⟩ := of_guard hs
        exact inv_exitProcess hS hL hr hph code
    · exact nomatch hs
  case leave th =>
    split at hs
    · next r hr =>
        obtain ⟨⟨hph, hlast⟩, rfl⟩ := of_guard hs
        exact inv_leave hS hL hr hph hlast
    · exact nomatch hs
  case signal th =>
    split at hs <;> cases hs
    exact inv_signal hS hL ‹_›
  case release th =>
    split at hs <;> cases hs
    exact inv_release hS hL ‹_›
  case finish th =>
    split at hs <;> cases hs
    exact inv_finish hS hL ‹_› ha

theorem inv_boot : Inv boot := by
  have htag : ∀ th, waitTag (boot.phase th) = none ∧ exitTag (boot.phase th) = none := by
    intro th
    show waitTag (if th = 1 then .running else .gone) = none ∧
      exitTag (if th = 1 then .running else .gone) = none
    split <;> exact ⟨rfl, rfl⟩
  have hprocs : ∀ p, (boot.procs p).children = [] ∧ (boot.procs p).myStatus = none := by
    intro p
    show (if p = 1 then (⟨[], none, true⟩ : Proc) else ⟨[], none, false⟩).children = [] ∧
      (if p = 1 then (⟨[], none, true⟩ : Proc) else ⟨[], none, false⟩).myStatus = none
    split <;> exact ⟨rfl, rfl⟩
  refine ⟨fun _ => .idle, fun _ => .absent, ⟨fun th r tag => ?_, fun th r tag => ?_,
    fun r => fits_fresh 0 rfl rfl nofun, nofun,
    nofun, fun th => ?_, fun th hth => ?_,
    fun r => ⟨fun _ => Nat.zero_le r, fun _ => rfl⟩, nofun, nofun,
    nodup_nil, fun _ => rfl, nofun, rfl⟩, ⟨fun c r => ?_,
    nofun, fun c r hc => ?_, fun p r => ?_, fun p => ?_, fun p hp => absurd (hprocs p).1 hp⟩⟩
  · show waitTag (boot.phase th) = some (r, tag) ↔ none = some (th, tag)
    rw [(htag th).1]
    exact ⟨nofun, nofun⟩
  · show exitTag (boot.phase th) = some (r, tag) ↔ none = some (th, tag)
    rw [(htag th).2]
    exact ⟨nofun, nofun⟩
  · by_cases hth : th = 1
    · rw [hth]
      exact .inr (.inr rfl)
    · exact .inl (if_neg hth)
  · have hne : th ≠ 1 := Nat.ne_of_gt hth
    exact ⟨if_neg hne, if_neg hne, rfl⟩
  · rw [(hprocs c).2]
    exact ⟨nofun, fun h => nomatch h.1⟩
  · exact nomatch (hprocs c).2.symm.trans hc
  · rw [(hprocs p).1]
    exact ⟨nofun, fun h => nomatch h.1⟩
  · rw [(hprocs p).1]
    exact nodup_nil

/-! ## The protocol -/

/-- The child of the record has come to its end, or there will be none. -/
def ChildOver (s : System) (r : Nat) : Prop :=
  (∀ th, s.phase th ≠ .starting r) ∧ ∀ c, (s.procs c).myStatus = some r → (s.procs c).live = false

/-- The parent has waited for the child, or has come to its end itself. -/
def ParentOver (s : System) (r : Nat) : Prop :=
  (∃ a ∈ s.answers, a.via = some r) ∨ (s.procs (s.recs r).parent).live = false

/-- What the protocol is for. -/
structure Sound (s : System) : Prop where
  /-- a child's exit code is returned at most once -/
  once : ∀ r, s.answers.countP (fun a => a.via = some r) ≤ 1
  /-- to its parent, for its tid, and it is the code with which the child left -/
  codes : ∀ a ∈ s.answers, ∀ r, a.via = some r → a.proc = (s.recs r).parent ∧
    a.tid = (s.recs r).tid ∧ (r, a.result) ∈ s.exits
  exits : (s.exits.map Prod.fst).Nodup
  /-- every other request gets -1 -/
  others : ∀ a ∈ s.answers, a.via = none → a.result = -1
  /-- a record is freed at most once -/
  freed : ∀ r, (s.recs r).freed ≤ 1
  /-- after the child has left and the parent has waited, with no reference left -/
  late : ∀ r, 0 < (s.recs r).freed → (∃ code, (r, code) ∈ s.exits) ∧
    (s.recs r).isWaitedOn = true ∧ (s.recs r).refCount = 0
  /-- and it is, when both have come to their ends -/
  due : ∀ r < s.nextRec, ChildOver s r → ParentOver s r → (s.recs r).freed = 1
  /-- nothing freed is used -/
  stray : s.stray = []

theorem PStage.over_facts (h : P.finished = true) : P.waited = true ∧ P.holds = false := by
  cases P with
  | busy th tag => cases tag <;> first | exact ⟨rfl, rfl⟩ | exact nomatch h
  | done => exact ⟨rfl, rfl⟩
  | idle => exact nomatch h

theorem CStage.over_facts (h : C.finished = true) : C.exited = true ∧ C.holds = false ∧ C.born = true := by
  cases C with
  | busy th tag => cases tag <;> first | exact ⟨rfl, rfl, rfl⟩ | exact nomatch h
  | gone => exact ⟨rfl, rfl, rfl⟩
  | _ => exact nomatch h

theorem exitTag_inj {ph' : Phase} (h : exitTag ph = exitTag ph') (hsome : exitTag ph' ≠ none) :
    ph = ph' := by
  cases ph <;> cases ph' <;> simp_all [exitTag]

theorem Inv.sound (h : Inv s) : Sound s := by
  obtain ⟨ps, cs, hS, hL⟩ := h
  refine ⟨fun r => ?_, fun a ha r hr => ?_, hS.once, fun a ha hvia => ?_, fun r => (hS.fits r).freed_le,
    fun r hr => ?_, fun r hr hchild hparent => ?_, hS.stray⟩
  · rw [hS.answered r]
    cases (ps r).isDone <;> decide
  · have hok := hS.answers a ha
    rw [Answered, hr] at hok
    obtain ⟨hdone, hproc, htid, hres⟩ := hok
    refine ⟨hproc, htid, ?_⟩
    rw [hres]
    refine hS.codes r ?_
    have hup := (hS.fits r).awake (by
      cases hP : ps r with
      | done => rfl
      | _ => rw [hP] at hdone; cases hdone)
    cases hC : cs r with
    | busy th tag => rw [hC] at hup; cases tag <;> first | rfl | cases hup
    | gone => rfl
    | _ => rw [hC] at hup; cases hup
  · have hok := hS.answers a ha
    rw [Answered, hvia] at hok
    exact hok
  · have hf := (hS.fits r).freed
    have hover : ((ps r).finished && (cs r).finished) = true := by
      by_contra hnot
      rw [hf, if_neg hnot] at hr
      exact Nat.lt_irrefl 0 hr
    obtain ⟨hP, hC⟩ := (Bool.and_eq_true ..).mp hover
    obtain ⟨hwaited, hheld⟩ := PStage.over_facts hP
    obtain ⟨hexited, hheld', hborn⟩ := CStage.over_facts hC
    refine ⟨⟨_, hS.codes r hexited⟩, (hS.fits r).waited.trans hwaited, ?_⟩
    rw [(hS.fits r).refs, hborn, hheld, hheld']
    rfl
  · have hanswer : ∀ a ∈ s.answers, a.via = some r → ps r = .done := by
      intro a ha hvia
      have hok := hS.answers a ha
      rw [Answered, hvia] at hok
      cases hP : ps r with
      | done => rfl
      | _ => dsimp only at hok; rw [hP] at hok; cases hok.1
    -- a record no child has set up: its child is to come, or its parent waits for ever
    have hborn : (cs r).born = true := by
      cases hC : cs r with
      | alive | gone => rfl
      | absent => exact absurd ((hS.absent r).mp hC) (Nat.not_le.mpr hr)
      | busy th tag =>
        have htag := (hS.leaves th r tag).mpr (congrArg CStage.engaged hC)
        cases tag with
        | leaving | signalled | released free => rfl
        | starting => exact (hchild.1 th (exitTag_inj htag (some_ne_none _))).elim
        | stuck =>
          have hphase : s.phase th = .stuck r := exitTag_inj htag (some_ne_none _)
          have hmob : Mobile s th := mobile_of hphase rfl
          have hlive := hS.live_of hmob.running hmob.started
          rw [show s.proc th = (s.recs r).parent from hS.busy r th _ hC] at hlive
          rcases hparent with ⟨a, ha, hvia⟩ | hdead
          · have hidle := (hS.fits r).unborn (by rw [hC]; rfl)
            cases hidle.symm.trans (hanswer a ha hvia)
          · cases hlive.symm.trans hdead
    obtain ⟨c, hc⟩ := Int.eq_ofNat_of_zero_le (hL.tid r hborn)
    have hmine := (hL.mine c r).mpr ⟨hborn, hc⟩
    have hgone : cs r = .gone := by
      by_contra hne
      cases (hchild.2 c hmine).symm.trans ((hL.live c r hmine).mpr hne)
    rcases hparent with ⟨a, ha, hvia⟩ | hdead
    · rw [(hS.fits r).freed, hanswer a ha hvia, hgone]
      rfl
    · by_contra hne
      have hzero : (s.recs r).freed = 0 := by
        have := (hS.fits r).freed_le
        omega
      have hin := (hL.list _ r).mpr ⟨hborn, hzero, rfl⟩
      cases (hL.kept _ (ne_nil_of_mem hin)).symm.trans hdead

/-- **EXIT STATUS**: in every orderly run the protocol is sound in every state. -/
theorem exit_status_sound (acts : List Act) (s : System) (hG : Guarded step Orderly boot acts)
    (hs : exec step boot acts = some s) : Sound s :=
  (exec_inv (fun _ a _ h ha hs => inv_step h a ha hs) acts boot s inv_boot hG hs).sound

/-- A parent starts a child and waits for it; it is woken before the child drops
    its reference, so it is the child that frees the record. -/
def waitedRun : List Act :=
  [.execute 1 true true true, .start 2 true, .loaded 1, .wait 1 2, .exit 2 (some 7), .leave 2, .signal 2,
    .wake 1, .dropRef 1, .release 2, .collect 1, .finish 2, .wait 1 2]

theorem waitedRun_sound :
    Guarded step Orderly boot waitedRun ∧
    ∃ s, exec step boot waitedRun = some s ∧ Sound s ∧
      s.answers = [⟨1, 2, -1, none⟩, ⟨1, 2, 7, some 0⟩] ∧ (s.recs 0).freed = 1 := by
  have hG : Guarded step Orderly boot waitedRun := by decide +kernel
  have hobs : (exec step boot waitedRun).map (fun s => (s.answers, (s.recs 0).freed)) =
      some ([⟨1, 2, -1, none⟩, ⟨1, 2, 7, some 0⟩], 1) := by decide +kernel
  obtain ⟨s, hs, hobs⟩ := Option.map_eq_some_iff.mp hobs
  simp only [Prod.mk.injEq] at hobs
  exact ⟨hG, s, hs, exit_status_sound waitedRun s hG hs, hobs⟩

/-- The first process starts a second, the second a third; the second exits without
    waiting, then the third exits. -/
def orphanRun : List Act :=
  [.execute 1 true true true, .start 2 true, .loaded 1, .execute 2 true true true, .start 3 true,
    .loaded 2, .exit 2 (some 0), .leave 2, .signal 2, .release 2, .finish 2, .exit 3 (some 5), .leave 3,
    .signal 3, .release 3, .finish 3]

/-- After the run no thread but the first is there, and the second record is the third process's. -/
theorem orphanRun_rest (n : Nat) :
    (exec step boot orphanRun).map (fun s => (s.phase n, (s.procs n).myStatus)) =
      some (if n = 1 then .running else .gone, if n = 2 then some 0 else if n = 3 then some 1 else none) := by
  match n with
  | 0 | 1 | 2 | 3 => decide +kernel
  | n + 4 => rfl

/-- **LEAKED RECORD**: parent and child of the second record are gone, and it is
    still there. -/
theorem exit_status_leaks :
    ∃ s, exec step boot orphanRun = some s ∧ (s.recs 1).parent = 2 ∧ (s.procs 2).live = false ∧
      (s.procs 3).live = false ∧ (s.recs 1).freed = 0 ∧ ¬ Sound s := by
  have hobs : (exec step boot orphanRun).map (fun s => ((s.recs 1).parent, (s.procs 2).live,
      (s.procs 3).live, (s.recs 1).freed, s.nextRec)) = some (2, false, false, 0, 2) := by decide +kernel
  obtain ⟨s, hs, hobs⟩ := Option.map_eq_some_iff.mp hobs
  simp only [Prod.mk.injEq] at hobs
  obtain ⟨hparent, h2, h3, hfreed, hnext⟩ := hobs
  have hrest : ∀ n, s.phase n = (if n = 1 then .running else .gone) ∧
      (s.procs n).myStatus = if n = 2 then some 0 else if n = 3 then some 1 else none := by
    intro n
    have hn := orphanRun_rest n
    rw [hs] at hn
    exact pair_inj hn
  have hphase : ∀ th, s.phase th ≠ .starting 1 := by
    intro th
    rw [(hrest th).1]
    split <;> exact nofun
  have hmine : ∀ c, (s.procs c).myStatus = some 1 → c = 3 := by
    intro c hc
    rw [(hrest c).2] at hc
    split at hc
    · exact nomatch hc
    · split at hc
      · assumption
      · exact nomatch hc
  refine ⟨s, hs, hparent, h2, h3, hfreed, fun hsound => ?_⟩
  have hdue := hsound.due 1 (by rw [hnext]; decide) ⟨hphase, fun c hc => by rw [hmine c hc]; exact h3⟩
    (.inr (by rw [hparent]; exact h2))
  exact nomatch hfreed.symm.trans hdue

end MavExitStatus
