import Maverick.RunProofs

/-! # Fair scheduling — vruntimes stay together under CFS and EEVDF

Threads that never block take turns: the running one is charged for the ticks it used, goes to the
back of `fair_ready_list`, and the scheduler picks the next. CFS picks a smallest vruntime, EEVDF
the earliest deadline among the vruntimes close to the smallest.

Both picks are within `slack` of every vruntime (`slack` is 0 for CFS and `VRUNTIME_SCALE` for
EEVDF), and that is all the bound needs: a step moves one thread by at most one charge from there.
`fair_share` is the bound for runs of any length, with the bounded number of charged slices for
which a thread can be passed over.

Slices that end within one tick charge nothing, so that they are not counted:
`uncharged_slices_starve` is a run of them in which a thread never gets its turn. -/

namespace MavFair

open MavRun List

/-! ## The scheduler -/

/-- `fair_weight`, indexed by nice + 20. -/
def fairWeight : List Nat :=
  [88761, 71755, 56483, 46273, 36291, 29154, 23254, 18705, 14949, 11916,
   9548, 7620, 6100, 4904, 3906, 3121, 2501, 1991, 1586, 1277,
   1024, 820, 655, 526, 423, 335, 272, 215, 172, 137,
   110, 87, 70, 56, 45, 36, 29, 23, 18, 15, 12]

def timeSlice : Nat := 4

def vruntimeScale : Nat := 1024

def int64Max : Int := 2 ^ 63 - 1

/-- A value stored in an `int64_t`. -/
def toInt64 (x : Int) : Int := x.bmod (2 ^ 64)

/-- The fields of `struct thread` the fair schedulers use. -/
structure FairThread where
  tid : Nat
  niceFair : Int
  vruntime : Int
  deadline : Int
  deriving DecidableEq, Repr

/-- `nice_idx`: the index into the table, clamped to it. -/
def niceIdx (t : FairThread) : Nat := (min (max (t.niceFair + 20) 0) 40).toNat

def FairThread.weight (t : FairThread) : Nat := fairWeight.getD (niceIdx t) 0

/-- What `ticks` ticks cost at a weight. -/
def charge (ticks weight : Nat) : Nat := ticks * vruntimeScale * 1024 / weight

/-- `fair_update_vruntime`, for a thread that is not the idle thread. -/
def fairUpdateVruntime (t : FairThread) (ticksUsed : Nat) : FairThread :=
  if ticksUsed = 0 then t
  else
    let vruntime := toInt64 (t.vruntime + charge ticksUsed t.weight)
    { t with
      vruntime := vruntime
      deadline := toInt64 (vruntime + charge timeSlice t.weight) }

/-- `active_fair_sched_type`, the two that are implemented. -/
inductive FairSched where
  | cfs
  | eevdf
  deriving DecidableEq, Repr

/-- The loops of both schedulers: the first of the smallest keys among the
    eligible threads, with that key. -/
def scan (eligible : FairThread → Prop) [DecidablePred eligible] (key : FairThread → Int)
    (ready : List FairThread) : Option FairThread × Int :=
  ready.foldl (fun acc t =>
      if eligible t then
        if key t < acc.2 then (some t, key t) else acc
      else acc)
    (none, int64Max)

/-- The loop of `thread_schedule_cfs`. -/
def cfsScan (ready : List FairThread) : Option FairThread × Int :=
  scan (fun _ => True) FairThread.vruntime ready

/-- `local_min_vruntime`, the first pass of `thread_schedule_eevdf`. -/
def localMin (ready : List FairThread) : Int := (cfsScan ready).2

/-- The second pass of `thread_schedule_eevdf`. -/
def eevdfScan (threshold : Int) (ready : List FairThread) : Option FairThread × Int :=
  scan (fun t => t.vruntime ≤ threshold) FairThread.deadline ready

/-- `eevdf_min_vruntime` after the first pass. -/
def raiseMin (minVruntime localMinVruntime : Int) : Int :=
  if minVruntime < localMinVruntime then localMinVruntime else minVruntime

/-- The choice of `thread_schedule_eevdf`, with its fallback. -/
def eevdfWinner (minVruntime : Int) (ready : List FairThread) : Option FairThread :=
  let threshold := toInt64 (raiseMin minVruntime (localMin ready) + vruntimeScale)
  match (eevdfScan threshold ready).1 with
  | some t => some t
  | none => ready.find? fun t => t.vruntime = localMin ready

/-- The thread that runs, those in `fair_ready_list` and `eevdf_min_vruntime`. -/
structure FairState where
  sched : FairSched
  current : FairThread
  ready : List FairThread
  minVruntime : Int
  deriving DecidableEq, Repr

def FairState.threads (s : FairState) : List FairThread := s.current :: s.ready

/-- `schedule` with the running thread already in the ready list; `none` when
    the `ASSERT` on the winner fails. -/
def schedule (sched : FairSched) (ready : List FairThread) (minVruntime : Int) :
    Option FairState :=
  match sched with
  | .cfs => (cfsScan ready).1.map fun w => ⟨.cfs, w, ready.erase w, minVruntime⟩
  | .eevdf => (eevdfWinner minVruntime ready).map fun w =>
    ⟨.eevdf, w, ready.erase w, raiseMin minVruntime (localMin ready)⟩

/-- `thread_yield` after `ticks` ticks: charge, enqueue, schedule. -/
def threadYield (s : FairState) (ticks : Nat) : Option FairState :=
  schedule s.sched (s.ready ++ [fairUpdateVruntime s.current ticks]) s.minVruntime

/-! ## What the schedulers pick -/

variable {ready : List FairThread} {t : FairThread} {ticks D : Nat} {s : FairState}

section Scan

variable (eligible : FairThread → Prop) [DecidablePred eligible] (key : FairThread → Int)

/-- The loop from any point on: its key is a lower bound, and it is either the
    one it started with or that of a thread it has seen. -/
theorem scan_loop (l : List FairThread) (acc : Option FairThread × Int) :
    let r := l.foldl (fun acc t =>
      if eligible t then
        if key t < acc.2 then (some t, key t) else acc
      else acc) acc
    (r.2 ≤ acc.2 ∧ ∀ t ∈ l, eligible t → r.2 ≤ key t) ∧
      (r = acc ∨ ∃ w ∈ l, eligible w ∧ r = (some w, key w)) := by
  induction l generalizing acc with
  | nil => exact ⟨⟨Int.le_refl _, nofun⟩, .inl rfl⟩
  | cons t l ih =>
    rw [foldl_cons]
    by_cases he : eligible t
    · by_cases hk : key t < acc.2
      · rw [if_pos he, if_pos hk]
        obtain ⟨⟨hle, hall⟩, hres⟩ := ih (some t, key t)
        refine ⟨⟨by omega, forall_mem_cons.mpr ⟨fun _ => hle, hall⟩⟩, .inr ?_⟩
        rcases hres with hr | ⟨w, hw, hwe, hr⟩
        · exact ⟨t, mem_cons_self .., he, hr⟩
        · exact ⟨w, mem_cons_of_mem _ hw, hwe, hr⟩
      · rw [if_pos he, if_neg hk]
        obtain ⟨⟨hle, hall⟩, hres⟩ := ih acc
        exact ⟨⟨hle, forall_mem_cons.mpr ⟨fun _ => by omega, hall⟩⟩,
          hres.imp id fun ⟨w, hw, h⟩ => ⟨w, mem_cons_of_mem _ hw, h⟩⟩
    · rw [if_neg he]
      obtain ⟨⟨hle, hall⟩, hres⟩ := ih acc
      exact ⟨⟨hle, forall_mem_cons.mpr ⟨fun hue => absurd hue he, hall⟩⟩,
        hres.imp id fun ⟨w, hw, h⟩ => ⟨w, mem_cons_of_mem _ hw, h⟩⟩

/-- A thread that is picked is eligible. -/
theorem scan_eligible {w : FairThread}
    (h : (scan eligible key ready).1 = some w) : w ∈ ready ∧ eligible w := by
  obtain ⟨-, hr | ⟨u, hu, he, hr⟩⟩ := scan_loop eligible key ready (none, int64Max)
  · exact absurd ((congrArg Prod.fst hr).symm.trans h) nofun
  · rw [← Option.some.inj ((congrArg Prod.fst hr).symm.trans h)]
    exact ⟨hu, he⟩

end Scan

/-- With a vruntime below `INT64_MAX` in the list, the first pass finds a thread
    with the smallest vruntime. -/
theorem cfsScan_spec (ht : t ∈ ready) (hlt : t.vruntime < int64Max) :
    ∃ w ∈ ready, cfsScan ready = (some w, w.vruntime) ∧ ∀ u ∈ ready, w.vruntime ≤ u.vruntime := by
  obtain ⟨⟨-, hall⟩, hr | ⟨w, hw, -, hr⟩⟩ :=
    scan_loop (fun _ => True) FairThread.vruntime ready (none, int64Max)
  · have hle := hall t ht trivial
    rw [hr] at hle
    exact absurd hlt (Int.not_lt.mpr hle)
  · refine ⟨w, hw, hr, ?_⟩
    intro u hu
    have hle := hall u hu trivial
    rw [hr] at hle
    exact hle

/-- How far above the smallest vruntime a scheduler may pick. -/
def slack : FairSched → Nat
  | .cfs => 0
  | .eevdf => vruntimeScale

theorem toInt64_of_range {x : Int} (h1 : -2 ^ 63 ≤ x) (h2 : x ≤ int64Max) : toInt64 x = x := by
  unfold int64Max at h2
  exact Int.bmod_eq_of_le (by omega) (by omega)

/-- EEVDF picks within `VRUNTIME_SCALE` of the smallest vruntime, which is its
    new `eevdf_min_vruntime`. -/
theorem eevdfWinner_spec {m : Int} (ht : t ∈ ready)
    (hroom : t.vruntime + vruntimeScale ≤ int64Max) (hlow : -2 ^ 63 ≤ m)
    (hm : ∀ u ∈ ready, m ≤ u.vruntime) :
    ∃ w ∈ ready, eevdfWinner m ready = some w ∧
      (∀ u ∈ ready, w.vruntime ≤ u.vruntime + vruntimeScale) ∧
      -2 ^ 63 ≤ raiseMin m (localMin ready) ∧
      ∀ u ∈ ready, raiseMin m (localMin ready) ≤ u.vruntime := by
  have hscale : (vruntimeScale : Int) = 1024 := rfl
  obtain ⟨f, hf, hscan, hmin⟩ := cfsScan_spec ht (by omega)
  have hlocal : localMin ready = f.vruntime := congrArg Prod.snd hscan
  have hraise : raiseMin m (localMin ready) = f.vruntime := by
    unfold raiseMin
    have := hm f hf
    split <;> omega
  have hthr : toInt64 (raiseMin m (localMin ready) + vruntimeScale) = f.vruntime + 1024 := by
    have h1 := hm f hf
    have h2 := hmin t ht
    rw [hraise, hscale]
    exact toInt64_of_range (by omega) (by omega)
  have hdone : ∀ w ∈ ready, w.vruntime ≤ f.vruntime + 1024 →
      (∀ u ∈ ready, w.vruntime ≤ u.vruntime + vruntimeScale) ∧
      -2 ^ 63 ≤ raiseMin m (localMin ready) ∧
      ∀ u ∈ ready, raiseMin m (localMin ready) ≤ u.vruntime := by
    intro w _ hle
    refine ⟨fun u hu => ?_, ?_, fun u hu => ?_⟩
    · have := hmin u hu
      omega
    · have := hm f hf
      omega
    · rw [hraise]
      exact hmin u hu
  cases hwin : (eevdfScan (f.vruntime + 1024) ready).1 with
  | some w =>
    obtain ⟨hw, hle⟩ := scan_eligible _ _ hwin
    refine ⟨w, hw, ?_, hdone w hw hle⟩
    show (match (eevdfScan (toInt64 _) ready).1 with | some t => some t | none => _) = _
    rw [hthr, hwin]
  | none =>
    -- the fallback: a thread with the smallest vruntime
    have hsome : (ready.find? fun t => t.vruntime = localMin ready).isSome := by
      rw [List.find?_isSome]
      exact ⟨f, hf, decide_eq_true hlocal.symm⟩
    obtain ⟨w, hfind⟩ := Option.isSome_iff_exists.mp hsome
    have hwv : w.vruntime = localMin ready := by
      have hdec := List.find?_some hfind
      exact of_decide_eq_true hdec
    have hw := mem_of_find?_eq_some hfind
    refine ⟨w, hw, ?_, hdone w hw (by omega)⟩
    show (match (eevdfScan (toInt64 _) ready).1 with | some t => some t | none => _) = _
    rw [hthr, hwin]
    exact hfind

/-- **PICK RULE**: both schedulers find a thread, within `slack` of every vruntime in the list. -/
theorem schedule_spec (sched : FairSched) {m : Int}
    (ht : t ∈ ready) (hroom : t.vruntime + vruntimeScale ≤ int64Max)
    (hm : sched = .eevdf → -2 ^ 63 ≤ m ∧ ∀ u ∈ ready, m ≤ u.vruntime) :
    ∃ s, schedule sched ready m = some s ∧ s.sched = sched ∧ s.threads.Perm ready ∧
      (∀ u ∈ ready, s.current.vruntime ≤ u.vruntime + slack sched) ∧
      (sched = .eevdf → -2 ^ 63 ≤ s.minVruntime ∧ ∀ u ∈ ready, s.minVruntime ≤ u.vruntime) := by
  have hscale : (vruntimeScale : Int) = 1024 := rfl
  cases sched with
  | cfs =>
    obtain ⟨w, hw, hscan, hmin⟩ := cfsScan_spec ht (by omega)
    refine ⟨⟨.cfs, w, ready.erase w, m⟩, ?_, rfl, (perm_cons_erase hw).symm, ?_, nofun⟩
    · show (cfsScan ready).1.map _ = _
      rw [hscan]
      rfl
    · intro u hu
      have := hmin u hu
      show w.vruntime ≤ u.vruntime + 0
      omega
  | eevdf =>
    obtain ⟨hlow, hall⟩ := hm rfl
    obtain ⟨w, hw, hwin, hle, hlow', hmin⟩ := eevdfWinner_spec ht hroom hlow hall
    refine ⟨⟨.eevdf, w, ready.erase w, raiseMin m (localMin ready)⟩, ?_, rfl,
      (perm_cons_erase hw).symm, hle, fun _ => ⟨hlow', hmin⟩⟩
    show (eevdfWinner m ready).map _ = _
    rw [hwin]
    rfl

/-! ## Charges -/

theorem weight_range (t : FairThread) : 0 < t.weight ∧ t.weight ≤ 88761 := by
  have htable : ∀ i, i ≤ 40 → 0 < fairWeight.getD i 0 ∧ fairWeight.getD i 0 ≤ 88761 := by decide
  refine htable (niceIdx t) ?_
  unfold niceIdx
  omega

/-- The smallest weight of the threads; no weight is larger than the start. -/
def smallestWeight (ts : List FairThread) : Nat := ts.foldr (fun t m => min t.weight m) 88761

theorem smallestWeight_pos (ts : List FairThread) : 0 < smallestWeight ts := by
  induction ts with
  | nil => decide
  | cons t ts ih => exact Nat.lt_min.mpr ⟨(weight_range t).1, ih⟩

theorem smallestWeight_le {ts : List FairThread} (ht : t ∈ ts) : smallestWeight ts ≤ t.weight := by
  induction ts with
  | nil => exact nomatch ht
  | cons u ts ih =>
    rcases mem_cons.mp ht with rfl | ht
    · exact Nat.min_le_left ..
    · exact Nat.le_trans (Nat.min_le_right ..) (ih ht)

/-- No charge of a slice is larger than that of a full slice at the smallest weight. -/
theorem charge_le {w w' : Nat} (hticks : ticks ≤ timeSlice) (hw : 0 < w') (hle : w' ≤ w) :
    charge ticks w ≤ charge timeSlice w' := by
  calc ticks * vruntimeScale * 1024 / w ≤ timeSlice * vruntimeScale * 1024 / w :=
        Nat.div_le_div_right (Nat.mul_le_mul_right _ (Nat.mul_le_mul_right _ hticks))
    _ ≤ timeSlice * vruntimeScale * 1024 / w' := Nat.div_le_div_left hle hw

/-- A tick costs something at every weight. -/
theorem one_le_charge (h : 0 < ticks) (t : FairThread) : 1 ≤ charge ticks t.weight := by
  obtain ⟨hpos, hle⟩ := weight_range t
  unfold charge
  rw [Nat.one_le_div_iff hpos]
  unfold vruntimeScale
  omega

/-- The step has room: no `int64_t` overflows. -/
def Roomy (s : FairState) (ticks : Nat) : Prop :=
  s.current.vruntime + charge ticks s.current.weight + vruntimeScale ≤ int64Max
deriving Decidable

theorem fairUpdateVruntime_vruntime (ticks : Nat) (hlow : -2 ^ 63 ≤ t.vruntime)
    (hroom : t.vruntime + charge ticks t.weight ≤ int64Max) :
    (fairUpdateVruntime t ticks).vruntime = t.vruntime + charge ticks t.weight := by
  unfold fairUpdateVruntime
  split
  · rename_i h
    rw [h]
    simp [charge]
  · exact toInt64_of_range (by omega) hroom

theorem fairUpdateVruntime_rest (t : FairThread) (ticks : Nat) :
    (fairUpdateVruntime t ticks).tid = t.tid ∧ (fairUpdateVruntime t ticks).weight = t.weight := by
  unfold fairUpdateVruntime
  split <;> exact ⟨rfl, rfl⟩

/-! ## The invariant -/

/-- The vruntimes stay together: the running thread is within `slack` of every
    other, and no two differ by more than that and one charge `D`. -/
structure Together (D : Nat) (s : FairState) : Prop where
  low : ∀ t ∈ s.threads, -2 ^ 63 ≤ t.vruntime
  weights : ∀ t ∈ s.threads, charge timeSlice t.weight ≤ D
  floor : s.sched = .eevdf → -2 ^ 63 ≤ s.minVruntime ∧
    ∀ t ∈ s.threads, s.minVruntime ≤ t.vruntime
  current : ∀ t ∈ s.threads, s.current.vruntime ≤ t.vruntime + slack s.sched
  spread : ∀ t ∈ s.threads, ∀ u ∈ s.threads, t.vruntime ≤ u.vruntime + slack s.sched + D

/-- One slice: the running thread moves by its charge, another is picked. -/
theorem Together.step (h : Together D s) (hticks : ticks ≤ timeSlice) (hroom : Roomy s ticks) :
    ∃ s', threadYield s ticks = some s' ∧ Together D s' ∧ s'.sched = s.sched ∧
      s'.threads.Perm (s.ready ++ [fairUpdateVruntime s.current ticks]) := by
  have hcur : s.current ∈ s.threads := mem_cons_self ..
  have hscale : (vruntimeScale : Int) = 1024 := rfl
  have hroom' : s.current.vruntime + charge ticks s.current.weight + 1024 ≤ int64Max := hroom
  obtain ⟨-, hweight⟩ := fairUpdateVruntime_rest s.current ticks
  have hv := fairUpdateVruntime_vruntime ticks (h.low _ hcur) (by omega)
  generalize hup : fairUpdateVruntime s.current ticks = c at hv hweight ⊢
  -- every thread of the new list is an old one or the charged one, and none is lower
  have hmem : ∀ t ∈ s.ready ++ [c], t ∈ s.threads ∨ t = c := by
    intro t ht
    rcases mem_append.mp ht with ht | ht
    · exact .inl (mem_cons_of_mem _ ht)
    · exact .inr (mem_singleton.mp ht)
  have hlow : ∀ t ∈ s.ready ++ [c], ∃ u ∈ s.threads, u.vruntime ≤ t.vruntime := by
    intro t ht
    rcases hmem t ht with ht | rfl
    · exact ⟨t, ht, Int.le_refl _⟩
    · exact ⟨s.current, hcur, by omega⟩
  have hcharge : (charge ticks s.current.weight : Int) ≤ D := by
    have h1 := charge_le hticks (weight_range s.current).1 (Nat.le_refl _)
    have h2 := h.weights _ hcur
    omega
  obtain ⟨s', hs', hsched, hperm, hpick, hfloor⟩ := schedule_spec s.sched (m := s.minVruntime)
    (mem_append_right s.ready (mem_singleton.mpr rfl) : c ∈ s.ready ++ [c]) (by omega)
    (fun he => ⟨(h.floor he).1, fun t ht => by
      obtain ⟨u, hu, hut⟩ := hlow t ht
      have := (h.floor he).2 u hu
      omega⟩)
  refine ⟨s', by unfold threadYield; rw [hup]; exact hs', ⟨?_, ?_, ?_, ?_, ?_⟩, hsched, hperm⟩
  · intro t ht
    obtain ⟨u, hu, hut⟩ := hlow t (hperm.mem_iff.mp ht)
    have := h.low u hu
    omega
  · intro t ht
    rcases hmem t (hperm.mem_iff.mp ht) with ht | rfl
    · exact h.weights t ht
    · rw [hweight]
      exact h.weights _ hcur
  · intro he
    obtain ⟨hlow', hall⟩ := hfloor (hsched ▸ he)
    exact ⟨hlow', fun t ht => hall t (hperm.mem_iff.mp ht)⟩
  · intro t ht
    rw [hsched]
    exact hpick t (hperm.mem_iff.mp ht)
  · intro t ht u hu
    rw [hsched]
    obtain ⟨u0, hu0, hu0u⟩ := hlow u (hperm.mem_iff.mp hu)
    rcases hmem t (hperm.mem_iff.mp ht) with ht | rfl
    · have := h.spread t ht u0 hu0
      omega
    · have := h.current u0 hu0
      omega

/-- A start: all vruntimes equal, in the range of `int64_t`, and
    `eevdf_min_vruntime` not above them. -/
structure Start (s : FairState) : Prop where
  equal : ∀ t ∈ s.threads, t.vruntime = s.current.vruntime
  range : -2 ^ 63 ≤ s.current.vruntime
  floor : s.sched = .eevdf → -2 ^ 63 ≤ s.minVruntime ∧ s.minVruntime ≤ s.current.vruntime

/-- The largest charge of one slice. -/
def largestCharge (s : FairState) : Nat := charge timeSlice (smallestWeight s.threads)

/-- How far apart two vruntimes may be. -/
def fairBound (s : FairState) : Nat := slack s.sched + largestCharge s

theorem Start.together (h : Start s) : Together (largestCharge s) s := by
  refine ⟨?_, ?_, ?_, ?_, ?_⟩
  · intro t ht
    rw [h.equal t ht]
    exact h.range
  · intro t ht
    exact charge_le (Nat.le_refl _) (smallestWeight_pos _) (smallestWeight_le ht)
  · intro he
    refine ⟨(h.floor he).1, fun t ht => ?_⟩
    rw [h.equal t ht]
    exact (h.floor he).2
  · intro t ht
    have := h.equal t ht
    omega
  · intro t ht u hu
    have h1 := h.equal t ht
    have h2 := h.equal u hu
    omega

/-! ## Runs -/

/-- What a run keeps: the invariant, the policy and the threads. -/
theorem Together.run (ticks : List Nat) (s : FairState) : Together D s →
    (∀ n ∈ ticks, n ≤ timeSlice) → Guarded threadYield Roomy s ticks →
    ∃ s', exec threadYield s ticks = some s' ∧ Together D s' ∧ s'.sched = s.sched ∧
      (s'.threads.map FairThread.tid).Perm (s.threads.map FairThread.tid) := by
  induction ticks generalizing s with
  | nil => intro h _ _; exact ⟨s, rfl, h, rfl, List.Perm.refl _⟩
  | cons n ticks ih =>
    intro h hticks hG
    obtain ⟨s1, hs1, h1, hsched1, hperm1⟩ := h.step (hticks n (mem_cons_self ..)) hG.1
    obtain ⟨s', hs', h', hsched', hperm'⟩ := ih s1 h1
      (fun m hm => hticks m (mem_cons_of_mem _ hm)) (hG.2 s1 hs1)
    refine ⟨s', ?_, h', hsched'.trans hsched1, hperm'.trans ?_⟩
    · rw [exec_cons_of hs1]
      exact hs'
    · have htid := (fairUpdateVruntime_rest s.current n).1
      refine (hperm1.map FairThread.tid).trans ?_
      rw [map_append, map_singleton, htid]
      exact perm_append_singleton ..

/-! ## No thread is passed over for long -/

/-- The slices that are charged. -/
def charged (ticks : List Nat) : Nat := (ticks.filter fun n => 0 < n).length

/-- The sum of all vruntimes. -/
def totalVruntime (s : FairState) : Int := (s.threads.map FairThread.vruntime).sum

theorem total_step {s' : FairState} (h : Together D s) {n : Nat} (hroom : Roomy s n)
    (hperm : s'.threads.Perm (s.ready ++ [fairUpdateVruntime s.current n])) :
    totalVruntime s' = totalVruntime s + charge n s.current.weight := by
  have hroom' : s.current.vruntime + charge n s.current.weight + 1024 ≤ int64Max := hroom
  have hv := fairUpdateVruntime_vruntime n (h.low _ (mem_cons_self ..)) (by omega)
  unfold totalVruntime
  rw [(hperm.map FairThread.vruntime).sum_eq, map_append, sum_append, map_singleton,
    sum_singleton, hv]
  show _ = (s.current.vruntime + (s.ready.map FairThread.vruntime).sum) + _
  omega

/-- While a thread waits, every charged slice adds to the sum of the others. -/
theorem Together.waiting {u : FairThread} (seg : List Nat) (s : FairState) :
    Together D s → u ∈ s.threads → (∀ n ∈ seg, n ≤ timeSlice) →
    Guarded threadYield Roomy s seg →
    (∀ q s', q <+: seg → exec threadYield s q = some s' → s'.current.tid ≠ u.tid) →
    ∃ s', Together D s' ∧ s'.sched = s.sched ∧ u ∈ s'.threads ∧
      s'.threads.length = s.threads.length ∧
      totalVruntime s + charged seg ≤ totalVruntime s' := by
  induction seg generalizing s with
  | nil =>
    intro h hu _ _ _
    exact ⟨s, h, rfl, hu, rfl, by simp [charged]⟩
  | cons n seg ih =>
    intro h hu hseg hG hwait
    obtain ⟨s1, hs1, h1, hsched1, hperm1⟩ := h.step (hseg n (mem_cons_self ..)) hG.1
    have hready : u ∈ s.ready := by
      rcases mem_cons.mp hu with rfl | hu
      · exact absurd rfl (hwait [] s ( nil_prefix ..) rfl)
      · exact hu
    obtain ⟨s', h', hsched', hu', hlen', htot'⟩ := ih s1 h1
      (hperm1.mem_iff.mpr (mem_append_left _ hready))
      (fun m hm => hseg m (mem_cons_of_mem _ hm)) (hG.2 s1 hs1) (by
        intro q s' hq hs'
        refine hwait (n :: q) s' ?_ ?_
        · exact cons_prefix_cons.mpr ⟨rfl, hq⟩
        · rw [exec_cons_of hs1]
          exact hs')
    refine ⟨s', h', hsched'.trans hsched1, hu', hlen'.trans ?_, ?_⟩
    · rw [hperm1.length_eq, length_append]
      rfl
    have htot := total_step h hG.1 hperm1
    have hcount : charged (n :: seg) ≤ charge n s.current.weight + charged seg := by
      unfold charged
      by_cases hn : 0 < n
      · rw [filter_cons_of_pos (by simpa using hn), length_cons]
        have := one_le_charge hn s.current
        omega
      · rw [filter_cons_of_neg (by simpa using hn)]
        omega
    omega

theorem sum_bounds {l : List FairThread} {a b : Int}
    (h : ∀ t ∈ l, a ≤ t.vruntime ∧ t.vruntime ≤ b) :
    l.length * a ≤ (l.map FairThread.vruntime).sum ∧
      (l.map FairThread.vruntime).sum ≤ l.length * b := by
  induction l with
  | nil => simp
  | cons t l ih =>
    obtain ⟨h1, h2⟩ := h t (mem_cons_self ..)
    obtain ⟨h3, h4⟩ := ih fun u hu => h u (mem_cons_of_mem _ hu)
    rw [map_cons, sum_cons, length_cons]
    push_cast
    constructor <;> linarith

/-- A thread that waits has all vruntimes near its own, before and after. -/
theorem Together.total_bounds (h : Together D s) {u : FairThread} (hu : u ∈ s.threads) :
    s.threads.length * (u.vruntime - (slack s.sched + D : Nat)) ≤ totalVruntime s ∧
      totalVruntime s ≤ s.threads.length * (u.vruntime + (slack s.sched + D : Nat)) := by
  refine sum_bounds ?_
  intro t ht
  have h1 := h.spread t ht u hu
  have h2 := h.spread u hu t ht
  constructor <;> omega

/-! ## The bound -/

/-- **FAIR SHARE**: in every run of slices that fit the range of `int64_t`, the
    scheduler always finds a thread, no two vruntimes differ by more than the
    bound, and a thread can be passed over only for so many charged slices. -/
theorem fair_share (s0 : FairState) (hstart : Start s0) (ticks : List Nat)
    (hticks : ∀ n ∈ ticks, n ≤ timeSlice) (hroom : Guarded threadYield Roomy s0 ticks) :
    ∃ s, exec threadYield s0 ticks = some s ∧
      (∀ t ∈ s.threads, ∀ u ∈ s.threads, t.vruntime - u.vruntime ≤ fairBound s0) ∧
      ∀ pre seg u, ticks = pre ++ seg → u ∈ s0.threads.map FairThread.tid →
        (∀ q s', q <+: seg → exec threadYield s0 (pre ++ q) = some s' → s'.current.tid ≠ u) →
        charged seg ≤ 2 * fairBound s0 * s0.threads.length := by
  obtain ⟨s, hs, h, hsched, -⟩ := hstart.together.run ticks s0 hticks hroom
  refine ⟨s, hs, ?_, ?_⟩
  · intro t ht u hu
    have hspread := h.spread t ht u hu
    rw [hsched] at hspread
    show t.vruntime - u.vruntime ≤ ((slack s0.sched + largestCharge s0 : Nat) : Int)
    omega
  rintro pre seg u rfl hu hwait
  -- the state in which the waiting begins
  obtain ⟨s1, hs1, h1, hsched1, htids⟩ := hstart.together.run pre s0
    (fun n hn => hticks n (List.mem_append_left _ hn)) (guarded_append_left pre seg s0 hroom)
  obtain ⟨t, ht, rfl⟩ := List.mem_map.mp (htids.mem_iff.mpr hu)
  obtain ⟨s2, h2, hsched2, ht2, hlen, htotal⟩ := h1.waiting seg s1 ht
    (fun n hn => hticks n (List.mem_append_right _ hn))
    (guarded_append_right pre seg s0 s1 hroom hs1)
    (fun q s' hq hs' => hwait q s' hq (exec_append.mpr ⟨s1, hs1, hs'⟩))
  have hlow := (h1.total_bounds ht).1
  have hhigh := (h2.total_bounds ht2).2
  have hlen1 : s1.threads.length = s0.threads.length := by
    have := htids.length_eq
    rwa [List.length_map, List.length_map] at this
  rw [hlen, hsched2] at hhigh
  rw [hsched1, hlen1] at hlow hhigh
  have hbound : (charged seg : Int) ≤ 2 * fairBound s0 * s0.threads.length := by
    have hb : (fairBound s0 : Int) = (slack s0.sched + largestCharge s0 : Nat) := rfl
    nlinarith
  exact_mod_cast hbound

/-- Two threads of nice 0 under CFS. -/
def twoThreads : FairState := ⟨.cfs, ⟨1, 0, 0, 4096⟩, [⟨2, 0, 0, 4096⟩], 0⟩

theorem twoThreads_start : Start twoThreads :=
  ⟨by decide, by decide, nofun⟩

theorem fair_share_twoThreads :
    ∃ s, exec threadYield twoThreads [4, 4, 1] = some s ∧
      (∀ t ∈ s.threads, ∀ u ∈ s.threads, t.vruntime - u.vruntime ≤ 4096) := by
  have hroom : Guarded threadYield Roomy twoThreads [4, 4, 1] := by
    refine ⟨by decide, fun s1 h1 => ?_⟩
    rw [← Option.some.inj h1]
    refine ⟨by decide, fun s2 h2 => ?_⟩
    rw [← Option.some.inj h2]
    exact ⟨by decide, fun _ _ => trivial⟩
  obtain ⟨s, hs, hbound, -⟩ :=
    fair_share twoThreads twoThreads_start [4, 4, 1] (by decide) hroom
  exact ⟨s, hs, hbound⟩

/-- The state after the first thread has been charged one tick. -/
def secondRuns : FairState := ⟨.cfs, ⟨2, 0, 0, 4096⟩, [⟨1, 0, 1024, 5120⟩], 0⟩

/-- Slices that end within a tick charge nothing, so that the thread that makes
    them is picked again and again. -/
theorem uncharged_slices_starve :
    Start twoThreads ∧ ∀ n, ∃ s, exec threadYield twoThreads (1 :: List.replicate n 0) = some s ∧
      s.current.tid ≠ 1 := by
  refine ⟨twoThreads_start, fun n => ⟨secondRuns, ?_, by decide⟩⟩
  induction n with
  | zero => rfl
  | succ n ih =>
    exact ih

end MavFair
