import Maverick.FairProofs

/-! # Newcomers under the fair schedulers — the vruntime a thread starts with

`init_thread` starts every thread at `eevdf_min_vruntime`. The name is right: only
`thread_schedule_eevdf` ever raises it.

Under EEVDF that is enough. Each schedule raises the minimum to the smallest vruntime of the ready
list, the thread that holds it stays ready or runs, and until the next schedule nobody leaves:
`joins_eevdf` holds also where an `int64_t` wraps. Under CFS the minimum stays 0 for ever, so that
a newcomer joins at time 0 however far the others have come (`newcomer_behind`). -/

namespace MavNewcomer

open MavRun MavFair List Option

/-! ## Threads that block, wake, exit and create others -/

/-- The fair scheduler's view of the system. `running` is `none` while the idle
    thread runs, which is in no list and creates no thread. -/
structure Threads where
  sched : FairSched
  running : Option FairThread
  ready : List FairThread
  blocked : List FairThread
  minVruntime : Int
  deriving DecidableEq, Repr

/-- The threads that are ready or running. -/
def Threads.active (s : Threads) : List FairThread := s.running.toList ++ s.ready

/-- `thread_init` and `thread_start`: the initial thread runs. -/
def boot (sched : FairSched) : Threads :=
  { sched := sched
    running := some ⟨1, 0, 0, charge timeSlice 1024⟩
    ready := []
    blocked := []
    minVruntime := 0 }

/-- `init_thread`: the fields the fair schedulers read. -/
def initThread (s : Threads) (tid : Nat) : FairThread :=
  { tid := tid
    niceFair := 0
    vruntime := s.minVruntime
    deadline := toInt64 (s.minVruntime + charge timeSlice 1024) }

/-- `next_thread_to_run`, after the running thread has left the CPU: the idle
    thread when nobody is ready. -/
def nextThreadToRun (s : Threads) (ready blocked : List FairThread) : Option Threads :=
  if ready = [] then some { s with running := none, ready := [], blocked := blocked }
  else (schedule s.sched ready s.minVruntime).map fun f =>
    { s with running := some f.current, ready := f.ready, blocked := blocked,
             minVruntime := f.minVruntime }

/-- What threads and interrupts do to the scheduler. -/
inductive ThreadOp where
  | yield (ticks : Nat)
  | block (ticks : Nat)
  | exit
  | unblock (tid : Nat)
  | create (tid : Nat)
  deriving DecidableEq, Repr

/-- One operation; `none` where it cannot be called or an `ASSERT` fails. -/
def threadStep (s : Threads) : ThreadOp → Option Threads
  | .yield ticks =>
    match s.running with
    | none => nextThreadToRun s s.ready s.blocked
    | some cur => nextThreadToRun s (s.ready ++ [fairUpdateVruntime cur ticks]) s.blocked
  | .block ticks =>
    match s.running with
    -- the idle thread blocks in its loop, and is on no list while it does
    | none => nextThreadToRun s s.ready s.blocked
    | some cur => nextThreadToRun s s.ready (fairUpdateVruntime cur ticks :: s.blocked)
  | .exit =>
    match s.running with
    | none => none
    | some _ => nextThreadToRun s s.ready s.blocked
  | .unblock tid =>
    match s.blocked.find? fun t => t.tid = tid with
    | none => none
    | some t => some { s with ready := s.ready ++ [t], blocked := s.blocked.erase t }
  | .create tid =>
    match s.running with
    | none => none
    | some _ => some { s with ready := s.ready ++ [initThread s tid] }

/-- The smallest vruntime among the threads that are ready or running. -/
def Threads.smallest (s : Threads) : Option Int := (s.active.map FairThread.vruntime).min?

/-- A thread created now would not start behind everybody else. -/
def Joins (s : Threads) : Prop :=
  ∀ m, s.smallest = some m → ∀ tid, m ≤ (initThread s tid).vruntime

instance (s : Threads) : Decidable (Joins s) :=
  match h : s.smallest with
  | none => isTrue fun _ hm => nomatch h.symm.trans hm
  | some m => decidable_of_iff (m ≤ s.minVruntime)
      ⟨fun hle _ hm _ => Option.some.inj (h.symm.trans hm) ▸ hle, fun hj => hj m h 0⟩

/-! ## What a schedule does to the minimum -/

theorem toInt64_le (x : Int) : toInt64 x ≤ int64Max := by
  have h := @Int.bmod_lt x (2 ^ 64) (by decide)
  unfold toInt64 int64Max
  omega

theorem fairUpdateVruntime_le {t : FairThread} (ticks : Nat) (h : t.vruntime ≤ int64Max) :
    (fairUpdateVruntime t ticks).vruntime ≤ int64Max := by
  unfold fairUpdateVruntime
  split
  · exact h
  · exact toInt64_le _

variable {ready : List FairThread} {s : Threads}

/-- The first pass of `thread_schedule_eevdf` ends at a vruntime of the list,
    also when every one of them is `INT64_MAX`. -/
theorem localMin_attained (hne : ready ≠ []) (hle : ∀ t ∈ ready, t.vruntime ≤ int64Max) :
    ∃ f ∈ ready, f.vruntime ≤ localMin ready := by
  obtain ⟨t, ht⟩ := exists_mem_of_ne_nil _ hne
  by_cases hlt : t.vruntime < int64Max
  · obtain ⟨w, hw, hscan, -⟩ := cfsScan_spec ht hlt
    exact ⟨w, hw, (congrArg Prod.snd hscan).ge⟩
  · obtain ⟨-, hr | ⟨w, hw, -, hr⟩⟩ :=
      scan_loop (fun _ => True) FairThread.vruntime ready (none, int64Max)
    · exact ⟨t, ht, (hle t ht).trans (congrArg Prod.snd hr).ge⟩
    · exact ⟨w, hw, (congrArg Prod.snd hr).ge⟩

theorem le_raiseMin (m l : Int) : l ≤ raiseMin m l := by
  unfold raiseMin
  split <;> omega

theorem raiseMin_le {m l b : Int} (hm : m ≤ b) (hl : l ≤ b) : raiseMin m l ≤ b := by
  unfold raiseMin
  split <;> assumption

theorem localMin_le_int64Max (ready : List FairThread) : localMin ready ≤ int64Max :=
  (scan_loop (fun _ => True) FairThread.vruntime ready (none, int64Max)).1.1

theorem mem_of_eevdfWinner {m : Int} {w : FairThread}
    (h : eevdfWinner m ready = some w) : w ∈ ready := by
  simp only [eevdfWinner] at h
  split at h
  · rename_i t hscan
    rw [← some.inj h]
    exact (scan_eligible _ _ hscan).1
  · exact mem_of_find?_eq_some h

/-- A schedule keeps the threads of the list, ready or running. -/
theorem schedule_threads {sched : FairSched} {m : Int} {f : FairState}
    (h : schedule sched ready m = some f) :
    f.threads.Perm ready ∧ (sched = .cfs → f.minVruntime = m) ∧
      (sched = .eevdf → f.minVruntime = raiseMin m (localMin ready)) := by
  cases sched with
  | cfs =>
    obtain ⟨w, hw, rfl⟩ := map_eq_some_iff.mp h
    exact ⟨(perm_cons_erase (scan_eligible _ _ hw).1).symm, fun _ => rfl, nofun⟩
  | eevdf =>
    obtain ⟨w, hw, rfl⟩ := map_eq_some_iff.mp h
    exact ⟨(perm_cons_erase (mem_of_eevdfWinner hw)).symm, nofun, fun _ => rfl⟩

/-! ## Runs -/

/-- What holds in every state of a run: vruntimes fit an `int64_t`; under CFS the
    minimum is still 0, under EEVDF a thread that is ready or running is at most
    at the minimum whenever somebody runs. -/
structure Timely (s : Threads) : Prop where
  fits : ∀ t ∈ s.active ++ s.blocked, t.vruntime ≤ int64Max
  min : s.minVruntime ≤ int64Max
  cfs : s.sched = .cfs → s.minVruntime = 0
  eevdf : s.sched = .eevdf → s.running ≠ none → ∃ t ∈ s.active, t.vruntime ≤ s.minVruntime

theorem boot_timely (sched : FairSched) : Timely (boot sched) := by
  have hzero : (0 : Int) ≤ int64Max := by unfold int64Max; decide
  refine ⟨?_, hzero, fun _ => rfl, fun _ _ => ⟨_, mem_cons_self .., ?_⟩⟩
  · intro t ht
    obtain rfl : t = _ := mem_singleton.mp ht
    exact hzero
  · exact Int.le_refl _

/-- Leaving the CPU, to any of the lists. -/
theorem Timely.next {s' : Threads} (h : Timely s) {blocked : List FairThread}
    (hfits : ∀ t ∈ ready ++ blocked, t.vruntime ≤ int64Max)
    (hs : nextThreadToRun s ready blocked = some s') : Timely s' ∧ s'.sched = s.sched := by
  unfold nextThreadToRun at hs
  split at hs
  · rw [← some.inj hs]
    refine ⟨⟨?_, h.min, h.cfs, fun _ hne => absurd rfl hne⟩, rfl⟩
    intro t ht
    exact hfits t (mem_append_right _ ht)
  rename_i hne
  obtain ⟨f, hf, rfl⟩ := map_eq_some_iff.mp hs
  obtain ⟨hperm, hcfs, heevdf⟩ := schedule_threads hf
  have hready : ∀ t ∈ ready, t.vruntime ≤ int64Max :=
    fun t ht => hfits t (mem_append_left _ ht)
  refine ⟨⟨?_, ?_, ?_, ?_⟩, rfl⟩
  · intro t ht
    refine hfits t ?_
    rcases mem_append.mp ht with ht | ht
    · exact mem_append_left _ (hperm.mem_iff.mp ht)
    · exact mem_append_right _ ht
  · cases hsched : s.sched with
    | cfs =>
      rw [hcfs hsched]
      exact h.min
    | eevdf =>
      rw [heevdf hsched]
      exact raiseMin_le h.min (localMin_le_int64Max ready)
  · intro hsched
    rw [hcfs hsched]
    exact h.cfs hsched
  · intro hsched _
    have hsched : s.sched = .eevdf := hsched
    -- the thread at the smallest vruntime is still there: it runs, or is ready
    obtain ⟨t, ht, hle⟩ := localMin_attained hne hready
    refine ⟨t, hperm.mem_iff.mpr ht, ?_⟩
    rw [heevdf hsched]
    exact hle.trans (le_raiseMin _ _)

/-- One more thread in the ready list. -/
theorem Timely.enqueue (h : Timely s) {t : FairThread} (ht : t.vruntime ≤ int64Max)
    {blocked : List FairThread} (hsub : ∀ u ∈ blocked, u ∈ s.blocked) :
    Timely { s with ready := s.ready ++ [t], blocked := blocked } := by
  have hactive : Threads.active { s with ready := s.ready ++ [t], blocked := blocked } =
      s.active ++ [t] := (append_assoc ..).symm
  refine ⟨?_, h.min, h.cfs, ?_⟩
  · obtain ⟨hfits, hblocked⟩ := forall_mem_append.mp h.fits
    rw [hactive]
    exact forall_mem_append.mpr ⟨forall_mem_append.mpr ⟨hfits, forall_mem_singleton.mpr ht⟩,
      fun u hu => hblocked u (hsub u hu)⟩
  · intro hsched hne
    obtain ⟨u, hu, hle⟩ := h.eevdf hsched hne
    rw [hactive]
    exact ⟨u, mem_append_left _ hu, hle⟩

/-- **STEP**: every operation keeps the invariant. -/
theorem Timely.step {s' : Threads} (h : Timely s) {op : ThreadOp}
    (hs : threadStep s op = some s') : Timely s' ∧ s'.sched = s.sched := by
  have hready : ∀ t ∈ s.ready, t.vruntime ≤ int64Max := fun t ht =>
    h.fits t (mem_append_left _ (mem_append_right _ ht))
  have hblocked : ∀ t ∈ s.blocked, t.vruntime ≤ int64Max := fun t ht =>
    h.fits t (mem_append_right _ ht)
  have hcur : ∀ {cur}, s.running = some cur → cur.vruntime ≤ int64Max := by
    intro cur hr
    refine h.fits cur (mem_append_left _ (mem_append_left _ ?_))
    rw [hr]
    exact mem_singleton.mpr rfl
  have hlists : ∀ t ∈ s.ready ++ s.blocked, t.vruntime ≤ int64Max := by
    intro t ht
    exact (mem_append.mp ht).elim (hready t) (hblocked t)
  cases op <;> simp only [threadStep] at hs
  case yield ticks =>
    split at hs
    · exact h.next hlists hs
    · next cur hr =>
        refine h.next ?_ hs
        exact forall_mem_append.mpr ⟨forall_mem_append.mpr ⟨hready,
          forall_mem_singleton.mpr (fairUpdateVruntime_le ticks (hcur hr))⟩, hblocked⟩
  case block ticks =>
    split at hs
    · exact h.next hlists hs
    · next cur hr =>
        refine h.next ?_ hs
        exact forall_mem_append.mpr ⟨hready, forall_mem_cons.mpr
          ⟨fairUpdateVruntime_le ticks (hcur hr), hblocked⟩⟩
  case exit =>
    split at hs
    · exact nomatch hs
    · exact h.next hlists hs
  case unblock tid =>
    split at hs
    · exact nomatch hs
    · next t hf =>
        rw [← some.inj hs]
        exact ⟨h.enqueue (hblocked t (mem_of_find?_eq_some hf)) fun u hu => mem_of_mem_erase hu, rfl⟩
  case create tid =>
    split at hs
    · exact nomatch hs
    · rw [← some.inj hs]
      exact ⟨h.enqueue (t := initThread s tid) h.min fun u hu => hu, rfl⟩

/-- **RUN**: every state of every run is timely. -/
theorem run_timely {sched : FairSched} {ops : List ThreadOp}
    (h : exec threadStep (boot sched) ops = some s) : Timely s ∧ s.sched = sched := by
  refine exec_inv_all (I := fun s => Timely s ∧ s.sched = sched) ?_ ⟨boot_timely sched, rfl⟩ h
  rintro s op s' ⟨ht, hsched⟩ hs
  obtain ⟨ht', hsched'⟩ := ht.step hs
  exact ⟨ht', hsched'.trans hsched⟩

/-- Being above the smallest vruntime is being above some vruntime. -/
theorem joins_iff (hne : s.active ≠ []) : Joins s ↔ ∃ t ∈ s.active, t.vruntime ≤ s.minVruntime := by
  constructor
  · intro hj
    have hmap : s.active.map FairThread.vruntime ≠ [] := fun hnil => hne (map_eq_nil_iff.mp hnil)
    obtain ⟨m, hm⟩ := isSome_iff_exists.mp (isSome_min?_of_ne_nil hmap)
    obtain ⟨t, ht, rfl⟩ := mem_map.mp (List.min?_mem hm)
    exact ⟨t, ht, hj _ hm 0⟩
  · rintro ⟨t, ht, hle⟩ m hm tid
    have hmin := (List.min?_eq_some_iff.mp hm).2 t.vruntime (mem_map.mpr ⟨t, ht, rfl⟩)
    exact hmin.trans hle

/-- **NEWCOMERS**: after every run of the fair schedulers, a thread the running
    one creates joins at the current virtual time exactly when the scheduler is
    EEVDF, or some thread that is ready or running has not been charged beyond
    0. -/
theorem newcomers_join (sched : FairSched) (ops : List ThreadOp) (s : Threads)
    (hrun : exec threadStep (boot sched) ops = some s) (hcur : s.running ≠ none) :
    Joins s ↔ sched = .eevdf ∨ ∃ t ∈ s.active, t.vruntime ≤ 0 := by
  obtain ⟨ht, hsched⟩ := run_timely hrun
  have hne : s.active ≠ [] := by
    obtain ⟨cur, hr⟩ := Option.ne_none_iff_exists'.mp hcur
    unfold Threads.active
    rw [hr]
    exact List.cons_ne_nil _ _
  rw [joins_iff hne]
  cases sched with
  | eevdf => exact ⟨fun _ => Or.inl rfl, fun _ => ht.eevdf hsched hcur⟩
  | cfs =>
    rw [ht.cfs hsched]
    exact ⟨Or.inr, fun h => h.resolve_left nofun⟩

/-- Under EEVDF the initial thread has used a slice and creates another. -/
theorem newcomers_join_eevdf :
    ∃ s, exec threadStep (boot .eevdf) [.yield 4, .create 2, .yield 4] = some s ∧ Joins s := by
  refine ⟨_, rfl, (newcomers_join .eevdf [.yield 4, .create 2, .yield 4] _ rfl ?_).mpr (Or.inl rfl)⟩
  decide

/-- **NEWCOMER BEHIND**: under CFS the initial thread uses one slice, and the
    thread it then creates starts a whole slice before it. -/
theorem newcomer_behind :
    ∃ s, exec threadStep (boot .cfs) [.yield 4] = some s ∧ s.running ≠ none ∧
      s.smallest = some 4096 ∧ (initThread s 2).vruntime = 0 ∧ ¬ Joins s := by
  refine ⟨_, rfl, ?_⟩
  decide

end MavNewcomer
