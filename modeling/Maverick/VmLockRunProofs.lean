import Maverick.VmLockRuleProofs

/-! # The locks of the virtual memory — where their order breaks

The order the code means to keep is `mmap_lock`, `frame_lock`, `spt_lock`, `swap_lock`:
`frame_evict` holds `frame_lock` and takes the `spt_lock` of the victim's owner. Three places go
the other way. `spt_clone` and `spt_destroy` call the frame table with an `spt_lock` in hand
(`frame_pin`, `frame_share`, `frame_unpin`, `frame_free`), and so does the clean-up of `mmap_create`
and `mmap_create_anon` through `spt_remove`. A fork or an exit of a process whose page is the
victim of an eviction at the same time leaves both threads waiting for each other.

Everything else is in order, and that is proved here for every run: each function is checked against
the rules once (`*_takes`), so no thread ever asks for a lock it holds, and every deadlocked set
contains an eviction that waits for an `spt_lock` held by one of the three. -/

namespace MavVmLock

open MavLock MavRun List
open Function (update update_self update_of_ne)
open MavVm (Vm)

variable {m m' : Machine} {t : Nat × Nat} {p : Nat}

/-! ## Every run observes the rules -/

theorem boot_sound (s : Vm) : Sound rules (boot s) := by
  refine ⟨fun t _ _ => rfl, fun l t => ?_, fun t => nodup_nil, fun l t h => ?_⟩
  · exact ⟨nofun, fun h => absurd h not_mem_nil⟩
  · exact absurd h not_mem_nil

theorem step_sound {i : Label} (h : Sound rules m) (hs : step m i = some m') : Sound rules m' := by
  cases i with
  | start t r =>
    obtain ⟨m1, hm, rfl⟩ := Option.map_eq_some_iff.mp (Option.ite_none_right_eq_some.mp hs).2
    refine (h.start (program_takes t.1 r) hm).disturb fun l => ?_
    cases l with
    | spt p => exact fun u hu => hu
    | frame | mmap p | swap => exact trivial
  | run t => exact h.step (fun q H hH => cleanupTurn_takes hH q) hs

/-- The order of the locks, but for the walks. -/
def rank : Lock → Nat
  | .mmap _ => 0
  | .frame => 1
  | .spt _ => 2
  | .swap => 3

theorem rank_le (l : Lock) : rank l ≤ 3 := by
  cases l <;> simp [rank]

/-- Against the order of the locks, only a walk asks, for `frame_lock`. -/
theorem walk_of_may {h g : Grip} (hm : may h g = true) (hle : rank g.1 ≤ rank h.1) :
    (∃ q, h.1 = .spt q) ∧ g.1 = .frame ∧ walks h.2 = true := by
  obtain ⟨l, c⟩ := h
  obtain ⟨l', c'⟩ := g
  cases l with
  | spt q =>
    cases l' with
    | frame => exact ⟨⟨q, rfl⟩, rfl, hm⟩
    | _ => simp [may, rank] at hm hle
  | _ => cases l' <;> simp [may, rank] at hm hle

/-- Under `frame_lock`, below the swap table, only an eviction asks. -/
theorem victim_of_may {c : Site} {g : Grip} (hm : may (.frame, c) g = true) (hle : rank g.1 ≤ 2) :
    ∃ p, g = (.spt p, .frameEvict) := by
  obtain ⟨l, c'⟩ := g
  cases l with
  | spt p => exact ⟨p, congrArg (Prod.mk _) (of_decide_eq_true hm)⟩
  | _ => simp [may, rank] at hm hle

/-- An eviction waits for the `spt_lock` of its victim's owner, and a function
    that calls the frame table under that lock holds it. -/
structure Clash (m : Machine) (p : Nat) (e f : Nat × Nat) : Prop where
  waits : e ∈ m.waiters (.spt p)
  asks : ∃ k, (m.thread e).code = .acquire (.spt p) .frameEvict k
  held : m.holder (.spt p) = some f
  walks : ∃ c, (.spt p, c) ∈ (m.thread f).grips ∧ walks c = true

/-- **EVERY DEADLOCK IS A CLASH**: whatever the set of threads, one of them is an
    eviction that waits for a walk. -/
theorem clash_of_deadlocked (h : Sound rules m) {D : Nat × Nat → Prop} (hD : Deadlocked m D) :
    ∃ p e f, D e ∧ D f ∧ Clash m p e f := by
  obtain ⟨l, t1, hl, hD1, hmax⟩ := h.highest hD rank 3 rank_le
  obtain ⟨c1, l2, c2, t2, _, hmay, _, hw1, hh2, hD2⟩ := h.link hD hD1 hl
  have hle := hmax t1 l2 hD1 hw1
  -- going up from the highest lock is impossible: it is an `spt_lock`, and `frame_lock` is next
  obtain ⟨⟨q, hspt⟩, hframe, -⟩ := walk_of_may hmay hle
  obtain rfl : l = .spt q := hspt
  obtain rfl : l2 = .frame := hframe
  obtain ⟨c3, l4, c4, t3, _, hmay', hcode, hw2, hh3, hD3⟩ := h.link hD hD2 hh2
  have hle' := hmax t2 l4 hD2 hw2
  obtain ⟨p, hvictim⟩ := victim_of_may hmay' hle'
  obtain ⟨rfl, rfl⟩ := Prod.mk.inj hvictim
  obtain ⟨c5, l6, c6, t4, hg, hmay'', _, hw3, _, _⟩ := h.link hD hD3 hh3
  have hle'' := hmax t3 l6 hD3 hw3
  exact ⟨p, t2, t3, hD2, hD3, hw2, hcode, hh3, c5, hg, (walk_of_may hmay'' hle'').2.2⟩

/-! ## Runs in which eviction and the walks keep apart -/

/-- The `spt_lock` that the next step asks for, and the function that asks. -/
def asksSpt : Code Unit → Option (Nat × Site)
  | .acquire (.spt p) c _ => some (p, c)
  | _ => none

/-- No walk holds the `spt_lock` of `p`. -/
def Unwalked (m : Machine) (p : Nat) : Prop :=
  ∀ f ∈ m.holder (.spt p), ∀ g ∈ (m.thread f).grips, g.1 = .spt p → walks g.2 = false
deriving Decidable

/-- No eviction waits for the `spt_lock` of `p`. -/
def Unclaimed (m : Machine) (p : Nat) : Prop :=
  ∀ e ∈ m.waiters (.spt p), ∀ r ∈ asksSpt (m.thread e).code, r.2 ≠ .frameEvict
deriving Decidable

/-- When `frame_evict` asks for the `spt_lock` of its victim's owner, no walk holds it; and when a
    walk asks for an `spt_lock`, no `frame_evict` waits for it. -/
def Calm (m : Machine) : Label → Prop
  | .start _ _ => True
  | .run t => ∀ r ∈ asksSpt (m.thread t).code,
      (r.2 = .frameEvict → Unwalked m r.1) ∧ (walks r.2 = true → Unclaimed m r.1)

instance (m : Machine) (i : Label) : Decidable (Calm m i) := by
  cases i <;> unfold Calm <;> infer_instance

variable {e f : Nat × Nat} {k : Code Unit} {l : Lock}

/-- A clash that was there before, when its two threads did not move. -/
theorem Clash.before (h : Clash m' p e f) (hw : e ∈ m'.waiters (.spt p) → e ∈ m.waiters (.spt p))
    (hh : m'.holder (.spt p) = m.holder (.spt p))
    (hc : (m'.thread e).code = (m.thread e).code)
    (hg : ∀ c, (.spt p, c) ∈ (m'.thread f).grips → (.spt p, c) ∈ (m.thread f).grips) :
    Clash m p e f := by
  obtain ⟨c, hcg, hwalk⟩ := h.walks
  exact ⟨hw h.waits, hc ▸ h.asks, hh ▸ h.held, c, hg c hcg, hwalk⟩

/-- A thread that is not asking for the `spt_lock` is not the eviction. -/
theorem ne_of_waits (h : Sound rules m) (he : e ∈ m.waiters (.spt p))
    (ht : ∀ c k, (m.thread t).code ≠ .acquire (.spt p) c k) : e ≠ t := by
  rintro rfl
  obtain ⟨c, k, hc⟩ := h.waits _ e he
  exact ht c k hc

theorem grips_update {m : Machine} {code : Code Unit} {g : Grip} {H : List Grip}
    (hH : g ∈ H → g ∈ (m.thread t).grips) (h : g ∈ (update m.thread t ⟨code, H⟩ f).grips) :
    g ∈ (m.thread f).grips := by
  by_cases hf : f = t
  · rw [hf, update_self] at h
    rw [hf]
    exact hH h
  · rw [update_of_ne hf] at h
    exact h

theorem code_update {m : Machine} {x : Thread Vm Lock Site Cleanup} (he : e ≠ t) :
    (update m.thread t x e).code = (m.thread e).code := by
  rw [update_of_ne he]

/-- A thread that neither asks for the `spt_lock` nor changes its grips. -/
theorem clash_still (h : Sound rules m) (ht : ∀ c k, (m.thread t).code ≠ .acquire (.spt p) c k)
    {d : Vm} (hclash : Clash { m with
      data := d
      thread := update m.thread t ⟨k, (m.thread t).grips⟩ } p e f) : Clash m p e f :=
  hclash.before id rfl (code_update (ne_of_waits h hclash.waits ht)) fun _ hg => grips_update id hg

/-- A lock that is taken clashes only when an eviction was waiting for it. -/
theorem clash_take (h : Sound rules m) {c : Site}
    (hc : (m.thread t).code = .acquire l c k) (hl : m.holder l = none)
    (hcalm : Calm m (.run t)) (hclash : Clash { m with
      holder := update m.holder l (some t)
      waiters := update m.waiters l ((m.waiters l).filter (· ≠ t))
      thread := update m.thread t ⟨k, (l, c) :: (m.thread t).grips⟩ } p e f) :
    Clash m p e f := by
  by_cases hlp : l = .spt p
  · subst hlp
    exfalso
    obtain ⟨c', hg, hwalk⟩ := hclash.walks
    obtain ⟨k', hcode⟩ := hclash.asks
    have hw := hclash.waits
    have hheld := hclash.held
    simp only [update_self, mem_filter, decide_eq_true_eq, Option.some.injEq] at hw hheld
    subst hheld
    simp only [update_self] at hg
    simp only [update_of_ne hw.2] at hcode
    -- nobody held the lock, so the grip that walks is the one just taken
    have hcc : c' = c := by
      rcases mem_cons.mp hg with hg | hg
      · exact (Prod.mk.inj hg).2
      · have := (h.held (.spt p) t).mpr (mem_map_of_mem hg)
        rw [hl] at this
        exact nomatch this
    have hask : asksSpt (m.thread t).code = some (p, c) := by rw [hc]; rfl
    refine (hcalm (p, c) hask).2 (hcc ▸ hwalk) e hw.1 (p, .frameEvict) ?_ rfl
    rw [hcode]
    rfl
  · have hlp' : (.spt p : Lock) ≠ l := fun he => hlp he.symm
    have hw : e ∈ m.waiters (.spt p) := by
      have := hclash.waits
      simp only [update_of_ne hlp'] at this
      exact this
    have het : e ≠ t := ne_of_waits h hw fun c' k' hk => by
      rw [hc] at hk
      cases hk
      exact hlp rfl
    refine hclash.before (fun _ => hw) (update_of_ne hlp' ..) (code_update het) fun c' hg => ?_
    exact grips_update (fun hg => (mem_cons.mp hg).resolve_left fun e => hlp' (Prod.mk.inj e).1) hg

/-- A thread that starts to wait clashes only when it is an eviction and a walk holds the lock. -/
theorem clash_wait {c : Site} (hc : (m.thread t).code = .acquire l c k) (hcalm : Calm m (.run t))
    (hclash : Clash { m with waiters := update m.waiters l (m.waiters l ++ [t]) } p e f) :
    Clash m p e f := by
  by_cases hlp : l = .spt p
  · subst hlp
    have hw := hclash.waits
    simp only [update_self, mem_append, mem_singleton] at hw
    rcases hw with hw | rfl
    · exact hclash.before (fun _ => hw) rfl rfl fun _ hg => hg
    exfalso
    obtain ⟨k', hcode⟩ := hclash.asks
    obtain ⟨c', hg, hwalk⟩ := hclash.walks
    have hask : asksSpt (m.thread e).code = some (p, .frameEvict) := by
      rw [show (m.thread e).code = _ from hcode]
      rfl
    have := (hcalm (p, .frameEvict) hask).1 rfl f hclash.held _ hg rfl
    rw [hwalk] at this
    exact nomatch this
  · refine hclash.before (fun hw => ?_) rfl rfl fun _ hg => hg
    simp only [update_of_ne fun he : Lock.spt p = l => hlp he.symm] at hw
    exact hw

theorem clash_give (h : Sound rules m)
    (hc : (m.thread t).code = .release l k) (hclash : Clash { m with
      holder := update m.holder l none
      thread := update m.thread t ⟨k, (m.thread t).grips.eraseP (·.1 = l)⟩ } p e f) :
    Clash m p e f := by
  have hlp : (.spt p : Lock) ≠ l := by
    intro he
    have := hclash.held
    simp only [he, update_self] at this
    exact nomatch this
  have het : e ≠ t := ne_of_waits h hclash.waits fun _ _ hk =>
    nomatch hc.symm.trans hk
  exact hclash.before id (update_of_ne hlp ..) (code_update het) fun _ hg =>
    grips_update mem_of_mem_eraseP hg

/-- A calm step makes no clash. -/
theorem clash_step {i : Label} (h : Sound rules m) (hcalm : Calm m i) (hs : step m i = some m')
    (hclash : Clash m' p e f) : Clash m p e f := by
  cases i with
  | start t r =>
    obtain ⟨m1, hm, rfl⟩ := Option.map_eq_some_iff.mp (Option.ite_none_right_eq_some.mp hs).2
    unfold MavLock.start at hm
    split at hm
    · rename_i a hc
      rw [← Option.some.inj hm] at hclash
      exact clash_still h (fun _ _ hk => nomatch hc.symm.trans hk) hclash
    · exact nomatch hm
  | run t =>
    rcases run_cases hs with ⟨l, c, k, hc, hl, rfl⟩ | ⟨l, c, k, f', hc, hl, rfl⟩ |
      ⟨l, k, hc, rfl⟩ | ⟨g, k, hc, rfl⟩ | ⟨q, k, hc, rfl⟩
    · exact clash_take h hc hl hcalm hclash
    · exact clash_wait hc hcalm hclash
    · exact clash_give h hc hclash
    · exact clash_still h (fun _ _ hk => nomatch hc.symm.trans hk) hclash
    · exact clash_still h (fun _ _ hk => nomatch hc.symm.trans hk) hclash

/-- **NO CYCLE OF LOCKS**: in every run in which eviction never waits for an
    `spt_lock` that a walk holds, no set of threads waits in a circle, and no
    thread asks for a lock it holds. -/
theorem vm_locks_acyclic (hash : MavVm.HashOrder) (poolSize swapSize : Nat)
    (data : Nat → Nat → UInt8) (length room : Nat → Nat) (labels : List Label) (m : Machine)
    (hcalm : Guarded step Calm (boot (MavVm.boot hash poolSize swapSize data length room)) labels)
    (hrun : exec step (boot (MavVm.boot hash poolSize swapSize data length room)) labels = some m) :
    (∀ D, ¬ Deadlocked m D) ∧
      ∀ t l c k, (m.thread t).code = .acquire l c k → m.holder l ≠ some t := by
  have hinv : Sound rules m ∧ ∀ p e f, ¬ Clash m p e f := by
    refine exec_inv (C := Calm) (I := fun m => Sound rules m ∧ ∀ p e f, ¬ Clash m p e f) ?_ labels _ m
      ⟨boot_sound _, fun p e f h => absurd h.waits List.not_mem_nil⟩ hcalm hrun
    intro m i m' hI hC hs
    exact ⟨step_sound hI.1 hs, fun p e f h => hI.2 p e f (clash_step hI.1 hC hs h)⟩
  refine ⟨fun D hD => ?_, fun t l c k hc => hinv.1.not_held hc⟩
  obtain ⟨p, e, f, _, _, hclash⟩ := clash_of_deadlocked hinv.1 hD
  exact hinv.2 p e f hclash

/-! ## Concrete runs -/

/-- A machine with one frame and one swap slot. -/
def tinyBoot : Machine :=
  boot (MavVm.boot ⟨id, fun l => List.Perm.refl l⟩ 1 1 (fun _ _ => 0) (fun _ => 0) (fun _ => 0))

/-- Thread `t` takes `n` steps. -/
def runs (t : Nat × Nat) (n : Nat) : List Label := List.replicate n (.run t)

/-- Process 0 starts and its stack page is in the frame. Process 1 starts, finds no free page and
    chooses that frame: it holds `frame_lock`. Process 2 is forked from process 0 and takes the
    `spt_lock` of process 0. Then both go on. -/
def lockedRun : List Label :=
  .start (0, 0) (.exec 0 []) :: runs (0, 0) 16 ++ .start (1, 0) (.exec 0 []) :: runs (1, 0) 8 ++
    .start (2, 0) (.fork 0) :: runs (2, 0) 6 ++ [.run (1, 0)]

/-- The fork waits for `frame_lock` in `frame_pin`, and the eviction that holds it
    waits for the `spt_lock` the fork holds. -/
theorem evict_fork_deadlock :
    ∃ m, exec step tinyBoot lockedRun = some m ∧
      Deadlocked m fun t => t = (1, 0) ∨ t = (2, 0) := by
  have hobs : (exec step tinyBoot lockedRun).map (fun m =>
      (m.waiters (.spt 0), m.holder (.spt 0), m.waiters .frame, m.holder .frame)) =
      some ([(1, 0)], some (2, 0), [(2, 0)], some (1, 0)) := by decide +kernel
  obtain ⟨m, hm, ho⟩ := Option.map_eq_some_iff.mp hobs
  obtain ⟨h1, h2, h3, h4⟩ : m.waiters (.spt 0) = [(1, 0)] ∧ m.holder (.spt 0) = some (2, 0) ∧
      m.waiters .frame = [(2, 0)] ∧ m.holder .frame = some (1, 0) := by
    simpa only [Prod.mk.injEq] using ho
  refine ⟨m, hm, ⟨(1, 0), .inl rfl⟩, fun t ht => ?_⟩
  rcases ht with rfl | rfl
  · exact ⟨.spt 0, (2, 0), by rw [h1]; exact List.mem_singleton.mpr rfl, h2, .inr rfl⟩
  · exact ⟨.frame, (1, 0), by rw [h3]; exact List.mem_singleton.mpr rfl, h4, .inl rfl⟩

/-- The same processes one after the other: the eviction, then the fork, then the
    exit of process 0. -/
def quietRun : List Label :=
  .start (0, 0) (.exec 0 []) :: runs (0, 0) 16 ++ .start (1, 0) (.exec 0 []) :: runs (1, 0) 28 ++
    .start (2, 0) (.fork 0) :: runs (2, 0) 8 ++ .start (0, 0) .exit :: runs (0, 0) 2

theorem quietRun_acyclic :
    ∃ m, exec step tinyBoot quietRun = some m ∧ ∀ D, ¬ Deadlocked m D := by
  have hsome : (exec step tinyBoot quietRun).isSome = true := by decide +kernel
  have hcalm : Guarded step Calm tinyBoot quietRun := by decide +kernel
  obtain ⟨m, hm⟩ := Option.isSome_iff_exists.mp hsome
  exact ⟨m, hm, (vm_locks_acyclic _ 1 1 _ _ _ quietRun m hcalm hm).1⟩

end MavVmLock
