import Maverick.PrioRulesProofs

/-! # Donation — effective priorities and the threads asleep on a lock

A thread's effective priority should be the largest of its base priority and the effective
priorities of the threads blocked on the locks it holds. Three things disturb this. A thread may
take a lock past a thread asleep on it; a woken thread that finds its lock taken goes back to sleep
without donating again; and a donation handed on through a woken thread reaches a holder on whose
lock nobody is asleep. `donation_undisturbed` shows that there is nothing else. -/

namespace MavPrio

open MavQueue MavRun Option
open Function (update update_self update_of_ne update_apply)

/-- What a thread's effective priority is made of: its base priority and the effective priorities of
    the threads blocked in `lock_acquire` on a lock it holds. -/
def donors (s : Prio) (t : Nat) : Set Int :=
  { p | p = s.priority t ∨
    ∃ l u, s.holder l = some t ∧ u ∈ s.waiters (.lock l) ∧ p = s.effPriority u }

/-- Every effective priority is the largest of what it is made of. -/
def Donated (s : Prio) : Prop := ∀ t, IsGreatest (donors s t) (s.effPriority t)

/-- Every thread has the effective priority it is due. -/
def AllDue (s : Prio) : Prop := ∀ t, Due s t (s.priority t) (s.effPriority t)

variable {s s' : Prio}

theorem AllDue.donated (h : AllDue s) : Donated s := by
  intro t
  refine ⟨?_, ?_⟩
  · rcases (h t).attained with heq | ⟨l, u, hl, hu, heq⟩
    · exact .inl heq
    · exact .inr ⟨l, u, hl, hu, heq.symm⟩
  · rintro p (rfl | ⟨l, u, hl, hu, rfl⟩)
    · exact (h t).base
    · exact (h t).waiter l u hl hu

/-! ## One turn of the donation loop -/

/-- `u` is asleep on a lock that `t` holds. -/
def SleepsOn (s : Prio) (u t : Nat) : Prop :=
  ∃ l, s.holder l = some t ∧ u ∈ s.waiters (.lock l)

/-- The state of the loop at thread `h`, over a relation `B` of sleepers to
    holders: only `h` may exceed its holder, and only that holder may have lost
    the sleeper it got its effective priority from. -/
structure Lending (B : Nat → Nat → Prop) (s : Prio) (h : Nat) : Prop where
  base : ∀ t, s.priority t ≤ s.effPriority t
  lower : ∀ u t, B u t → u ≠ h → s.effPriority u ≤ s.effPriority t
  attained : ∀ t, s.effPriority t = s.priority t ∨
    (∃ u, B u t ∧ s.effPriority u = s.effPriority t) ∨
    (B h t ∧ s.effPriority t < s.effPriority h)

/-- A turn from `h` to the only thread `n` it can be asleep on. -/
theorem Lending.turn {B : Nat → Nat → Prop} {h n : Nat} (hL : Lending B s h)
    (honly : ∀ t, B h t → t = n) (hB : s.effPriority n < s.effPriority h → B h n) :
    Lending B (if s.effPriority n < s.effPriority h then donate s n (s.effPriority h) else s) n := by
  by_cases hlt : s.effPriority n < s.effPriority h
  · have hBn := hB hlt
    have hne : h ≠ n := by rintro rfl; exact Int.lt_irrefl _ hlt
    rw [if_pos hlt]
    refine ⟨?_, ?_, ?_⟩
    all_goals
      rw [effPriority_donate]
      try rw [(lent_donate s n _).priority]
    · intro t
      have hb := hL.base t
      by_cases ht : t = n
      · rw [ht, update_self]
        rw [ht] at hb
        omega
      · rw [update_of_ne ht]
        exact hb
    · intro u t hu hun
      rw [update_of_ne hun]
      by_cases ht : t = n
      · rw [ht, update_self]
        by_cases huh : u = h
        · rw [huh]
        · exact Int.le_trans (hL.lower u n (ht ▸ hu) huh) (Int.le_of_lt hlt)
      · rw [update_of_ne ht]
        exact hL.lower u t hu (by rintro rfl; exact ht (honly t hu))
    · intro t
      by_cases ht : t = n
      · -- the raised thread got its effective priority from `h`
        subst ht
        refine .inr (.inl ⟨h, hBn, ?_⟩)
        rw [update_of_ne hne, update_self]
      rw [update_of_ne ht, update_self]
      rcases hL.attained t with h1 | ⟨u, hu, heq⟩ | ⟨hbt, _⟩
      · exact .inl h1
      · by_cases hun : u = n
        · subst hun
          exact .inr (.inr ⟨hu, heq ▸ hlt⟩)
        · refine .inr (.inl ⟨u, hu, ?_⟩)
          rw [update_of_ne hun, heq]
      · exact absurd (honly t hbt) ht
  · rw [if_neg hlt]
    refine ⟨hL.base, ?_, ?_⟩
    · intro u t hu _
      by_cases huh : u = h
      · subst huh
        rw [honly t hu]
        exact Int.not_lt.mp hlt
      · exact hL.lower u t hu huh
    · intro t
      rcases hL.attained t with h1 | h2 | ⟨hbt, hlt'⟩
      · exact .inl h1
      · exact .inr (.inl h2)
      · rw [honly t hbt] at hlt'
        exact absurd hlt' hlt

/-- At a thread that exceeds no holder it is asleep on the loop is done. -/
theorem Lending.allDue {B : Nat → Nat → Prop} {h : Nat} (hL : Lending B s h)
    (hdone : ∀ t, B h t → s.effPriority h ≤ s.effPriority t) (hprio : s'.priority = s.priority)
    (heff : s'.effPriority = s.effPriority) (hB : ∀ u t, B u t ↔ SleepsOn s' u t) : AllDue s' := by
  intro t
  rw [hprio, heff]
  refine ⟨hL.base t, ?_, ?_⟩
  · intro l u hl hu
    rw [heff]
    have hBu : B u t := (hB u t).mpr ⟨l, hl, hu⟩
    by_cases huh : u = h
    · subst huh
      exact hdone t hBu
    · exact hL.lower u t hBu huh
  · rcases hL.attained t with h1 | ⟨u, hu, heq⟩ | ⟨hbt, hlt⟩
    · exact .inl h1
    · obtain ⟨l, hl, hul⟩ := (hB u t).mp hu
      refine .inr ⟨l, u, hl, hul, ?_⟩
      rw [heff]
      exact heq
    · exact absurd (hdone t hbt) (Int.not_le.mpr hlt)

/-! ## The moves -/

section Moves

variable {c l : Nat}

theorem AllDue.same (h : AllDue s) (hs : Same s s') : AllDue s' := by
  intro t
  obtain ⟨hb, hw, ha⟩ := h t
  constructor
  · rw [hs.priority, hs.effPriority]
    exact hb
  · intro l u hl hu
    rw [hs.holder] at hl
    rw [hs.waiters] at hu
    rw [hs.effPriority]
    exact hw l u hl hu
  · simp only [hs.priority, hs.effPriority, hs.holder, hs.waiters]
    exact ha

/-- The effective priority of a thread that is asleep on no lock is its own affair. -/
theorem AllDue.reset {p e : Int} (h : AllDue s) (hc : ∀ m, c ∉ s.waiters m)
    (holder' : Nat → Option Nat)
    (hho : ∀ l, holder' l = s.holder l ∨ (s.holder l = some c ∧ holder' l = none))
    (hdue : Due { s with holder := holder' } c p e) :
    AllDue { s with holder := holder', priority := update s.priority c p,
                    effPriority := update s.effPriority c e } := by
  have heff : ∀ m u, u ∈ s.waiters m → update s.effPriority c e u = s.effPriority u :=
    fun m u hu => update_of_ne (fun huc : u = c => hc m (huc ▸ hu)) ..
  intro t
  by_cases ht : t = c
  · subst ht
    simp only [update_self]
    refine ⟨hdue.base, ?_, ?_⟩
    · intro l u hl hu
      exact Int.le_trans (Int.le_of_eq (heff _ u hu)) (hdue.waiter l u hl hu)
    · rcases hdue.attained with h1 | ⟨l, u, hl, hu, h1⟩
      · exact .inl h1
      · exact .inr ⟨l, u, hl, hu, (heff _ u hu).trans h1⟩
  -- the locks of other threads are not touched
  have hiff : ∀ l, holder' l = some t ↔ s.holder l = some t := by
    intro l
    rcases hho l with h1 | ⟨h1, h2⟩
    · rw [h1]
    · rw [h1, h2]
      exact ⟨nofun, fun e => absurd (some.inj e).symm ht⟩
  obtain ⟨hb, hw, ha⟩ := h t
  simp only [update_of_ne ht]
  refine ⟨hb, ?_, ?_⟩
  · intro l u hl hu
    exact Int.le_trans (Int.le_of_eq (heff _ u hu)) (hw l u ((hiff l).mp hl) hu)
  · rcases ha with h1 | ⟨l, u, hl, hu, h1⟩
    · exact .inl h1
    · exact .inr ⟨l, u, (hiff l).mpr hl, hu, (heff _ u hu).trans h1⟩

theorem AllDue.init {run : Option Nat} {t : Nat} {p : Int} (h : AllDue s) (hs : Shape run s)
    (ht : s.status t = .unused) : AllDue (initThread s t p) := by
  have hA := h.reset (hs.not_waiter_of_unused ht) s.holder (fun l => .inl rfl)
    (hs.due_unused ht p)
  exact fun u => { hA u with }

theorem AllDue.sleep (h : AllDue s)
    (hle : ∀ h, s.holder l = some h → s.effPriority c ≤ s.effPriority h) :
    AllDue (asleepOn s c (.lock l)) := by
  intro t
  obtain ⟨hb, hw, ha⟩ := h t
  have hmem : ∀ l' u, u ∈ (asleepOn s c (.lock l)).waiters (.lock l') ↔
      u ∈ s.waiters (.lock l') ∨ (u = c ∧ l' = l) := by
    intro l' u
    simp only [asleepOn, Prio.setWaiters, Prio.setStatus, update_apply]
    grind
  refine ⟨hb, ?_, ?_⟩
  · intro l' u hl hu
    rcases (hmem l' u).mp hu with hu | ⟨rfl, rfl⟩
    · exact hw l' u hl hu
    · exact hle t hl
  · rcases ha with h1 | ⟨l', u, hl, hu, h1⟩
    · exact .inl h1
    · exact .inr ⟨l', u, hl, (hmem l' u).mpr (.inl hu), h1⟩

theorem AllDue.wake {t : Nat} (h : AllDue s) (hl : s.holder l = none) :
    AllDue (woken s (.lock l) t) := by
  intro u
  obtain ⟨hb, hw, ha⟩ := h u
  have hmem : ∀ l', s.holder l' = some u →
      (woken s (.lock l) t).waiters (.lock l') = s.waiters (.lock l') := by
    intro l' hl'
    refine s.waiters_setWaiters_ne _ ?_
    rintro ⟨⟩
    exact nomatch hl.symm.trans hl'
  refine ⟨hb, ?_, ?_⟩
  · intro l' v hl' hv
    rw [hmem l' hl'] at hv
    exact hw l' v hl' hv
  · rcases ha with h1 | ⟨l', v, hl', hv, h1⟩
    · exact .inl h1
    · exact .inr ⟨l', v, hl', (hmem l' hl').symm ▸ hv, h1⟩

theorem AllDue.take (h : AllDue s) (hl : s.holder l = none) (hle : overtakesNone s l) :
    AllDue ((takeLock s l).setWaitingLock s.current none) := by
  have hself : ((takeLock s l).setWaitingLock s.current none).holder l = some s.current :=
    update_self ..
  have hother : ∀ l', l' ≠ l →
      ((takeLock s l).setWaitingLock s.current none).holder l' = s.holder l' :=
    fun l' hll => update_of_ne hll ..
  intro t
  obtain ⟨hb, hw, ha⟩ := h t
  refine ⟨hb, ?_, ?_⟩
  · intro l' u hl' hu
    by_cases hll : l' = l
    · subst hll
      obtain rfl : s.current = t := some.inj (hself.symm.trans hl')
      exact hle u hu
    · exact hw l' u ((hother l' hll).symm.trans hl') hu
  · rcases ha with h1 | ⟨l', u, hl', hu, h1⟩
    · exact .inl h1
    · refine .inr ⟨l', u, ?_, hu, h1⟩
      have hll : l' ≠ l := by
        rintro rfl
        exact nomatch hl.symm.trans hl'
      exact (hother l' hll).trans hl'

/-- **THE DONATION** of a thread that falls asleep on a held lock gives every thread what it is then
    due, provided it is handed on from blocked threads. -/
theorem AllDue.lend {turns h : Nat} (hA : AllDue s) (hs : Shape (some s.current) s)
    (hh : s.holder l = some h)
    (hd : donateTo turns (s.setWaitingLock s.current (some l)) l = some s')
    (hG : lendBlocked turns (s.setWaitingLock s.current (some l)) l) :
    AllDue (asleepOn s' s.current (.lock l)) := by
  have hs0 : Shape (some s.current) (s.setWaitingLock s.current (some l)) := hs.setWaitingLock
  have hlent := (lent_donateTo hs0 hd).1
  -- the sleepers once the running thread is one of them
  let B : Nat → Nat → Prop := fun u t => SleepsOn s u t ∨ (u = s.current ∧ t = h)
  have hfinal : ∀ u t, B u t ↔ SleepsOn (asleepOn s' s.current (.lock l)) u t := by
    intro u t
    have hho : (asleepOn s' s.current (.lock l)).holder = s.holder := hlent.holder
    have hwa : s'.waiters = s.waiters := hlent.waiters
    simp only [B, SleepsOn, hho]
    simp only [asleepOn, Prio.setWaiters, Prio.setStatus, hwa, update_apply]
    grind
  have hnext : ∀ u t, B u t →
      ((s.setWaitingLock s.current (some l)).waitingLock u).bind s.holder = some t := by
    rintro u t (⟨l', hl', hu⟩ | ⟨rfl, rfl⟩)
    · rw [hs0.waits_for l' u hu]
      exact hl'
    · rw [show (s.setWaitingLock s.current (some l)).waitingLock s.current = some l from
        update_self ..]
      exact hh
  have hprev : ∀ u t, s.status u = .blocked →
      ((s.setWaitingLock s.current (some l)).waitingLock u).bind s.holder = some t → B u t := by
    intro u t hb hn
    obtain ⟨l', hw, hl'⟩ := bind_eq_some_iff.mp hn
    rcases hs0.waiting u l' hw with h1 | h1 | h1
    · exact .inl ⟨l', hl', h1⟩
    · cases h1.symm.trans hb
    · obtain rfl := some.inj h1
      cases (hs.running _ rfl).symm.trans hb
  have hstart : Lending B (s.setWaitingLock s.current (some l)) s.current := by
    refine ⟨fun t => (hA t).base, ?_, ?_⟩
    · rintro u t (⟨l', hl', hu⟩ | ⟨rfl, rfl⟩) hne
      · exact (hA t).waiter l' u hl' hu
      · exact absurd rfl hne
    · intro t
      rcases (hA t).attained with h1 | ⟨l', u, hl', hu, h1⟩
      · exact .inl h1
      · exact .inr (.inl ⟨u, .inl ⟨l', hl', hu⟩, h1⟩)
  have honly : ∀ t, B s.current t → t = h := fun t ht =>
    some.inj ((hnext _ t ht).symm.trans (hnext _ h (.inr ⟨rfl, rfl⟩)))
  unfold donateTo at hd
  rw [show (s.setWaitingLock s.current (some l)).holder l = some h from hh] at hd
  simp only at hd
  split at hd
  · rename_i hlt
    -- the donation to the holder is the first turn of the loop
    have hfirst : Lending B (donate (s.setWaitingLock s.current (some l)) h
        (s.effPriority s.current)) h := by
      have ht := hstart.turn honly fun _ => .inr ⟨rfl, rfl⟩
      have hlt' : (s.setWaitingLock s.current (some l)).effPriority h <
          (s.setWaitingLock s.current (some l)).effPriority s.current := hlt
      rw [if_pos hlt'] at ht
      exact ht
    obtain ⟨h', ⟨hl', hL⟩, hend⟩ := donateChain_rule (g := True)
      (Q := fun s1 h1 => Lent (s.setWaitingLock s.current (some l)) s1 ∧ Lending B s1 h1)
      (fun s1 h1 n hQ hn hb => by
        obtain ⟨hl1, hL⟩ := hQ
        rw [hl1.waitingLock, hl1.holder] at hn
        refine ⟨?_, hL.turn (fun t ht => some.inj ((hnext h1 t ht).symm.trans hn)) ?_⟩
        · split
          · exact hl1.trans (lent_donate ..)
          · exact hl1
        · intro hlt
          have hb1 := hb trivial hlt
          rw [hl1.status] at hb1
          exact hprev h1 n hb1 hn)
      ⟨lent_donate .., hfirst⟩ (fun _ => hG h hh hlt) hd
    refine hL.allDue (fun t ht => ?_) rfl rfl hfinal
    rw [hl'.waitingLock, hl'.holder] at hend
    cases hend.symm.trans (hnext h' t ht)
  · rename_i hlt
    obtain rfl := some.inj hd
    refine hstart.allDue (fun t ht => ?_) rfl rfl hfinal
    rw [honly t ht]
    exact Int.not_lt.mp hlt

end Moves

theorem allDue_rules : Rules True (fun _ s => AllDue s) where
  same hs h := h.same hs
  reset holder' hs h _ hho hdue := h.reset (fun _ => hs.not_waiter) holder' hho hdue
  init hs h ht := h.init hs ht
  enqueued _ h _ _ _ := fun t => { h t with }
  doze _ h _ := fun t => { h t with }
  await _ h _ := fun t => { h t with }
  sleep _ h _ hle := h.sleep (hle trivial)
  wake _ h _ hl _ := h.wake hl
  take _ h hl _ hle := h.take hl (hle trivial)
  lend hs h _ _ hh hd hG := h.lend hs hh hd (hG trivial)
  schedule := by
    intro s _ h t
    rcases schedule_cases s with ⟨_, heq⟩ | ⟨u, r, _, heq⟩
    · rw [heq]
      exact { h t with }
    · rw [heq]
      exact { h t with }

/-! ## Every run -/

/-- **PRIORITY DONATION**: in every run whose steps are undisturbed, every
    thread's effective priority is, in every state reached, the largest of its
    base priority and the effective priorities of the threads blocked on the
    locks it holds. -/
theorem donation_undisturbed (values : Nat → Nat) (as : List Step) (s : Prio)
    (hG : Guarded step Undisturbed (booted values) as)
    (h : exec step (booted values) as = some s) : Donated s := by
  have hboot : AllDue (booted values) := fun t =>
    ⟨Int.le_refl _, (fun l u hl _ => nomatch hl), Or.inl rfl⟩
  have hG' := guarded_imp (fun s a (hu : Undisturbed s a) => fun _ : True => hu) hG
  exact (allDue_rules.run (booted_keeps hboot) hG' h).inv.donated

/-- The initial thread holds lock 1, a thread of priority 40 is created, runs
    and falls asleep on the lock: the initial thread now has 40. -/
theorem donation_undisturbed_waiter :
    ∃ s, exec step (booted fun _ => 0)
        [.call (.lockAcquire 1), .go 1, .call (.threadCreate 3 40), .go 1,
         .call (.lockAcquire 1), .go 1] = some s ∧ s.effPriority 1 = 40 ∧ Donated s := by
  refine ⟨_, rfl, by decide, donation_undisturbed (fun _ => 0)
    [.call (.lockAcquire 1), .go 1, .call (.threadCreate 3 40), .go 1,
     .call (.lockAcquire 1), .go 1] _ (by decide) rfl⟩

/-- Thread 1 holds lock 1 with thread 3 (of priority 20) asleep on it, releases
    it with a base priority of 31 and takes it again before thread 3 runs. It
    lowers its priority to 10, thread 3 runs, finds the lock taken and sleeps
    again, and thread 1 has an effective priority of 10. -/
theorem retaken_lock_loses_donation :
    ∃ s, exec step (booted fun _ => 0)
        [.call (.threadCreate 3 20), .go 1, .call (.lockAcquire 1), .go 1,
         .call (.threadSetPriority 10), .go 1, .call (.lockAcquire 1), .go 1,
         .call (.threadSetPriority 31), .go 1, .call (.lockRelease 1), .go 1,
         .call (.lockAcquire 1), .go 1, .call (.threadSetPriority 10), .go 1, .go 1] = some s ∧
      s.holder 1 = some 1 ∧ 3 ∈ s.waiters (.lock 1) ∧ s.effPriority 3 = 20 ∧
      s.effPriority 1 = 10 ∧ ¬ Donated s := by
  refine ⟨_, rfl, by decide, by decide, by decide, by decide, fun h => ?_⟩
  have hle := (h 1).2 (Or.inr ⟨1, 3, by decide, by decide, rfl⟩)
  exact absurd hle (by decide)

end MavPrio
