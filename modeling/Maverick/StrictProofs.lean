import Maverick.PrioRulesProofs

/-! # Strict priority — the running thread is never behind a ready one

Every primitive has its own test for giving up the processor. They are enough because an effective
priority above the base priority is always held up by somebody: by a thread asleep on a lock that
the thread holds or, for a thread that is not running, by a woken one that will fall asleep on such
a lock again before the thread runs. A drop of the running thread's effective priority therefore
comes with a thread that is made ready, or with a look at the ready list. -/

namespace MavPrio

open MavQueue MavRun Option
open Function (update update_self update_of_ne update_eq_self update_apply)

/-! ## What holds up an effective priority -/

/-- The base priority or a thread asleep on a held lock. -/
def Attained (s : Prio) (t : Nat) : Prop :=
  s.effPriority t ≤ s.priority t ∨
    ∃ l u, s.holder l = some t ∧ u ∈ s.waiters (.lock l) ∧ s.effPriority t ≤ s.effPriority u

/-- A thread woken on a held lock that runs now, or runs before `t` does. -/
def Pending (run : Option Nat) (s : Prio) (t : Nat) : Prop :=
  ∃ l u, s.holder l = some t ∧ s.waitingLock u = some l ∧ s.effPriority t ≤ s.effPriority u ∧
    (run = some u ∨
      (s.status u = .ready ∧ (s.status t = .ready → Before s.effPriority s.stamp u t)))

/-- The ready list is in order and every effective priority is held up. -/
structure Ordered (run : Option Nat) (s : Prio) : Prop where
  order : InOrder s.effPriority s.stamp s.ready
  stamps : ∀ t ∈ s.ready, s.stamp t < s.clock
  att : ∀ t, Attained s t ∨ (run ≠ some t ∧ Pending run s t)

/-- No ready thread has a larger effective priority than the running one. -/
def Top (s : Prio) : Prop := ∀ u ∈ s.ready, s.effPriority u ≤ s.effPriority s.current

/-! ## The moves -/

variable {p : Int} {turns : Nat}

section Moves

variable {run : Option Nat} {s : Prio} {c l : Nat}

section

variable (h : Ordered run s)

include h

theorem Ordered.same {s' : Prio} (hs : Same s s') : Ordered run s' := by
  refine ⟨?_, ?_, ?_⟩
  · rw [hs.effPriority, hs.stamp, hs.ready]
    exact h.order
  · rw [hs.ready, hs.stamp, hs.clock]
    exact h.stamps
  · intro t
    have ha := h.att t
    simp only [Attained, Pending] at ha ⊢
    simp only [hs.effPriority, hs.priority, hs.holder, hs.waiters, hs.waitingLock, hs.status,
      hs.stamp]
    exact ha

/-- A thread that is in no list and waits for no lock may change its
    priorities, if it is held up afterwards. -/
theorem Ordered.reset {e : Int} (hnw : ∀ m, c ∉ s.waiters m)
    (hnr : c ∉ s.ready) (hw : s.waitingLock c = none) (holder' : Nat → Option Nat)
    (hho : ∀ l, holder' l = s.holder l ∨ (s.holder l = some c ∧ holder' l = none))
    (hdue : Due { s with holder := holder' } c p e) :
    Ordered run { s with holder := holder', priority := update s.priority c p,
                         effPriority := update s.effPriority c e } := by
  have heff : ∀ u, u ≠ c → update s.effPriority c e u = s.effPriority u :=
    fun u hu => update_of_ne hu ..
  refine ⟨?_, h.stamps, ?_⟩
  · exact h.order.congr (fun y hy => heff y (by rintro rfl; exact hnr hy)) fun _ _ => rfl
  intro t
  by_cases ht : t = c
  · subst ht
    refine .inl ?_
    rcases hdue.attained with h1 | ⟨l, u, hl, hu, h1⟩
    · refine .inl ?_
      simp only [update_self]
      exact Int.le_of_eq h1
    · refine .inr ⟨l, u, hl, hu, ?_⟩
      simp only [update_self]
      rw [heff u (by rintro rfl; exact hnw _ hu)]
      exact Int.le_of_eq h1.symm
  -- the locks of other threads and what holds these up are not touched
  have hiff : ∀ l, s.holder l = some t → holder' l = some t := by
    intro l hl
    rcases hho l with h1 | ⟨h1, _⟩
    · rw [h1]; exact hl
    · exact absurd (some.inj (hl.symm.trans h1)) ht
  rcases h.att t with (h1 | ⟨l, u, hl, hu, h1⟩) | ⟨hr, l, u, hl, hu, h1, h2⟩
  · refine .inl (.inl ?_)
    simp only [update_of_ne ht]
    exact h1
  · refine .inl (.inr ⟨l, u, hiff l hl, hu, ?_⟩)
    simp only [update_of_ne ht]
    rw [heff u (by rintro rfl; exact hnw _ hu)]
    exact h1
  · have huc : u ≠ c := by
      rintro rfl
      exact nomatch hw.symm.trans hu
    refine .inr ⟨hr, l, u, hiff l hl, hu, ?_, ?_⟩
    · simp only [update_of_ne ht]
      rw [heff u huc]
      exact h1
    · rcases h2 with h2 | ⟨h2, h3⟩
      · exact .inl h2
      · refine .inr ⟨h2, fun hst => ?_⟩
        simp only [Before, heff u huc, heff t ht]
        exact h3 hst

/-- A status that is not "ready" before or after does not matter, unless the thread runs. -/
theorem Ordered.setStatus {r : Option Nat} (st : Status)
    (hold : s.status c ≠ .ready) (hnew : st ≠ .ready)
    (hrun : r = run ∨ (r = none ∧ run = some c ∧ s.waitingLock c = none)) :
    Ordered r (s.setStatus c st) := by
  refine ⟨h.order, h.stamps, fun t => ?_⟩
  rcases h.att t with h1 | ⟨hr, l, u, hl, hu, h1, h2⟩
  · exact .inl h1
  refine .inr ⟨?_, l, u, hl, hu, h1, ?_⟩
  · rcases hrun with rfl | ⟨rfl, _, _⟩
    · exact hr
    · exact nofun
  rcases h2 with h2 | ⟨h2, h3⟩
  · rcases hrun with rfl | ⟨_, h4, hw⟩
    · exact .inl h2
    · obtain rfl := some.inj (h2.symm.trans h4)
      exact nomatch hw.symm.trans hu
  · have huc : u ≠ c := by rintro rfl; exact hold h2
    exact .inr ⟨(update_of_ne huc ..).trans h2, fun hst => h3 (of_update hst hnew).2⟩

theorem Ordered.init {t : Nat} (hs : Shape run s)
    (ht : s.status t = .unused) : Ordered run (initThread s t p) := by
  have hnr : t ∉ s.ready := fun hr => by
    have hb := (hs.ready_iff t).mp hr
    rw [ht] at hb
    exact nomatch hb
  have hwl := (hs.unused t ht).2
  have h1 := (h.reset (hs.not_waiter_of_unused ht) hnr hwl s.holder (fun l => .inl rfl)
    (hs.due_unused ht p)).setStatus (c := t) (r := run) .blocked (by simp [ht]) nofun (.inl rfl)
  refine h1.same ⟨rfl, rfl, rfl, ?_, rfl, rfl, rfl, rfl, fun _ => rfl⟩
  show update s.waitingLock t none = s.waitingLock
  rw [← hwl, update_eq_self]

/-- A thread enters the ready list: whatever holds up its effective priority
    from inside the list is in front of it. -/
theorem Ordered.enter {t : Nat} (hs : ∀ u, u ∈ s.ready ↔ s.status u = .ready)
    (ht : t ∉ s.ready) (hw : run = some t → s.waitingLock t = none) :
    Ordered (if run = some t then none else run) (admitted s t) := by
  have hst : ∀ u, u ≠ t → (admitted s t).status u = s.status u :=
    fun u hu => update_of_ne hu ..
  have hsp : ∀ u, u ≠ t → (admitted s t).stamp u = s.stamp u :=
    fun u hu => update_of_ne hu ..
  have hspt : (admitted s t).stamp t = s.clock := update_self ..
  refine ⟨?_, ?_, fun u => ?_⟩
  · refine InOrder.insert (h.order.congr (fun _ _ => rfl) fun y hy => ?_) ?_
    · exact hsp y (by rintro rfl; exact ht hy)
    · intro y hy
      rw [hspt, hsp y (by rintro rfl; exact ht hy)]
      exact h.stamps y hy
  · intro u hu
    rcases mem_insertOrdered.mp hu with rfl | hur
    · rw [hspt]
      exact Nat.lt_succ_self _
    · rw [hsp u (by rintro rfl; exact ht hur)]
      exact Nat.lt_succ_of_lt (h.stamps u hur)
  · rcases h.att u with h1 | ⟨hr, l, v, hl, hv, h1, h2⟩
    · exact .inl h1
    refine .inr ⟨?_, l, v, hl, hv, h1, ?_⟩
    · split
      · exact nofun
      · exact hr
    rcases h2 with h2 | ⟨h2, h3⟩
    · -- the running thread waits for a lock, so that it is not the one that enters
      refine .inl ?_
      rw [if_neg, h2]
      intro e
      have hvt : v = t := some.inj (h2.symm.trans e)
      rw [hvt, hw e] at hv
      exact nomatch hv
    have hvr : v ∈ s.ready := (hs v).mpr h2
    have hvt : v ≠ t := by rintro rfl; exact ht hvr
    refine .inr ⟨(hst v hvt).trans h2, fun hu => ?_⟩
    have hlt := h.stamps v hvr
    by_cases hut : u = t
    · subst hut
      show _ < _ ∨ (_ ∧ (admitted s u).stamp v < (admitted s u).stamp u)
      rw [hspt, hsp v hvt]
      have h1' : s.effPriority u ≤ s.effPriority v := h1
      rcases Int.lt_or_eq_of_le h1' with h4 | h4
      · exact .inl h4
      · exact .inr ⟨h4.symm, hlt⟩
    · have hb := h3 ((hst u hut).symm.trans hu)
      simp only [Before, hsp v hvt, hsp u hut]
      exact hb

theorem Ordered.wake {t : Nat} (hs : Shape run s)
    (ht : t ∈ s.waiters (.lock l)) (hl : s.holder l = none) (hrun : run ≠ some t) :
    Ordered run (woken s (.lock l) t) := by
  -- nobody is held up by the waiters of a free lock
  have h1 : Ordered run (s.setWaiters (.lock l) ((s.waiters (.lock l)).erase t)) := by
    refine ⟨h.order, h.stamps, fun u => ?_⟩
    rcases h.att u with (h1 | ⟨l', v, hl', hv, h1⟩) | h2
    · exact .inl (.inl h1)
    · refine .inl (.inr ⟨l', v, hl', ?_, h1⟩)
      rw [s.waiters_setWaiters_ne]
      · exact hv
      · rintro ⟨⟩
        exact nomatch hl.symm.trans hl'
    · exact .inr h2
  have h2 := h1.enter hs.ready_iff (hs.not_ready_of_waiter ht) fun e => absurd e hrun
  rwa [if_neg hrun] at h2

theorem Ordered.await (hw : s.waitingLock c = none) :
    Ordered run (s.setWaitingLock c (some l)) := by
  refine ⟨h.order, h.stamps, fun t => ?_⟩
  rcases h.att t with h1 | ⟨hr, l', u, hl, hu, h2⟩
  · exact .inl h1
  · refine .inr ⟨hr, l', u, hl, ?_, h2⟩
    have huc : u ≠ c := by
      rintro rfl
      exact nomatch hw.symm.trans hu
    exact (update_of_ne huc ..).trans hu

end

/-- The running thread falls asleep on its lock; whom it held up as the running
    thread it now holds up as a waiter. -/
theorem Ordered.sleep (h : Ordered (some c) s) (hs : Shape (some c) s)
    (hw : s.waitingLock c = some l) : Ordered none (asleepOn s c (.lock l)) := by
  have hmem : ∀ l' u, (u ∈ s.waiters (.lock l') ∨ (u = c ∧ l' = l)) →
      u ∈ (asleepOn s c (.lock l)).waiters (.lock l') := by
    intro l' u hu
    simp only [asleepOn, Prio.setWaiters, Prio.setStatus, update_apply]
    grind
  have hst : ∀ u, u ≠ c → (asleepOn s c (.lock l)).status u = s.status u :=
    fun u hu => update_of_ne hu ..
  refine ⟨h.order, h.stamps, fun t => ?_⟩
  rcases h.att t with (h1 | ⟨l', u, hl', hu, h1⟩) | ⟨hr, l', u, hl', hu, h1, h2⟩
  · exact .inl (.inl h1)
  · exact .inl (.inr ⟨l', u, hl', hmem l' u (.inl hu), h1⟩)
  · rcases h2 with h2 | ⟨h2, h3⟩
    · obtain rfl := some.inj h2
      obtain rfl := some.inj (hw.symm.trans hu)
      exact .inl (.inr ⟨l, c, hl', hmem l c (.inr ⟨rfl, rfl⟩), h1⟩)
    · have huc : u ≠ c := by
        rintro rfl
        cases (hs.running u rfl).symm.trans h2
      have htc : t ≠ c := fun e => hr (e ▸ rfl)
      refine .inr ⟨by simp, l', u, hl', hu, h1, .inr ⟨(hst u huc).trans h2, ?_⟩⟩
      exact fun hst' => h3 ((hst t htc).symm.trans hst')

theorem Ordered.take (h : Ordered (some s.current) s) (hl : s.holder l = none)
    (hw : ∀ l', s.waitingLock s.current = some l' → l' = l) :
    Ordered (some s.current) ((takeLock s l).setWaitingLock s.current none) := by
  have hho : ∀ l' t, s.holder l' = some t →
      ((takeLock s l).setWaitingLock s.current none).holder l' = some t := by
    intro l' t hl'
    have hll : l' ≠ l := by
      rintro rfl
      exact nomatch hl.symm.trans hl'
    exact (update_of_ne hll ..).trans hl'
  refine ⟨h.order, h.stamps, fun t => ?_⟩
  rcases h.att t with (h1 | ⟨l', u, hl', hu, h1⟩) | ⟨hr, l', u, hl', hu, h2⟩
  · exact .inl (.inl h1)
  · exact .inl (.inr ⟨l', u, hho l' t hl', hu, h1⟩)
  · refine .inr ⟨hr, l', u, hho l' t hl', ?_, h2⟩
    -- the running thread waited for the free lock, which holds up nobody
    have huc : u ≠ s.current := by
      rintro rfl
      rw [hw l' hu, hl] at hl'
      exact nomatch hl'
    exact (update_of_ne huc ..).trans hu

theorem Before.asymm {key : Nat → Int} {stamp : Nat → Nat} {a b : Nat}
    (h : Before key stamp a b) (h' : Before key stamp b a) : False := by
  rcases h with h | ⟨h, h1⟩ <;> rcases h' with h' | ⟨h', h2⟩ <;> omega

/-- The thread at the front is held up by its base priority or by sleepers:
    a woken thread that held it up would stand before it. -/
theorem Ordered.schedule (h : Ordered none s) (hs : Shape none s) :
    Ordered (some (schedule s).current) (schedule s) := by
  rcases schedule_cases s with ⟨hr, heq⟩ | ⟨t, r, hr, heq⟩
  · rw [heq]
    refine ⟨h.order, h.stamps, fun u => ?_⟩
    rcases h.att u with h1 | ⟨_, l, v, _, _, _, h2 | ⟨h2, _⟩⟩
    · exact .inl h1
    · exact nomatch h2
    · have hv := (hs.ready_iff v).mpr h2
      rw [hr] at hv
      exact nomatch hv
  rw [heq]
  have hord : InOrder s.effPriority s.stamp (t :: r) := hr ▸ h.order
  refine ⟨hord.sublist (List.sublist_cons_self ..), ?_, fun u => ?_⟩
  · intro u hu
    exact h.stamps u (hr ▸ List.mem_cons_of_mem _ hu)
  rcases h.att u with h1 | ⟨_, l, v, hl, hv, h1, h2 | ⟨h2, h3⟩⟩
  · exact .inl h1
  · exact nomatch h2
  · have hvr : v ∈ t :: r := hr ▸ (hs.ready_iff v).mpr h2
    by_cases hut : u = t
    · -- whoever holds up the front is behind it: impossible
      subst hut
      have hb := h3 ((hs.ready_iff u).mp (hr ▸ List.mem_cons_self ..))
      rcases List.mem_cons.mp hvr with rfl | hvr
      · exact (Before.asymm hb hb).elim
      · exact (Before.asymm hb (hord.head v hvr)).elim
    · refine .inr ⟨fun e => hut (some.inj e).symm, l, v, hl, hv, h1, ?_⟩
      by_cases hvt : v = t
      · exact .inl (hvt ▸ rfl)
      · refine .inr ⟨(update_of_ne hvt ..).trans h2, fun hst => h3 ?_⟩
        exact (update_of_ne hut ..).symm.trans hst

/-- A raised thread that is in the ready list is filed again, behind all that
    have its new effective priority. -/
theorem Ordered.donate_queue {n : Nat} (hO : Ordered run s)
    (hs : ∀ u, u ∈ s.ready ↔ s.status u = .ready) (hd : s.ready.Nodup) :
    InOrder (donate s n p).effPriority (donate s n p).stamp (donate s n p).ready ∧
      (∀ t ∈ (donate s n p).ready, (donate s n p).stamp t < (donate s n p).clock) ∧
      (∀ u, u ≠ n → (donate s n p).stamp u = s.stamp u) ∧
      (s.status n = .ready → (donate s n p).stamp n = s.clock) := by
  have heff : ∀ u, u ≠ n → update s.effPriority n p u = s.effPriority u :=
    fun u hu => update_of_ne hu ..
  have hsp : ∀ u, u ≠ n → update s.stamp n s.clock u = s.stamp u :=
    fun u hu => update_of_ne hu ..
  have hspn : update s.stamp n s.clock n = s.clock := update_self ..
  unfold MavPrio.donate
  split
  · have hmem : ∀ y ∈ s.ready.erase n, y ≠ n ∧ y ∈ s.ready := fun y hy => hd.mem_erase_iff.mp hy
    refine ⟨?_, ?_, hsp, fun _ => hspn⟩
    · refine InOrder.insert ((hO.order.sublist List.erase_sublist).congr ?_ ?_) ?_
      · exact fun y hy => heff y (hmem y hy).1
      · exact fun y hy => hsp y (hmem y hy).1
      · intro y hy
        exact (hsp y (hmem y hy).1).trans_lt ((hO.stamps y (hmem y hy).2).trans_eq hspn.symm)
    · intro y hy
      rcases mem_insertOrdered.mp hy with rfl | hye
      · exact hspn.trans_lt (Nat.lt_succ_self _)
      · exact (hsp y (hmem y hye).1).trans_lt (Nat.lt_succ_of_lt (hO.stamps y (hmem y hye).2))
  · rename_i hnr
    have hn : ∀ y ∈ s.ready, y ≠ n := by
      rintro y hy rfl
      exact hnr ((hs y).mp hy)
    exact ⟨hO.order.congr (fun y hy => heff y (hn y hy)) fun _ _ => rfl, hO.stamps, fun _ _ => rfl,
      fun h => absurd h hnr⟩

/-- A donation to the holder of a lock that `h` waits for. -/
theorem Ordered.raise {h n : Nat} (hO : Ordered none s) (hS : Shape none s)
    (hn : (s.waitingLock h).bind s.holder = some n) (hlt : s.effPriority n < s.effPriority h) :
    Ordered none (donate s n (s.effPriority h)) := by
  obtain ⟨l, hwl, hl⟩ := bind_eq_some_iff.mp hn
  have hne : h ≠ n := by rintro rfl; exact Int.lt_irrefl _ hlt
  have hL := lent_donate s n (s.effPriority h)
  have heff : ∀ u, u ≠ n → (donate s n (s.effPriority h)).effPriority u = s.effPriority u :=
    fun u hu => by rw [effPriority_donate, update_of_ne hu]
  have heffn : (donate s n (s.effPriority h)).effPriority n = s.effPriority h := by
    rw [effPriority_donate, update_self]
  have hmono : ∀ u, s.effPriority u ≤ (donate s n (s.effPriority h)).effPriority u := by
    intro u
    by_cases hu : u = n
    · rw [hu, heffn]; exact Int.le_of_lt hlt
    · rw [heff u hu]
  obtain ⟨hord, hst, hsp, hspn⟩ := hO.donate_queue (n := n) (p := s.effPriority h)
    hS.ready_iff hS.ready_nodup
  refine ⟨hord, hst, fun t => ?_⟩
  by_cases ht : t = n
  · subst ht
    rcases hS.waiting h l hwl with h1 | h1 | h1
    · -- the donor is asleep
      refine .inl (.inr ⟨l, h, hL.holder ▸ hl, hL.waiters ▸ h1, ?_⟩)
      rw [heffn, heff h hne]
    · -- the donor was woken and stands in front
      refine .inr ⟨nofun, l, h, hL.holder ▸ hl, hL.waitingLock ▸ hwl, ?_,
        .inr ⟨hL.status ▸ h1, fun ht => ?_⟩⟩
      · rw [heffn, heff h hne]
      · rw [hL.status] at ht
        refine .inr ⟨by rw [heffn, heff h hne], ?_⟩
        rw [hspn ht, hsp h hne]
        exact hO.stamps h ((hS.ready_iff h).mpr h1)
    · exact nomatch h1
  · rcases hO.att t with (h1 | ⟨l', u, hl', hu, h1⟩) | ⟨hr, l', u, hl', hu, h1, h2 | ⟨h2, h3⟩⟩
    · refine .inl (.inl ?_)
      rw [heff t ht, hL.priority]
      exact h1
    · refine .inl (.inr ⟨l', u, hL.holder ▸ hl', hL.waiters ▸ hu, ?_⟩)
      rw [heff t ht]
      exact Int.le_trans h1 (hmono u)
    · exact nomatch h2
    · refine .inr ⟨hr, l', u, hL.holder ▸ hl', hL.waitingLock ▸ hu, ?_,
        .inr ⟨hL.status ▸ h2, fun hst' => ?_⟩⟩
      · rw [heff t ht]
        exact Int.le_trans h1 (hmono u)
      rw [hL.status] at hst'
      by_cases hun : u = n
      · -- the thread that holds up `t` is the one that was raised
        subst hun
        refine .inl ?_
        rw [heff t ht, heffn]
        exact Int.lt_of_le_of_lt h1 hlt
      · simp only [Before, heff t ht, heff u hun, hsp t ht, hsp u hun]
        exact h3 hst'

/-- The thread asleep on a lock, with what it has to do when it is woken. -/
def sleeper (s : Prio) (c l : Nat) : Prio :=
  ((s.setWaiters (.lock l) (s.waiters (.lock l) ++ [c])).setTodo c [.lockSleep l]).setStatus c
    .blocked

/-- A thread that runs or sleeps is in no ready list, so that a donation does
    not see the difference. -/
theorem donate_sleeper {n : Nat} (hc : s.status c ≠ .ready) :
    Same (donate (sleeper s c l) n p) (sleeper (donate s n p) c l) := by
  have hiff : (sleeper s c l).status n = .ready ↔ s.status n = .ready := by
    simp only [sleeper, Prio.setStatus, Prio.setTodo, Prio.setWaiters, update_apply]
    grind
  unfold donate
  by_cases hn : s.status n = .ready
  · rw [if_pos (hiff.mpr hn), if_pos hn]
    exact ⟨rfl, rfl, rfl, rfl, rfl, rfl, rfl, rfl, fun _ => rfl⟩
  · rw [if_neg (fun e => hn (hiff.mp e)), if_neg hn]
    exact ⟨rfl, rfl, rfl, rfl, rfl, rfl, rfl, rfl, fun _ => rfl⟩

/-- **THE DONATION** of a thread that falls asleep on a held lock. -/
theorem Ordered.lend {s' : Prio} {h : Nat} (hO : Ordered (some s.current) s)
    (hs : Shape (some s.current) s) (hw : s.waitingLock s.current = none)
    (hidle : s.current ≠ s.idle) (hh : s.holder l = some h)
    (hd : donateTo turns (s.setWaitingLock s.current (some l)) l = some s') :
    Ordered none (asleepOn s' s.current (.lock l)) := by
  have hs0 : Shape (some s.current) (s.setWaitingLock s.current (some l)) := hs.setWaitingLock
  have hw0 : (s.setWaitingLock s.current (some l)).waitingLock s.current = some l :=
    update_self ..
  -- the loop is followed with the running thread already asleep
  have hturn : ∀ s1 h1 n, Lent (s.setWaitingLock s.current (some l)) s1 →
      Shape (some s.current) s1 → Ordered none (sleeper s1 s.current l) →
      (s1.waitingLock h1).bind s1.holder = some n → s1.effPriority n < s1.effPriority h1 →
      Ordered none (sleeper (donate s1 n (s1.effPriority h1)) s.current l) := by
    intro s1 h1 n hl hsh hord hn hlt
    have hshape : Shape none (sleeper s1 s.current l) := by
      refine hsh.block (by rw [hl.idle]; exact hidle) ?_ (fun l' => by simp) nofun
      intro l'
      rw [hl.waitingLock, hw0]
      simp
    refine (hord.raise hshape hn hlt).same (donate_sleeper ?_)
    rw [hsh.running _ rfl]
    exact nofun
  have hstart : Ordered none (sleeper (s.setWaitingLock s.current (some l)) s.current l) :=
    ((hO.await hw).sleep hs0 hw0).same ⟨rfl, rfl, rfl, rfl, rfl, rfl, rfl, rfl, fun _ => rfl⟩
  have hfinal : Ordered none (sleeper s' s.current l) := by
    unfold donateTo at hd
    rw [show (s.setWaitingLock s.current (some l)).holder l = some h from hh] at hd
    simp only at hd
    split at hd
    · rename_i hlt
      have hfirst := hturn _ s.current h (Lent.refl _) hs0 hstart (by rw [hw0]; exact hh) hlt
      obtain ⟨_, ⟨_, _, hQ⟩, _⟩ := donateChain_rule (g := False)
        (Q := fun s1 _ => Lent (s.setWaitingLock s.current (some l)) s1 ∧
          Shape (some s.current) s1 ∧ Ordered none (sleeper s1 s.current l))
        (fun s1 h1 n hQ hn _ => by
          split
          · exact ⟨hQ.1.trans (lent_donate ..), hQ.2.1.donate,
              hturn s1 h1 n hQ.1 hQ.2.1 hQ.2.2 hn ‹_›⟩
          · exact hQ)
        ⟨lent_donate .., hs0.donate, hfirst⟩ False.elim hd
      exact hQ
    · obtain rfl := some.inj hd
      exact hstart
  exact hfinal.same ⟨rfl, rfl, rfl, rfl, rfl, rfl, rfl, rfl, fun _ => rfl⟩

end Moves

theorem ordered_rules : Rules False Ordered where
  same hs h := h.same hs
  reset holder' hs h hw hho hdue :=
    h.reset (fun _ => hs.not_waiter) hs.not_ready hw holder' hho hdue
  init hs h ht := h.init hs ht
  enqueued hs h ht hw _ := h.enter hs.ready_iff ht fun _ => hw
  doze hs h hw := h.setStatus _ (by rw [hs.running _ rfl]; exact nofun) nofun (.inr ⟨rfl, rfl, hw⟩)
  await _ h hw := h.await hw
  sleep hs h hw _ := h.sleep hs hw
  wake hs h ht hl hrun := h.wake hs ht hl hrun
  take _ h hl hw _ := h.take hl hw
  lend hs h hw hidle hh hd _ := h.lend hs hw hidle hh hd
  schedule hs h := h.schedule hs

/-! ## Nobody ready is ahead of the running thread -/

section Tops

variable {s s' : Prio} {l t : Nat}

theorem top_schedule (hO : InOrder s.effPriority s.stamp s.ready) : Top (schedule s) := by
  rcases schedule_cases s with ⟨hr, heq⟩ | ⟨t, r, hr, heq⟩
  · rw [heq]
    intro u hu
    have hu' : u ∈ s.ready := hu
    rw [hr] at hu'
    exact nomatch hu'
  · rw [heq]
    rw [hr] at hO
    exact fun u hu => (hO.head u hu).key_le

theorem Top.same (h : Top s) (hr : s'.ready = s.ready) (he : s'.effPriority = s.effPriority)
    (hc : s'.current = s.current) : Top s' := by
  unfold Top
  rw [hr, he, hc]
  exact h

section

variable (h : Awake Ordered s)

include h

theorem Awake.top_yield : Top (threadYield s) := by
  have hO := ordered_rules.enqueued h.shape h.inv h.shape.not_ready h.waits
    fun l => h.shape.not_waiter
  exact top_schedule hO.order

/-- Giving way to `t` is enough where nobody else can be ahead. -/
theorem Awake.top_yieldTo (hb : ∀ u ∈ s.ready, s.effPriority u ≤ s.effPriority s.current ∨
      s.effPriority u ≤ s.effPriority t) : Top (yieldTo s t) := by
  unfold yieldTo
  split
  · exact h.top_yield
  · rename_i hlt
    intro u hu
    rcases hb u hu with h1 | h1
    · exact h1
    · exact Int.le_trans h1 (Int.not_lt.mp hlt)

/-- The running thread is held up by its base priority or by a sleeper. -/
theorem Awake.attained : Attained s s.current := by
  rcases h.inv.att s.current with h1 | ⟨h1, _⟩
  · exact h1
  · exact absurd rfl h1

theorem top_setPriority (p : Int) : Top (threadSetPriority s p) := by
  have hA := ordered_rules.recompute h p
  have hord := hA.inv.order
  unfold threadSetPriority
  simp only
  split
  · rename_i hr
    intro u hu
    rw [show (Prio.setEff _ _ _).ready = [] from hr] at hu
    exact nomatch hu
  · rename_i front r hr
    refine Awake.top_yieldTo hA fun u hu => .inr ?_
    have hr' : s.ready = front :: r := hr
    rw [hr'] at hord hu
    rcases List.mem_cons.mp hu with rfl | hu
    · exact Int.le_refl _
    · exact (hord.head u hu).key_le

/-- A recomputation over all held locks lowers nothing. -/
theorem top_allocateTid (hT : Top s) : Top (allocateTid s) := by
  have hdue := effFromLocks_due (p := s.priority s.current) (h.shape.held_iff s.current)
  have hle : s.effPriority s.current ≤ effFromLocks s s.current (s.priority s.current) := by
    rcases h.attained with h1 | ⟨l, u, hl, hu, h1⟩
    · exact Int.le_trans h1 hdue.base
    · exact Int.le_trans h1 (hdue.waiter l u hl hu)
  intro u hu
  have huc : u ≠ s.current := by rintro rfl; exact h.shape.not_ready hu
  have hother : (allocateTid s).effPriority u = s.effPriority u := update_of_ne huc ..
  have hself : (allocateTid s).effPriority s.current =
      effFromLocks s s.current (s.priority s.current) := update_self ..
  rw [hother]
  exact Int.le_trans (Int.le_trans (hT u hu) hle) (Int.le_of_eq hself.symm)

theorem top_create (hT : Top s) (hc : threadCreate s t p = some s') : Top s' := by
  obtain ⟨hg, hc⟩ := ite_none_right_eq_some.mp hc
  obtain ⟨s1, hs1, rfl⟩ := map_eq_some_iff.mp hc
  obtain ⟨hb, rfl⟩ := threadUnblock_eq hs1
  have hA := ordered_rules.initThread h (p := p) hg.1
  have hT1 : Top (initThread s t p) := by
    have hne : ∀ u, s.status u ≠ .unused → u ≠ t := by
      rintro u hu rfl
      exact hu hg.1
    intro u hu
    have h1 := hne u (by rw [(h.shape.ready_iff u).mp hu]; exact nofun)
    have h2 := hne s.current (by rw [h.shape.running _ rfl]; exact nofun)
    have e1 : (initThread s t p).effPriority u = s.effPriority u := update_of_ne h1 ..
    have e2 : (initThread s t p).effPriority s.current = s.effPriority s.current :=
      update_of_ne h2 ..
    rw [e1]
    exact Int.le_trans (hT u hu) (Int.le_of_eq e2.symm)
  have hT2 := top_allocateTid hA hT1
  have hA2 := ordered_rules.allocateTid hA
  have hA3 := ordered_rules.admitted hA2 hb
    (fun e => h.shape.idle_used.1 ((congrArg s.status e).symm.trans hg.1))
    (update_self ..) (h.shape.not_waiter_of_unused hg.1)
  refine hA3.top_yieldTo fun u hu => ?_
  rcases mem_insertOrdered.mp hu with rfl | hu
  · exact .inr (Int.le_refl _)
  · exact .inl (hT2 u hu)

/-- `sema_up` makes up for ready threads that are behind one of the waiters. -/
theorem top_semaUp {m : Sema} (hfree : ∀ l, m = .lock l → s.holder l = none ∧ s.value m = 0)
    (hb : ∀ u ∈ s.ready, s.effPriority u ≤ s.effPriority s.current ∨
      ∃ w ∈ s.waiters m, s.effPriority u ≤ s.effPriority w)
    (hu : semaUp s m = some s') : Top s' := by
  unfold semaUp at hu
  split at hu
  · rename_i hmax
    obtain rfl := some.inj hu
    intro u hu
    rcases hb u hu with h1 | ⟨w, hw, _⟩
    · exact h1
    · rw [listMax_eq_none.mp hmax] at hw
      cases hw
  rename_i t hmax
  obtain ⟨s1, hs1, rfl⟩ := map_eq_some_iff.mp hu
  obtain ⟨_, rfl⟩ := threadUnblock_eq hs1
  have hA := ordered_rules.setValue (m := m) (v := s.value m + 1)
    (ordered_rules.woken h (listMax_mem hmax) fun l hl => (hfree l hl).1)
    fun l hl => ⟨by rw [(hfree l hl).2], fun hne => absurd (hfree l hl).1 hne⟩
  refine Awake.top_yieldTo hA fun u hu => ?_
  rcases mem_insertOrdered.mp hu with rfl | hu
  · exact .inr (Int.le_refl _)
  · rcases hb u hu with h1 | ⟨w, hw, h1⟩
    · exact .inl h1
    · exact .inr (Int.le_trans h1 (le_listMax hmax w hw))

/-- A drop of the running thread's effective priority in `lock_release` comes
    with a waiter of the released lock that is at least as far ahead. -/
theorem top_lockRelease (hT : Top s) (hr : lockRelease s l = some s') : Top s' := by
  obtain ⟨hl, hr⟩ := ite_none_right_eq_some.mp hr
  refine top_semaUp (ordered_rules.dropLock h hl) ?_ ?_ hr
  · rintro l' ⟨⟩
    exact ⟨update_self .., h.shape.value_held l _ hl⟩
  intro u hu
  have huc : u ≠ s.current := by rintro rfl; exact h.shape.not_ready hu
  have hother : ∀ v, v ≠ s.current → (dropLock s l).effPriority v = s.effPriority v :=
    fun v hv => update_of_ne hv ..
  have hdue := dropLock_due h.shape hl
  rw [hother u huc]
  have hle := hT u hu
  rcases h.attained with h1 | ⟨l', w, hl', hw, h1⟩
  · exact .inl (Int.le_trans hle (Int.le_trans h1 hdue.base))
  have hwc : w ≠ s.current := by rintro rfl; exact h.shape.not_waiter hw
  by_cases hll : l' = l
  · subst hll
    refine .inr ⟨w, hw, ?_⟩
    rw [hother w hwc]
    exact Int.le_trans hle h1
  · refine .inl (Int.le_trans hle (Int.le_trans h1 ?_))
    exact hdue.waiter l' w ((update_of_ne hll ..).trans hl') hw

end

/-- A thread that sleeps leaves the processor to the front of the list; one
    that does not changes no priority. -/
theorem top_semaDown {m : Sema} {i : Instr} (hO : InOrder s.effPriority s.stamp s.ready)
    (hT : Top s) : Top (semaDown s m i) := by
  unfold semaDown
  split
  · exact top_schedule hO
  · exact hT.same rfl rfl rfl

theorem top_lockSleep (hO : InOrder s.effPriority s.stamp s.ready) (hT : Top s) :
    Top (lockSleep s l) := by
  unfold lockSleep
  split
  · exact top_semaDown hO hT
  · refine (top_semaDown (m := .lock l) (i := .lockSleep l) hO hT).same rfl rfl ?_
    rfl

theorem top_lockAcquire (h : Awake Ordered s) (hT : Top s)
    (ha : lockAcquire turns s l = some s') : Top s' := by
  obtain ⟨-, ha⟩ := ite_none_left_eq_some.mp ha
  obtain ⟨s1, hd, rfl⟩ := map_eq_some_iff.mp ha
  rcases hh : s.holder l with _ | t
  · obtain rfl := donateTo_free hd hh
    exact top_lockSleep h.inv.order (hT.same rfl rfl rfl)
  · -- a donor always falls asleep
    have hO := (h.inv.lend h.shape h.waits h.idle hh hd).order
    have hv : s1.value (.lock l) = 0 := by
      rw [(lent_donateTo h.shape.setWaitingLock hd).1.value]
      exact h.shape.value_held l t hh
    unfold lockSleep semaDown
    rw [if_pos hv, if_pos hv]
    exact top_schedule hO

theorem top_lockTryAcquire (hT : Top s) (ha : lockTryAcquire s l = some s') : Top s' := by
  obtain ⟨-, ha⟩ := ite_none_left_eq_some.mp ha
  split at ha
  · rename_i hpos
    obtain rfl := some.inj ha
    unfold semaTryDown
    rw [if_pos hpos]
    exact hT.same rfl rfl rfl
  · obtain rfl := some.inj ha
    exact hT

theorem top_condPush {c : Nat} (hT : Top s) (hc : condPush s c l = some s') : Top s' := by
  obtain ⟨-, rfl⟩ := of_guard hc
  exact hT.same rfl rfl rfl

theorem top_condSignal {c : Nat} (hT : Top s) (hc : condSignal s c l = some s') : Top s' := by
  obtain ⟨-, hc⟩ := ite_none_right_eq_some.mp hc
  split at hc
  · obtain rfl := some.inj hc
    exact hT
  · obtain ⟨t, _, rfl⟩ := map_eq_some_iff.mp hc
    exact hT.same rfl rfl rfl

theorem top_perform {i : Instr} (h : Awake Ordered s) (hT : Top s)
    (hp : perform turns s i = some s') : Top s' := by
  cases i with
  | create t p => exact top_create h hT hp
  | yield => obtain rfl := some.inj hp; exact h.top_yield
  | setPriority p => obtain rfl := some.inj hp; exact top_setPriority h p
  | semaDown i => obtain rfl := some.inj hp; exact top_semaDown h.inv.order hT
  | semaTryDown i =>
    obtain rfl := some.inj hp
    unfold semaTryDown
    split
    · exact hT.same rfl rfl rfl
    · exact hT
  | semaUp i =>
    exact top_semaUp h (m := .user i) nofun (fun u hu => .inl (hT u hu)) hp
  | lockAcquire l => exact top_lockAcquire h hT hp
  | lockSleep l => obtain rfl := some.inj hp; exact top_lockSleep h.inv.order hT
  | lockTryAcquire l => exact top_lockTryAcquire hT hp
  | lockRelease l => exact top_lockRelease h hT hp
  | condPush c l => exact top_condPush hT hp
  | waiterDown => obtain rfl := some.inj hp; exact top_semaDown h.inv.order hT
  | condSignal c l => exact top_condSignal hT hp
  | waiterUp t =>
    exact top_semaUp h (m := .waiter t) nofun (fun u hu => .inl (hT u hu)) hp
  | condBroadcast c l =>
    obtain rfl := some.inj hp
    unfold condBroadcast
    split
    · exact hT
    · exact hT.same rfl rfl rfl

/-- **ONE STEP** leaves no ready thread ahead of the running one. -/
theorem top_step {a : Step} (h : Keeps Ordered s) (hT : Top s) (ha : step s a = some s') :
    Top s' := by
  obtain ⟨hidle, ⟨op, rfl, htodo, rfl⟩ | ⟨turns, i, is, rfl, htodo, hp⟩⟩ := step_cases ha
  · exact hT.same rfl rfl rfl
  · have hT1 : Top (s.setTodo s.current is) := hT.same rfl rfl rfl
    by_cases hi : ∃ l, i = .lockSleep l
    · obtain ⟨l, rfl⟩ := hi
      obtain rfl := some.inj hp
      exact top_lockSleep h.inv.order hT1
    · have hA := ordered_rules.awake_popped h hidle htodo fun l e => hi ⟨l, e⟩
      exact top_perform hA hT1 hp

end Tops

/-! ## Every run -/

theorem booted_ordered (values : Nat → Nat) : Ordered (some 1) (booted values) where
  order := List.Pairwise.nil
  stamps := nofun
  att := fun _ => .inl (.inl (Int.le_refl _))

/-- **STRICT PRIORITY**: in every run, in every state reached, the ready list is
    sorted by non-increasing effective priority, with the threads of equal
    effective priority in the order in which they were put there, and whenever
    the running thread is inside of no call, no ready thread has a larger
    effective priority than it. -/
theorem strict_priority (values : Nat → Nat) (as : List Step) (s : Prio)
    (h : exec step (booted values) as = some s) :
    InOrder s.effPriority s.stamp s.ready ∧
      (s.todo s.current = [] → ∀ u ∈ s.ready, s.effPriority u ≤ s.effPriority s.current) := by
  have hstep : ∀ s a s', Keeps Ordered s ∧ Top s → step s a = some s' →
      Keeps Ordered s' ∧ Top s' :=
    fun s a s' hI ha => ⟨ordered_rules.step hI.1 False.elim ha, top_step hI.1 hI.2 ha⟩
  have hboot : Keeps Ordered (booted values) ∧ Top (booted values) :=
    ⟨booted_keeps (booted_ordered values), nofun⟩
  obtain ⟨hK, hT⟩ := exec_inv_all hstep hboot h
  exact ⟨hK.inv.order, fun _ => hT⟩

/-- Two threads of priority 20 wait behind the initial thread in the order of
    their creation. -/
theorem strict_priority_twoReady :
    ∃ s, exec step (booted fun _ => 0)
        [.call (.threadCreate 3 20), .go 0, .call (.threadCreate 4 20), .go 0] = some s ∧
      s.ready = [3, 4] ∧ InOrder s.effPriority s.stamp s.ready ∧
      ∀ u ∈ s.ready, s.effPriority u ≤ s.effPriority s.current := by
  have h := strict_priority (fun _ => 0)
    [.call (.threadCreate 3 20), .go 0, .call (.threadCreate 4 20), .go 0] _ rfl
  exact ⟨_, rfl, by decide, h.1, h.2 (by decide)⟩

end MavPrio
