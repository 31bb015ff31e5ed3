import Mathlib

/-! # Threads that take locks — programs, their steps, and a lock discipline

A program is a tree of lock operations with changes of the shared data between them; threads run one
program each, and every acquisition, release and change of the data is one step that any other
thread's step may come between. Nothing here says what the data or the locks are.

The discipline is checked on one program at a time, with the locks it holds as a stack of grips (the
lock and the place in the code that took it):

* a lock is asked for only from grips that may ask for it (`May`), never from a grip on the same
lock;
* locks are given back in the reverse order;
* a change of the data made without a lock keeps what that lock protects (`Keeps`), so the holder of
the lock may count on it.

`Safe` is that check, `Takes` is its form for a program whose grips do not depend on the data, and
`Sound` is what every run of checked programs keeps: whoever waits for a lock may ask for it from
everything it holds. -/

namespace MavLock

open List Option
open Function (update update_self update_of_ne)

variable {σ ℓ κ π α β : Type}

/-! ## Programs -/

/-- A program over data `σ`, locks `ℓ`, places in the code `κ` and procedures `π`. -/
inductive Prog (σ ℓ κ π α : Type) where
  | ret (a : α)
  /-- an assertion failed, or freed memory is read: the thread goes no further -/
  | halt
  | acquire (l : ℓ) (site : κ) (k : Prog σ ℓ κ π α)
  | release (l : ℓ) (k : Prog σ ℓ κ π α)
  /-- one uninterrupted change of the data; the rest depends on the data before the change -/
  | act (f : σ → σ) (k : σ → Prog σ ℓ κ π α)
  | call (q : π) (k : Prog σ ℓ κ π α)

namespace Prog

/-- One program after another. -/
def bind : Prog σ ℓ κ π α → (α → Prog σ ℓ κ π β) → Prog σ ℓ κ π β
  | .ret a, g => g a
  | .halt, _ => .halt
  | .acquire l c k, g => .acquire l c (k.bind g)
  | .release l k, g => .release l (k.bind g)
  | .act f k, g => .act f fun s => (k s).bind g
  | .call q k, g => .call q (k.bind g)

instance : Monad (Prog σ ℓ κ π) where
  pure := .ret
  bind := .bind

/-- Look at the data. -/
def inspect (f : σ → α) : Prog σ ℓ κ π α := .act id fun s => .ret (f s)

/-- Change the data. -/
def update (f : σ → σ) : Prog σ ℓ κ π Unit := .act f fun _ => .ret ()

/-- Change the data and answer. -/
def atomically (f : σ → α × σ) : Prog σ ℓ κ π α := .act (fun s => (f s).2) fun s => .ret (f s).1

/-- A change that may fail; the program stops there. -/
def attempt (f : σ → Option (α × σ)) : Prog σ ℓ κ π α :=
  .act (fun s => ((f s).map Prod.snd).getD s) fun s =>
    match f s with
    | none => .halt
    | some (a, _) => .ret a

/-- Run a procedure. -/
def invoke (q : π) : Prog σ ℓ κ π Unit := .call q (.ret ())

/-- A section under a lock. -/
def holding (l : ℓ) (site : κ) (x : Prog σ ℓ κ π α) : Prog σ ℓ κ π α :=
  .acquire l site (x.bind fun a => .release l (.ret a))

/-- A stretch of a section for which the lock is given back. -/
def apart (l : ℓ) (site : κ) (x : Prog σ ℓ κ π α) : Prog σ ℓ κ π α :=
  .release l (x.bind fun a => .acquire l site (.ret a))

end Prog

/-! ## Threads and their steps -/

/-- A thread: what it still has to run, and the locks it holds, the last one first. -/
structure Thread (σ ℓ κ π : Type) where
  code : Prog σ ℓ κ π Unit
  grips : List (ℓ × κ)

/-- The data, the locks with their holders and the threads waiting for them, and the threads. -/
structure State (σ ℓ κ π τ : Type) where
  data : σ
  holder : ℓ → Option τ
  waiters : ℓ → List τ
  thread : τ → Thread σ ℓ κ π

variable {τ : Type}

/-- One step of thread `t`. A lock that is held puts the thread among its waiters, where it stays
    until it gets the lock; a lock the thread holds itself is refused. -/
def run [DecidableEq ℓ] [DecidableEq τ] (body : π → Prog σ ℓ κ π Unit) (s : State σ ℓ κ π τ)
    (t : τ) : Option (State σ ℓ κ π τ) :=
  match (s.thread t).code with
  | .ret _ => none
  | .halt => none
  | .acquire l c k =>
    match s.holder l with
    | none => some { s with
        holder := update s.holder l (some t)
        waiters := update s.waiters l ((s.waiters l).filter (· ≠ t))
        thread := update s.thread t ⟨k, (l, c) :: (s.thread t).grips⟩ }
    | some t' =>
      if t' = t ∨ t ∈ s.waiters l then none
      else some { s with waiters := update s.waiters l (s.waiters l ++ [t]) }
  | .release l k => some { s with
      holder := update s.holder l none
      thread := update s.thread t ⟨k, (s.thread t).grips.eraseP (·.1 = l)⟩ }
  | .act f k => some { s with
      data := f s.data
      thread := update s.thread t ⟨k s.data, (s.thread t).grips⟩ }
  | .call q k => some { s with
      thread := update s.thread t ⟨(body q).bind fun _ => k, (s.thread t).grips⟩ }

/-- A thread with nothing to run gets a program. -/
def start [DecidableEq τ] (s : State σ ℓ κ π τ) (t : τ) (p : Prog σ ℓ κ π Unit) :
    Option (State σ ℓ κ π τ) :=
  match (s.thread t).code with
  | .ret _ => some { s with thread := update s.thread t ⟨p, (s.thread t).grips⟩ }
  | _ => none

/-- A set of threads each of which waits for a lock that one of the set holds. -/
def Deadlocked (s : State σ ℓ κ π τ) (D : τ → Prop) : Prop :=
  (∃ t, D t) ∧ ∀ t, D t → ∃ l t', t ∈ s.waiters l ∧ s.holder l = some t' ∧ D t'

/-! ## The discipline -/

/-- What the programs of a system have to observe. -/
structure Rules (σ ℓ κ π : Type) where
  /-- with the first grip in hand, the second may be asked for -/
  May : ℓ × κ → ℓ × κ → Prop
  /-- what a change made without the lock keeps -/
  Keeps : ℓ → σ → σ → Prop
  /-- the grips with which a procedure is called -/
  Callable : π → List (ℓ × κ) → Prop
  may_ne : ∀ {h g}, May h g → h.1 ≠ g.1
  keeps_refl : ∀ l s, Keeps l s s
  keeps_trans : ∀ {l s s' s''}, Keeps l s s' → Keeps l s' s'' → Keeps l s s''

variable {P : Rules σ ℓ κ π} {H H' G : List (ℓ × κ)} {s s' : σ}

namespace Rules

/-- What the others may do to the data of a thread with grips `H`. -/
def Rely (P : Rules σ ℓ κ π) (H : List (ℓ × κ)) (s s' : σ) : Prop :=
  ∀ h ∈ H, P.Keeps h.1 s s'

/-- What a thread with grips `H` may do to the data. -/
def Guar (P : Rules σ ℓ κ π) (H : List (ℓ × κ)) (s s' : σ) : Prop :=
  ∀ l, (∀ h ∈ H, h.1 ≠ l) → P.Keeps l s s'

theorem rely_refl (P : Rules σ ℓ κ π) (H : List (ℓ × κ)) (s : σ) : P.Rely H s s :=
  fun h _ => P.keeps_refl h.1 s

theorem Rely.trans {s'' : σ} (h : P.Rely H s s') (h' : P.Rely H s' s'') : P.Rely H s s'' :=
  fun g hg => P.keeps_trans (h g hg) (h' g hg)

theorem guar_refl (P : Rules σ ℓ κ π) (H : List (ℓ × κ)) (s : σ) : P.Guar H s s :=
  fun l _ => P.keeps_refl l s

/-- What one thread may do is what another one counts on. -/
theorem Guar.rely (h : P.Guar H s s') (hd : ∀ g ∈ G, ∀ k ∈ H, k.1 ≠ g.1) : P.Rely G s s' :=
  fun g hg => h g.1 (hd g hg)

end Rules

/-- A program that starts with grips `H` and data `s` observes the rules, whatever
    the others do in between, and ends as `Q` says. -/
def Safe (P : Rules σ ℓ κ π) : Prog σ ℓ κ π α → (α → List (ℓ × κ) → σ → Prop) →
    List (ℓ × κ) → σ → Prop
  | .ret a, Q, H, s => ∀ s', P.Rely H s s' → Q a H s'
  | .halt, _, _, _ => True
  | .acquire l c k, Q, H, s =>
    (∀ h ∈ H, P.May h (l, c)) ∧ ∀ s', P.Rely H s s' → Safe P k Q ((l, c) :: H) s'
  | .release l k, Q, H, s =>
    ∃ c H', H = (l, c) :: H' ∧ ∀ s', P.Rely H s s' → Safe P k Q H' s'
  | .act f k, Q, H, s =>
    ∀ s', P.Rely H s s' → P.Guar H s' (f s') ∧ Safe P (k s') Q H (f s')
  | .call q k, Q, H, _ => P.Callable q H ∧ ∀ s', Safe P k Q H s'

variable {Q : α → List (ℓ × κ) → σ → Prop} {k : Prog σ ℓ κ π Unit}

/-- What the others do does not make a program unsafe. -/
theorem Safe.rely {p : Prog σ ℓ κ π α} (h : Safe P p Q H s)
    (hr : P.Rely H s s') : Safe P p Q H s' := by
  cases p with
  | ret a => exact fun s'' hr' => h s'' (hr.trans hr')
  | halt => exact trivial
  | acquire l c k => exact ⟨h.1, fun s'' hr' => h.2 s'' (hr.trans hr')⟩
  | release l k =>
    obtain ⟨c, H', hH, hk⟩ := h
    exact ⟨c, H', hH, fun s'' hr' => hk s'' (hr.trans hr')⟩
  | act f k => exact fun s'' hr' => h s'' (hr.trans hr')
  | call q k => exact h

/-- **SEQUENCE RULE**. -/
theorem Safe.bind {x : Prog σ ℓ κ π α} {g : α → Prog σ ℓ κ π β} {Q' : β → List (ℓ × κ) → σ → Prop}
    (hx : Safe P x Q H s) (hg : ∀ a H' s', Q a H' s' → Safe P (g a) Q' H' s') :
    Safe P (x.bind g) Q' H s := by
  induction x generalizing H s with
  | ret a => exact hg a H s (hx s (P.rely_refl H s))
  | halt => exact trivial
  | acquire l c k ih => exact ⟨hx.1, fun s' hr => ih (hx.2 s' hr)⟩
  | release l k ih =>
    obtain ⟨c, H', hH, hk⟩ := hx
    exact ⟨c, H', hH, fun s' hr => ih (hk s' hr)⟩
  | act f k ih => exact fun s' hr => ⟨(hx s' hr).1, ih s' (hx s' hr).2⟩
  | call q k ih => exact ⟨hx.1, fun s' => ih (hx.2 s')⟩

/-- What was seen may be out of date when the program goes on. -/
theorem safe_inspect {f : σ → α}
    (h : ∀ s', P.Rely H s s' → ∀ s'', P.Rely H s' s'' → Q (f s') H s'') :
    Safe P (Prog.inspect f) Q H s :=
  fun s' hr => ⟨P.guar_refl H s', h s' hr⟩

/-- The program turns grips `H` into grips `H'`, whatever the data. -/
def Takes (P : Rules σ ℓ κ π) (H : List (ℓ × κ)) (x : Prog σ ℓ κ π α) (H' : List (ℓ × κ)) : Prop :=
  ∀ s, Safe P x (fun _ G _ => G = H') H s

section Takes

variable {x : Prog σ ℓ κ π α} {g : α → Prog σ ℓ κ π β} {l : ℓ} {c : κ}

theorem takes_pure (a : α) : Takes P H (pure a : Prog σ ℓ κ π α) H := fun _ _ _ => rfl

theorem takes_halt : Takes P H (.halt : Prog σ ℓ κ π α) H' := fun _ => trivial

theorem Takes.bind (hx : Takes P H x H') (hg : ∀ a, Takes P H' (g a) G) :
    Takes P H (x >>= g) G := by
  intro s
  refine (hx s).bind fun a H'' s' hH => ?_
  rw [hH]
  exact hg a s'

/-- **BRANCH RULE**: each answer is checked on its own. -/
theorem Takes.bindBool {x : Prog σ ℓ κ π Bool} {g : Bool → Prog σ ℓ κ π β} (hx : Takes P H x H')
    (hfalse : Takes P H' (g false) G) (htrue : Takes P H' (g true) G) : Takes P H (x >>= g) G := by
  refine hx.bind fun b => ?_
  cases b with
  | false => exact hfalse
  | true => exact htrue

theorem Takes.bindOption {x : Prog σ ℓ κ π (Option α)} {g : Option α → Prog σ ℓ κ π β}
    (hx : Takes P H x H') (hnone : Takes P H' (g none) G) (hsome : ∀ a, Takes P H' (g (some a)) G) :
    Takes P H (x >>= g) G := by
  refine hx.bind fun o => ?_
  cases o with
  | none => exact hnone
  | some a => exact hsome a

theorem takes_act {f : σ → σ} {k : σ → Prog σ ℓ κ π α} (hf : ∀ s, P.Guar H s (f s))
    (hk : ∀ s, Takes P H (k s) H') : Takes P H (.act f k) H' :=
  fun _ s' _ => ⟨hf s', hk s' (f s')⟩

theorem takes_inspect (f : σ → α) : Takes P H (Prog.inspect f) H :=
  takes_act (fun s => P.guar_refl H s) fun s => takes_pure (f s)

theorem takes_update {f : σ → σ} (hf : ∀ s, P.Guar H s (f s)) : Takes P H (Prog.update f) H :=
  takes_act hf fun _ => takes_pure ()

theorem takes_atomically {f : σ → α × σ} (hf : ∀ s, P.Guar H s (f s).2) :
    Takes P H (Prog.atomically f) H :=
  takes_act hf fun s => takes_pure (f s).1

theorem takes_attempt {f : σ → Option (α × σ)}
    (hf : ∀ s a s', f s = some (a, s') → P.Guar H s s') : Takes P H (Prog.attempt f) H := by
  refine takes_act (fun s => ?_) fun s => ?_
  · cases hs : f s with
    | none => exact P.guar_refl H s
    | some r => exact hf s r.1 r.2 hs
  · cases f s with
    | none => exact takes_halt
    | some r => exact takes_pure r.1

theorem takes_invoke {q : π} (hq : P.Callable q H) : Takes P H (Prog.invoke q) H :=
  fun _ => ⟨hq, fun s' => takes_pure () s'⟩

/-- **SECTION RULE**: a section gives back the lock it took. -/
theorem Takes.holding (hl : ∀ h ∈ H, P.May h (l, c)) (hx : Takes P ((l, c) :: H) x ((l, c) :: H)) :
    Takes P H (Prog.holding l c x) H := by
  intro s
  refine ⟨hl, fun s' _ => (hx s').bind fun a H' s'' hH => ?_⟩
  exact ⟨c, H, hH, fun s''' _ => takes_pure a s'''⟩

/-- A stretch without the lock is checked without the lock. -/
theorem Takes.apart (hl : ∀ h ∈ H, P.May h (l, c)) (hx : Takes P H x H) :
    Takes P ((l, c) :: H) (Prog.apart l c x) ((l, c) :: H) := by
  intro s
  refine ⟨c, H, rfl, fun s' _ => (hx s').bind fun a H' s'' hH => ?_⟩
  rw [hH]
  exact ⟨hl, fun s''' _ => takes_pure a s'''⟩

end Takes

/-! ## Runs of checked programs -/

/-- Every thread runs a safe program, and the three views of a lock (its holder,
    its waiters, the threads' grips) agree. -/
structure Sound (P : Rules σ ℓ κ π) (s : State σ ℓ κ π τ) : Prop where
  safe : ∀ t, Safe P (s.thread t).code (fun _ H _ => H = []) (s.thread t).grips s.data
  held : ∀ l t, s.holder l = some t ↔ l ∈ (s.thread t).grips.map Prod.fst
  nodup : ∀ t, ((s.thread t).grips.map Prod.fst).Nodup
  waits : ∀ l t, t ∈ s.waiters l → ∃ c k, (s.thread t).code = .acquire l c k

variable {m m' : State σ ℓ κ π τ} {t u : τ} {l : ℓ} {c : κ}

/-- Whoever asks for a lock may do so from everything it holds. -/
theorem Sound.may (h : Sound P m) (hc : (m.thread t).code = .acquire l c k) :
    ∀ g ∈ (m.thread t).grips, P.May g (l, c) := by
  have hs := h.safe t
  rw [hc] at hs
  exact hs.1

theorem Sound.grip (h : Sound P m) (hl : m.holder l = some t) : ∃ c, (l, c) ∈ (m.thread t).grips := by
  obtain ⟨⟨l', c⟩, hg, hl'⟩ := mem_map.mp ((h.held l t).mp hl)
  exact ⟨c, hl' ▸ hg⟩

/-- No thread asks for a lock it holds. -/
theorem Sound.not_held (h : Sound P m)
    (hc : (m.thread t).code = .acquire l c k) : m.holder l ≠ some t := by
  intro hl
  obtain ⟨c', hg⟩ := h.grip hl
  exact P.may_ne (h.may hc _ hg) rfl

/-- Two threads hold different locks. -/
theorem Sound.apart (h : Sound P m) (htu : u ≠ t) :
    ∀ g ∈ (m.thread u).grips, ∀ k ∈ (m.thread t).grips, k.1 ≠ g.1 := by
  intro g hg k hk heq
  have hu := (h.held g.1 u).mpr (mem_map_of_mem hg)
  have ht := (h.held k.1 t).mpr (mem_map_of_mem hk)
  rw [heq, hu] at ht
  exact htu (some.inj ht)

/-- A thread that is not at an acquisition waits for nothing. -/
theorem Sound.not_waiting (h : Sound P m)
    (hc : ∀ l c k, (m.thread t).code ≠ .acquire l c k) : ∀ l, t ∉ m.waiters l := by
  intro l hl
  obtain ⟨c, k, hk⟩ := h.waits l t hl
  exact hc l c k hk

section Steps

variable [DecidableEq τ]

/-- One thread goes on with another program and other grips: the holders and
    waiters have to agree for it and stay as they are for the rest. -/
theorem Sound.setThread (h : Sound P m) {p : Prog σ ℓ κ π Unit} {H : List (ℓ × κ)} {d : σ}
    {holder : ℓ → Option τ} {waiters : ℓ → List τ} (hp : Safe P p (fun _ H _ => H = []) H d)
    (hd : P.Guar (m.thread t).grips m.data d) (hnd : (H.map Prod.fst).Nodup)
    (hself : ∀ l, holder l = some t ↔ l ∈ H.map Prod.fst)
    (hother : ∀ l u, u ≠ t → (holder l = some u ↔ m.holder l = some u))
    (hw : ∀ l u, u ∈ waiters l → u ∈ m.waiters l ∧ u ≠ t) :
    Sound P ⟨d, holder, waiters, update m.thread t ⟨p, H⟩⟩ := by
  refine ⟨fun u => ?_, fun l u => ?_, fun u => ?_, fun l u hl => ?_⟩
  · by_cases hu : u = t
    · simp only [hu, update_self]
      exact hp
    · simp only [update_of_ne hu]
      exact (h.safe u).rely (hd.rely (h.apart hu))
  · by_cases hu : u = t
    · simp only [hu, update_self]
      exact hself l
    · simp only [update_of_ne hu]
      exact (hother l u hu).trans (h.held l u)
  · by_cases hu : u = t
    · simp only [hu, update_self]
      exact hnd
    · simp only [update_of_ne hu]
      exact h.nodup u
  · simp only [update_of_ne (hw l u hl).2]
    exact h.waits l u (hw l u hl).1

/-- A thread whose grips stay: only the other threads' view of the data has to be looked at. -/
theorem Sound.setCode (h : Sound P m) {p : Prog σ ℓ κ π Unit} {d : σ}
    (hp : Safe P p (fun _ H _ => H = []) (m.thread t).grips d)
    (hd : P.Guar (m.thread t).grips m.data d) (hw : ∀ l, t ∉ m.waiters l) :
    Sound P { m with
      data := d
      thread := update m.thread t ⟨p, (m.thread t).grips⟩ } :=
  h.setThread hp hd (h.nodup t) (h.held · t) (fun _ _ _ => Iff.rfl)
    fun l _ hl => ⟨hl, fun e => hw l (e ▸ hl)⟩

omit [DecidableEq τ] in
/-- A change of the data by nobody, that every thread can count on. -/
theorem Sound.disturb (h : Sound P m) {d : σ} (hd : ∀ l, P.Keeps l m.data d) :
    Sound P { m with data := d } :=
  { h with safe := fun t => (h.safe t).rely fun g _ => hd g.1 }

/-- A checked program is started. -/
theorem Sound.start {p : Prog σ ℓ κ π Unit} (hp : Takes P [] p []) (h : Sound P m)
    (hr : MavLock.start m t p = some m') : Sound P m' := by
  have hs := h.safe t
  unfold MavLock.start at hr
  cases hc : (m.thread t).code with
  | ret a =>
    rw [hc] at hs hr
    rw [← some.inj hr]
    -- the program before it ended with no lock in hand
    have hempty : (m.thread t).grips = [] := hs m.data (P.rely_refl _ _)
    refine h.setCode (d := m.data) ?_ (P.guar_refl _ _)
      (h.not_waiting fun l c k' hk' => by rw [hc] at hk'; cases hk')
    rw [hempty]
    exact hp m.data
  | halt | acquire l c k | release l k | act f k | call q k => rw [hc] at hr; exact nomatch hr

variable [DecidableEq ℓ]

/-- A free lock is taken. -/
theorem Sound.take (h : Sound P m)
    (hc : (m.thread t).code = .acquire l c k) (hl : m.holder l = none) :
    Sound P { m with
      holder := update m.holder l (some t)
      waiters := update m.waiters l ((m.waiters l).filter (· ≠ t))
      thread := update m.thread t ⟨k, (l, c) :: (m.thread t).grips⟩ } := by
  have hs := h.safe t
  rw [hc] at hs
  have hfree : ∀ u, l ∉ (m.thread u).grips.map Prod.fst := by
    intro u hu
    have := (h.held l u).mpr hu
    rw [hl] at this
    exact nomatch this
  refine h.setThread (hs.2 m.data (P.rely_refl _ _)) (P.guar_refl _ _)
    (nodup_cons.mpr ⟨hfree t, h.nodup t⟩) (fun l' => ?_) (fun l' u hu => ?_) fun l' u hw => ?_
  · by_cases hl' : l' = l
    · simp [hl']
    · simp only [update_of_ne hl', map_cons, mem_cons, hl', false_or]
      exact h.held l' t
  · by_cases hl' : l' = l
    · rw [hl', update_self, hl]
      exact ⟨fun e => absurd (some.inj e).symm hu, nofun⟩
    · rw [update_of_ne hl']
  · -- the thread that got the lock is no longer among its waiters
    by_cases hl' : l' = l
    · subst hl'
      simp only [update_self, mem_filter, decide_eq_true_eq] at hw
      exact hw
    · simp only [update_of_ne hl'] at hw
      refine ⟨hw, fun e => ?_⟩
      subst e
      obtain ⟨c', k', hk'⟩ := h.waits l' u hw
      rw [hc] at hk'
      cases hk'
      exact hl' rfl

omit [DecidableEq τ] in
/-- A lock that is held makes the thread wait. -/
theorem Sound.wait (h : Sound P m) (hc : (m.thread t).code = .acquire l c k) :
    Sound P { m with waiters := update m.waiters l (m.waiters l ++ [t]) } := by
  refine { h with waits := fun l' u hw => ?_ }
  by_cases hl' : l' = l
  · subst hl'
    simp only [update_self, mem_append, mem_singleton] at hw
    rcases hw with hw | hw
    · exact h.waits l' u hw
    · rw [hw]
      exact ⟨c, k, hc⟩
  · simp only [update_of_ne hl'] at hw
    exact h.waits l' u hw

/-- The lock taken last is given back. -/
theorem Sound.give (h : Sound P m) (hc : (m.thread t).code = .release l k) : Sound P { m with
      holder := update m.holder l none
      thread := update m.thread t ⟨k, (m.thread t).grips.eraseP (·.1 = l)⟩ } := by
  have hs := h.safe t
  rw [hc] at hs
  obtain ⟨c, H', hH, hk⟩ := hs
  have hnd := h.nodup t
  rw [hH, map_cons, nodup_cons] at hnd
  have herase : (m.thread t).grips.eraseP (·.1 = l) = H' := by
    rw [hH]
    simp
  have hself : m.holder l = some t := (h.held l t).mpr (by rw [hH]; simp)
  rw [herase]
  refine h.setThread (hk m.data (P.rely_refl _ _)) (P.guar_refl _ _) hnd.2 (fun l' => ?_)
    (fun l' u hu => ?_) fun l' u hw => ⟨hw, fun e =>
      h.not_waiting (fun l c k' hk' => by rw [hc] at hk'; cases hk') l' (e ▸ hw)⟩
  · by_cases hl' : l' = l
    · rw [hl', update_self]
      exact ⟨nofun, fun e => absurd e hnd.1⟩
    · rw [update_of_ne hl', h.held l' t, hH, map_cons, mem_cons]
      exact ⟨fun e => e.resolve_left hl', .inr⟩
  · by_cases hl' : l' = l
    · rw [hl', update_self, hself]
      exact ⟨nofun, fun e => absurd (some.inj e).symm hu⟩
    · rw [update_of_ne hl']

/-- What a step did, by the operation the thread was at. -/
theorem run_cases {body : π → Prog σ ℓ κ π Unit} (h : run body m t = some m') :
    (∃ l c k, (m.thread t).code = .acquire l c k ∧ m.holder l = none ∧ m' = { m with
      holder := update m.holder l (some t)
      waiters := update m.waiters l ((m.waiters l).filter (· ≠ t))
      thread := update m.thread t ⟨k, (l, c) :: (m.thread t).grips⟩ }) ∨
    (∃ l c k f, (m.thread t).code = .acquire l c k ∧ m.holder l = some f ∧ m' = { m with
      waiters := update m.waiters l (m.waiters l ++ [t]) }) ∨
    (∃ l k, (m.thread t).code = .release l k ∧ m' = { m with
      holder := update m.holder l none
      thread := update m.thread t ⟨k, (m.thread t).grips.eraseP (·.1 = l)⟩ }) ∨
    (∃ f k, (m.thread t).code = .act f k ∧ m' = { m with
      data := f m.data
      thread := update m.thread t ⟨k m.data, (m.thread t).grips⟩ }) ∨
    (∃ q k, (m.thread t).code = .call q k ∧ m' = { m with
      thread := update m.thread t ⟨(body q).bind fun _ => k, (m.thread t).grips⟩ }) := by
  unfold run at h
  cases hc : (m.thread t).code <;> rw [hc] at h
  case ret | halt => exact nomatch h
  case acquire l c k =>
    dsimp only at h
    split at h
    · next hl => exact .inl ⟨l, c, k, rfl, hl, (some.inj h).symm⟩
    · next f hl =>
      exact .inr (.inl ⟨l, c, k, f, rfl, hl, (some.inj (ite_none_left_eq_some.mp h).2).symm⟩)
  case release l k => exact .inr (.inr (.inl ⟨l, k, rfl, (some.inj h).symm⟩))
  case act f k => exact .inr (.inr (.inr (.inl ⟨f, k, rfl, (some.inj h).symm⟩)))
  case call q k => exact .inr (.inr (.inr (.inr ⟨q, k, rfl, (some.inj h).symm⟩)))

/-- **DISCIPLINE**: a step of any thread leaves a sound state sound, when every
    procedure observes the rules from the grips it is called with. -/
theorem Sound.step {body : π → Prog σ ℓ κ π Unit}
    (hbody : ∀ q H, P.Callable q H → Takes P H (body q) H) (h : Sound P m)
    (hr : run body m t = some m') : Sound P m' := by
  have hs := h.safe t
  rcases run_cases hr with ⟨l, c, k, hc, hl, rfl⟩ | ⟨l, c, k, f, hc, hl, rfl⟩ | ⟨l, k, hc, rfl⟩ |
    ⟨f, k, hc, rfl⟩ | ⟨q, k, hc, rfl⟩
  · exact h.take hc hl
  · exact h.wait hc
  · exact h.give hc
  · rw [hc] at hs
    obtain ⟨hf, hk⟩ := hs m.data (P.rely_refl _ _)
    exact h.setCode hk hf (h.not_waiting fun l c k' hk' => by rw [hc] at hk'; cases hk')
  · rw [hc] at hs
    refine h.setCode ?_ (P.guar_refl _ _)
      (h.not_waiting fun l c k' hk' => by rw [hc] at hk'; cases hk')
    refine (hbody q _ hs.1 m.data).bind fun _ G s' hG => ?_
    rw [hG]
    exact hs.2 s'

end Steps

/-! ## Deadlocked sets -/

/-- In a deadlocked set somebody holds a lock and waits for another, and may do so. -/
theorem Sound.link (h : Sound P m) {D : τ → Prop} (hD : Deadlocked m D) (ht : D t)
    (hl : m.holder l = some t) :
    ∃ c l' c' u, (l, c) ∈ (m.thread t).grips ∧ P.May (l, c) (l', c') ∧
      (∃ k, (m.thread t).code = .acquire l' c' k) ∧ t ∈ m.waiters l' ∧
      m.holder l' = some u ∧ D u := by
  obtain ⟨c, hg⟩ := h.grip hl
  obtain ⟨l', u, hw, hu, hDu⟩ := hD.2 t ht
  obtain ⟨c', k, hc⟩ := h.waits l' t hw
  exact ⟨c, l', c', u, hg, h.may hc _ hg, ⟨k, hc⟩, hw, hu, hDu⟩

/-- A thread waits for one lock. -/
theorem Sound.waits_one (h : Sound P m) {l' : ℓ} (hl : t ∈ m.waiters l) (hl' : t ∈ m.waiters l') :
    l = l' := by
  obtain ⟨c, k, hc⟩ := h.waits l t hl
  obtain ⟨c', k', hc'⟩ := h.waits l' t hl'
  rw [hc] at hc'
  cases hc'
  rfl

/-- Of the locks a deadlocked set waits for, one is highest in any bounded ranking. -/
theorem Sound.highest (h : Sound P m) {D : τ → Prop} (hD : Deadlocked m D) (rank : ℓ → Nat) (n : Nat)
    (hn : ∀ l, rank l ≤ n) :
    ∃ l u, m.holder l = some u ∧ D u ∧ ∀ t l', D t → t ∈ m.waiters l' → rank l' ≤ rank l := by
  by_contra hno
  -- without a highest one there are waited locks of every rank
  have climb : ∀ i, ∃ t l, D t ∧ t ∈ m.waiters l ∧ i ≤ rank l := by
    intro i
    induction i with
    | zero =>
      obtain ⟨t, ht⟩ := hD.1
      obtain ⟨l, _, hl, _, _⟩ := hD.2 t ht
      exact ⟨t, l, ht, hl, Nat.zero_le _⟩
    | succ i ih =>
      by_contra hi
      obtain ⟨t, l, ht, hl, hil⟩ := ih
      obtain ⟨l1, u, hl1, hu, hDu⟩ := hD.2 t ht
      cases h.waits_one hl hl1
      refine hno ⟨l, u, hu, hDu, fun t' l' ht' hl' => ?_⟩
      by_contra hlt
      exact hi ⟨t', l', ht', hl', by omega⟩
  obtain ⟨_, l, _, _, hl⟩ := climb (n + 1)
  exact absurd (hn l) (Nat.not_le_of_lt hl)

end MavLock
