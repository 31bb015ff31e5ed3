import Mathlib

/-! # Runs of a stepping system

A system is a partial step function: `step s i` is the state after label `i` (an operation, a
thread's atomic section), or `none` when the label cannot be taken in `s`. A run is a list of
labels. The rules here are the ones every development over runs needs: an invariant kept by one
step is kept by a run, also when the steps have to meet a side condition, and a system that
simulates another one step by step simulates it over whole runs, answer for answer. -/

namespace MavRun

variable {σ τ ι ω : Type}

/-- Run a list of labels. -/
def exec (step : σ → ι → Option σ) : σ → List ι → Option σ
  | s, [] => some s
  | s, i :: is =>
    match step s i with
    | none => none
    | some s' => exec step s' is

/-- A label that can be taken under a condition was taken under it. -/
theorem of_guard {c : Prop} [Decidable c] {s s' : σ} (h : (if c then some s else none) = some s') :
    c ∧ s = s' :=
  (Option.ite_none_right_eq_some.mp h).imp_right Option.some.inj

theorem pair_inj {a a' : σ} {b b' : τ} (h : some (a, b) = some (a', b')) : a = a' ∧ b = b' :=
  Prod.mk.inj (Option.some.inj h)

section Update

variable [DecidableEq ι] {f : ι → σ} {i j : ι} {v w : σ} (h : Function.update f i v j = w)

include h

theorem update_cases : j = i ∧ v = w ∨ j ≠ i ∧ f j = w := by
  by_cases hj : j = i
  · rw [hj, Function.update_self] at h
    exact .inl ⟨hj, h⟩
  · rw [Function.update_of_ne hj] at h
    exact .inr ⟨hj, h⟩

/-- What was not stored there is at another place. -/
theorem of_update (hv : v ≠ w) : j ≠ i ∧ f j = w :=
  (update_cases h).resolve_left fun hj => hv hj.2

end Update

/-- Every step of the run meets the side condition `C` in the state where it is taken. -/
def Guarded (step : σ → ι → Option σ) (C : σ → ι → Prop) : σ → List ι → Prop
  | _, [] => True
  | s, i :: is => C s i ∧ ∀ s', step s i = some s' → Guarded step C s' is

instance Guarded.decidable {step : σ → ι → Option σ} {C : σ → ι → Prop}
    [hC : ∀ s i, Decidable (C s i)] : (s : σ) → (is : List ι) → Decidable (Guarded step C s is)
  | _, [] => isTrue trivial
  | s, i :: is =>
    match hs : step s i with
    | none => decidable_of_iff (C s i)
        ⟨fun h => ⟨h, fun _ h' => nomatch hs.symm.trans h'⟩, And.left⟩
    | some s' =>
      let _ : Decidable (Guarded step C s' is) := Guarded.decidable s' is
      decidable_of_iff (C s i ∧ Guarded step C s' is)
        ⟨fun h => ⟨h.1, fun _ h' => Option.some.inj (hs.symm.trans h') ▸ h.2⟩,
          fun h => ⟨h.1, h.2 s' hs⟩⟩

variable {is : List ι} {step : σ → ι → Option σ} {C : σ → ι → Prop}

theorem exec_cons {s t : σ} {i : ι} (h : exec step s (i :: is) = some t) :
    ∃ s', step s i = some s' ∧ exec step s' is = some t := by
  unfold exec at h
  split at h
  · exact nomatch h
  · next s' hs => exact ⟨s', hs, h⟩

theorem exec_cons_of {s s' : σ} {i : ι}
    (h : step s i = some s') : exec step s (i :: is) = exec step s' is := by
  show (match step s i with
    | none => none
    | some s' => exec step s' is) = exec step s' is
  rw [h]

/-- A run of two parts passes through the state between them. -/
theorem exec_append {s t : σ} {js : List ι} : exec step s (is ++ js) = some t ↔
      ∃ u, exec step s is = some u ∧ exec step u js = some t := by
  induction is generalizing s with
  | nil =>
    constructor
    · intro h
      exact ⟨s, rfl, h⟩
    · rintro ⟨u, hu, h⟩
      rw [Option.some.inj hu]
      exact h
  | cons i is ih =>
    constructor
    · intro h
      obtain ⟨s', hs, hr⟩ := exec_cons h
      obtain ⟨u, hu, hj⟩ := ih.mp hr
      exact ⟨u, by rw [exec_cons_of hs]; exact hu, hj⟩
    · rintro ⟨u, hu, hj⟩
      obtain ⟨s', hs, hr⟩ := exec_cons hu
      rw [List.cons_append, exec_cons_of hs]
      exact ih.mpr ⟨u, hr, hj⟩

/-- **INVARIANT RULE**: what every guarded step keeps, every guarded run keeps. -/
theorem exec_inv {I : σ → Prop} (hstep : ∀ s i s', I s → C s i → step s i = some s' → I s') :
    ∀ (is : List ι) (s t : σ), I s → Guarded step C s is →
      exec step s is = some t → I t := by
  intro is
  induction is with
  | nil =>
    intro s t hI _ h
    rw [← Option.some.inj h]
    exact hI
  | cons i is ih =>
    intro s t hI hG h
    obtain ⟨s', hs, hr⟩ := exec_cons h
    exact ih s' t (hstep s i s' hI hG.1 hs) (hG.2 s' hs) hr

/-- **PROGRESS RULE**: if every guarded step can be taken and keeps the
    invariant, so can every guarded run. -/
theorem exec_total {I : σ → Prop} (hstep : ∀ s i, I s → C s i → ∃ s', step s i = some s' ∧ I s') :
    ∀ (is : List ι) (s : σ), I s → Guarded step C s is → ∃ t, exec step s is = some t ∧ I t := by
  intro is
  induction is with
  | nil => exact fun s hI _ => ⟨s, rfl, hI⟩
  | cons i is ih =>
    intro s hI hG
    obtain ⟨s', hs, hI'⟩ := hstep s i hI hG.1
    rw [exec_cons_of hs]
    exact ih s' hI' (hG.2 s' hs)

/-- A guarded run stays guarded on its prefixes. -/
theorem guarded_append_left (is js : List ι) (s : σ) : Guarded step C s (is ++ js) →
      Guarded step C s is := by
  induction is generalizing js s with
  | nil => intro _; exact trivial
  | cons i is ih =>
    intro h
    exact ⟨h.1, fun s' hs => ih js s' (h.2 s' hs)⟩

theorem guarded_of_forall (h : ∀ s i, C s i) : ∀ (is : List ι) (s : σ), Guarded step C s is := by
  intro is
  induction is with
  | nil => intro s; exact trivial
  | cons i is ih => intro s; exact ⟨h s i, fun s' _ => ih s'⟩

/-- The rule for steps without a condition. -/
theorem exec_inv_all {I : σ → Prop} (hstep : ∀ s i s', I s → step s i = some s' → I s') {s t : σ}
    (hI : I s) (h : exec step s is = some t) : I t :=
  exec_inv (C := fun _ _ => True) (fun s i s' hI _ => hstep s i s' hI) is s t hI
    (guarded_of_forall (fun _ _ => trivial) is s) h

theorem guarded_of_mem (is : List ι) (s : σ) : (∀ i ∈ is, ∀ s, C s i) → Guarded step C s is := by
  induction is generalizing s with
  | nil => intro _; exact trivial
  | cons i is ih =>
    intro h
    exact ⟨h i (List.mem_cons_self ..) s,
      fun s' _ => ih s' fun j hj => h j (List.mem_cons_of_mem _ hj)⟩

theorem guarded_imp {C' : σ → ι → Prop} (himp : ∀ s i, C s i → C' s i) :
    ∀ {is : List ι} {s : σ}, Guarded step C s is → Guarded step C' s is := by
  intro is
  induction is with
  | nil => intro s _; exact trivial
  | cons i is ih =>
    intro s h
    exact ⟨himp s i h.1, fun s' hs => ih (h.2 s' hs)⟩

theorem guarded_append_right (is js : List ι) (s t : σ) : Guarded step C s (is ++ js) →
      exec step s is = some t → Guarded step C t js := by
  induction is generalizing js s t with
  | nil =>
    intro h he
    rw [← Option.some.inj he]
    exact h
  | cons i is ih =>
    intro h he
    obtain ⟨s', hs, hr⟩ := exec_cons he
    exact ih js s' t (h.2 s' hs) hr

/-! ## Runs that answer -/

/-- Run a list of labels, collecting the answers. -/
def runOps (step : σ → ι → Option (ω × σ)) : σ → List ι → Option (List ω × σ)
  | s, [] => some ([], s)
  | s, i :: is =>
    match step s i with
    | none => none
    | some (o, s') =>
      match runOps step s' is with
      | none => none
      | some (os, t) => some (o :: os, t)

/-- The same for a system whose steps never fail. -/
def runAll (step : τ → ι → ω × τ) : τ → List ι → List ω × τ
  | t, [] => ([], t)
  | t, i :: is =>
    let r := runAll step (step t i).2 is
    ((step t i).1 :: r.1, r.2)

/-- **SIMULATION RULE**: if related states answer alike and step to related states on every label
    that meets `P`, whole runs of such labels complete, answer alike and end in related states. -/
theorem runOps_simulates {step : σ → ι → Option (ω × σ)} {spec : τ → ι → ω × τ}
    {R : σ → τ → Prop} {P : ι → Prop}
    (hstep : ∀ s t i, R s t → P i →
      ∃ s', step s i = some ((spec t i).1, s') ∧ R s' (spec t i).2) :
    ∀ (is : List ι) (s : σ) (t : τ), R s t → (∀ i ∈ is, P i) →
      ∃ s', runOps step s is = some ((runAll spec t is).1, s') ∧
        R s' (runAll spec t is).2 := by
  intro is
  induction is with
  | nil => intro s t hR _; exact ⟨s, rfl, hR⟩
  | cons i is ih =>
    intro s t hR hP
    obtain ⟨s', hs, hR'⟩ := hstep s t i hR (hP i (List.mem_cons_self ..))
    obtain ⟨s'', hr, hR''⟩ := ih s' (spec t i).2 hR' (fun j hj => hP j (List.mem_cons_of_mem _ hj))
    refine ⟨s'', ?_, hR''⟩
    show (match step s i with
      | none => none
      | some (o, s') =>
        match runOps step s' is with
        | none => none
        | some (os, t) => some (o :: os, t)) = _
    rw [hs]
    show (match runOps step s' is with
      | none => none
      | some (os, u) => some ((spec t i).1 :: os, u)) = _
    rw [hr]
    rfl

end MavRun
