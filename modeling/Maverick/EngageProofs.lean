import Maverick.RunProofs

/-! # Agents and what they are busy with

An agent is busy with at most one resource, a resource has at most one agent busy with it, and both
sides say so with the same tag. The one rule follows the one way this changes: one agent and one
resource, free or busy with each other, take a new tag or part. -/

namespace MavEngage

open MavRun Option
open Function (update update_self update_of_ne update_eq_self)

variable {α β τ : Type} {f : α → Option (β × τ)} {g : β → Option (α × τ)} {a : α} {b : β} {t : τ}

/-- `f` says what each agent is busy with, `g` who is busy with each resource. -/
def Matched (f : α → Option (β × τ)) (g : β → Option (α × τ)) : Prop :=
  ∀ a b t, f a = some (b, t) ↔ g b = some (a, t)

/-- Neither is busy with somebody else. -/
def Apart (f : α → Option (β × τ)) (g : β → Option (α × τ)) (a : α) (b : β) : Prop :=
  (∀ b' t, f a = some (b', t) → b' = b) ∧ ∀ a' t, g b = some (a', t) → a' = a

theorem Matched.apart_of_busy (h : Matched f g) (ha : f a = some (b, t)) : Apart f g a b := by
  refine ⟨fun b' t' h' => ?_, fun a' t' h' => ?_⟩
  · exact (pair_inj (h'.symm.trans ha)).1
  · exact (pair_inj (h'.symm.trans ((h a b t).mp ha))).1

theorem apart_of_free (ha : f a = none) (hb : g b = none) : Apart f g a b :=
  ⟨fun _ _ h => (nomatch ha.symm.trans h), fun _ _ h => nomatch hb.symm.trans h⟩

variable [DecidableEq α] [DecidableEq β]

/-- **ONE PAIR CHANGES**: the agent and the resource take a new tag, or part. -/
theorem Matched.set (h : Matched f g) (hab : Apart f g a b) (v : Option τ) :
    Matched (update f a (v.map fun t => (b, t)))
      (update g b (v.map fun t => (a, t))) := by
  intro a' b' t'
  by_cases ha : a' = a
  · rw [ha, update_self]
    by_cases hb : b' = b
    · rw [hb, update_self]
      cases v with
      | none => exact ⟨nofun, nofun⟩
      | some t =>
        constructor <;> intro heq
        · rw [(pair_inj heq).2.symm]; rfl
        · rw [(pair_inj heq).2.symm]; rfl
    · rw [update_of_ne hb]
      constructor <;> intro heq
      · obtain ⟨t, -, ht⟩ := map_eq_some_iff.mp heq
        exact absurd (Prod.mk.inj ht).1.symm hb
      · exact absurd (hab.1 b' t' ((h a b' t').mpr heq)) hb
  · rw [update_of_ne ha]
    by_cases hb : b' = b
    · rw [hb, update_self]
      constructor <;> intro heq
      · exact absurd (hab.2 a' t' ((h a' b t').mp heq)) ha
      · obtain ⟨t, -, ht⟩ := map_eq_some_iff.mp heq
        exact absurd (Prod.mk.inj ht).1.symm ha
    · rw [update_of_ne hb]
      exact h a' b' t'

theorem Matched.same (h : Matched f g) {v : Option (β × τ)} {w : Option (α × τ)} (hf : f a = v)
    (hg : g b = w) : Matched (update f a v) (update g b w) := by
  rw [← hf, update_eq_self, ← hg, update_eq_self]
  exact h

end MavEngage
