import Mathlib

/-! # Overriding a map by a list of patches

Replaying a log is overriding: each record is a partial map, and the maps are applied one after the
other, the later one winning. The rules here say what is found at a point after all of them: the
value of the last patch that covers it, which in a list sorted by a relation `R` is the patch that
is `R`-before no other covering one. -/

namespace MavOverride

open List

variable {α β ρ : Type}

/-- A partial map laid over a total one. -/
def applyPatch (f : α → β) (p : α → Option β) : α → β := fun x => (p x).getD (f x)

/-- The patches of the entries `rs`, applied in order. -/
def applyAll (patch : ρ → α → Option β) (f : α → β) (rs : List ρ) : α → β :=
  rs.foldl (fun f r => applyPatch f (patch r)) f

variable {f : α → β} {x : α} {patch : ρ → α → Option β} {rs : List ρ}

theorem applyPatch_some {p : α → Option β} {v : β} (h : p x = some v) : applyPatch f p x = v := by
  show (p x).getD (f x) = v
  rw [h]
  rfl

theorem applyPatch_none {p : α → Option β} (h : p x = none) : applyPatch f p x = f x := by
  show (p x).getD (f x) = f x
  rw [h]
  rfl

theorem applyAll_append (patch : ρ → α → Option β) (f : α → β) (rs qs : List ρ) :
    applyAll patch f (rs ++ qs) = applyAll patch (applyAll patch f rs) qs :=
  foldl_append ..

/-- Where no patch covers the point, the map is as it was. -/
theorem applyAll_of_uncovered (rs : List ρ) (f : α → β) : (∀ r ∈ rs, patch r x = none) →
      applyAll patch f rs x = f x := by
  induction rs generalizing f with
  | nil => intro _; rfl
  | cons r rs ih =>
    intro h
    show applyAll patch (applyPatch f (patch r)) rs x = f x
    rw [ih _ (fun q hq => h q (mem_cons_of_mem _ hq))]
    exact applyPatch_none (h r (mem_cons_self ..))

/-- Two maps agree after the patches where they agreed before or a patch covers the point. -/
theorem applyAll_congr_at {g : α → β} (h : f x = g x ∨ ∃ r ∈ rs, (patch r x).isSome) :
    applyAll patch f rs x = applyAll patch g rs x := by
  induction rs generalizing f g with
  | nil => exact h.resolve_right (by simp)
  | cons r rs ih =>
    refine ih ?_
    cases hp : patch r x with
    | some v => exact .inl ((applyPatch_some hp).trans (applyPatch_some hp).symm)
    | none => simpa [applyPatch_none hp, hp] using h

/-- A patch followed only by patches that do not cover the point decides it. -/
theorem applyAll_of_split {v : β} {before after : List ρ} {r : ρ} (hr : patch r x = some v)
    (hafter : ∀ q ∈ after, patch q x = none) :
    applyAll patch f (before ++ r :: after) x = v := by
  rw [applyAll_append]
  show applyAll patch (applyPatch _ (patch r)) after x = v
  rw [applyAll_of_uncovered after _ hafter]
  exact applyPatch_some hr

/-- In a sorted list, a covering patch with no covering one after it decides. -/
theorem applyAll_of_last {R : ρ → ρ → Prop} {v : β} {r : ρ} (hs : rs.Pairwise R) (hmem : r ∈ rs)
    (hr : patch r x = some v)
    (hlast : ∀ q ∈ rs, (patch q x).isSome → ¬ R r q) :
    applyAll patch f rs x = v := by
  obtain ⟨before, after, hsplit⟩ := append_of_mem hmem
  rw [hsplit] at hs ⊢
  refine applyAll_of_split hr ?_
  intro q hq
  have hRrq : R r q :=
    (pairwise_cons.mp (pairwise_append.mp hs).2.1).1 q hq
  cases hc : patch q x with
  | none => rfl
  | some w =>
    refine absurd hRrq (hlast q ?_ ?_)
    · rw [hsplit]
      exact mem_append_right _ (mem_cons_of_mem _ hq)
    · rw [hc]; rfl

/-- Among the entries that cover a point there is one with the largest key. -/
theorem exists_last (key : ρ → Nat) (rs : List ρ) (hex : ∃ r ∈ rs, (patch r x).isSome) :
    ∃ r ∈ rs, (patch r x).isSome ∧ ∀ q ∈ rs, (patch q x).isSome → key q ≤ key r := by
  obtain ⟨r0, hr0, hc0⟩ := hex
  cases hmax : (rs.filter fun r => (patch r x).isSome).argmax key with
  | none => exact absurd (mem_filter.mpr ⟨hr0, hc0⟩) (argmax_eq_none.mp hmax ▸ not_mem_nil)
  | some r =>
    obtain ⟨hr, hc⟩ := mem_filter.mp (argmax_mem hmax)
    exact ⟨r, hr, hc, fun q hq hqc => le_of_mem_argmax (mem_filter.mpr ⟨hq, hqc⟩) hmax⟩

/-- `r` covers the point, and no entry with a larger key does. -/
def LastAt (patch : ρ → α → Option β) (key : ρ → Nat) (rs : List ρ) (x : α) (r : ρ) : Prop :=
  r ∈ rs ∧ (patch r x).isSome ∧ ∀ q ∈ rs, (patch q x).isSome → key q ≤ key r

theorem applyAll_lastAt {key : ρ → Nat} {r : ρ} (hs : rs.Pairwise fun r q => key r < key q)
    (h : LastAt patch key rs x r) : some (applyAll patch f rs x) = patch r x := by
  obtain ⟨hr, hc, hmax⟩ := h
  obtain ⟨v, hv⟩ := Option.isSome_iff_exists.mp hc
  rw [hv, applyAll_of_last hs hr hv fun q hq hqc => Nat.not_lt.mpr (hmax q hq hqc)]

/-- Two orders of the same entries give the same map exactly if at every point
    the last entries of the two orders agree. -/
theorem applyAll_eq_iff {m n : ρ → Nat} {qs : List ρ} (hr : rs.Pairwise fun r q => m r < m q)
    (hq : qs.Pairwise fun r q => n r < n q) (hmem : ∀ r, r ∈ qs ↔ r ∈ rs) :
    applyAll patch f rs = applyAll patch f qs ↔
      ∀ x r q, LastAt patch m rs x r → LastAt patch n rs x q → patch r x = patch q x := by
  have hlast : ∀ {x q}, LastAt patch n rs x q → LastAt patch n qs x q :=
    fun h => ⟨(hmem _).mpr h.1, h.2.1, fun p hp => h.2.2 p ((hmem p).mp hp)⟩
  constructor
  · intro heq x r q hrx hqx
    rw [← applyAll_lastAt (f := f) hr hrx, ← applyAll_lastAt (f := f) hq (hlast hqx), heq]
  intro hagree
  funext x
  by_cases hex : ∃ r ∈ rs, (patch r x).isSome
  · obtain ⟨r, hrx⟩ := exists_last m rs hex
    obtain ⟨q, hqx⟩ := exists_last n rs hex
    have h := hagree x r q hrx hqx
    rw [← applyAll_lastAt (f := f) hr hrx, ← applyAll_lastAt (f := f) hq (hlast hqx)] at h
    exact Option.some.inj h
  · have hnone : ∀ r ∈ rs, patch r x = none := by
      intro r hr'
      cases hc : patch r x with
      | none => rfl
      | some v => exact absurd ⟨r, hr', by rw [hc]; rfl⟩ hex
    rw [applyAll_of_uncovered rs f hnone,
      applyAll_of_uncovered qs f fun r hr' => hnone r ((hmem r).mp hr')]

end MavOverride
