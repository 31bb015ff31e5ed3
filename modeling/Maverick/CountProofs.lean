import Mathlib

/-! # Counting the holders of a resource

A table `F : ι → Option β` says which resource each index holds, if any. `Counts F b n` says that
exactly `n` indices hold `b`. The lemmas follow the one way such a table changes: a single index
takes a resource, gives one up, or trades it for another. -/

namespace MavCount

open List
open Function (update update_self update_of_ne update_eq_self)

variable {ι β : Type} {F G : ι → Option β} {b : β} {n m : Nat} {i j : ι}

/-- Exactly `n` indices of `F` hold `b`. -/
def Counts (F : ι → Option β) (b : β) (n : Nat) : Prop :=
  ∃ l : List ι, l.Nodup ∧ (∀ i, i ∈ l ↔ F i = some b) ∧ l.length = n

theorem counts_zero (h : ∀ i, F i ≠ some b) : Counts F b 0 :=
  ⟨[], .nil, fun i => ⟨fun hi => absurd hi not_mem_nil, fun hi => absurd hi (h i)⟩, rfl⟩

theorem Counts.congr (hc : Counts F b n) (h : ∀ i, G i = some b ↔ F i = some b) :
    Counts G b n := by
  obtain ⟨l, hnd, hmem, hlen⟩ := hc
  exact ⟨l, hnd, fun i => (hmem i).trans (h i).symm, hlen⟩

/-- Whatever is held is held by somebody. -/
theorem Counts.pos (hc : Counts F b n) (hi : F i = some b) : 0 < n := by
  obtain ⟨l, _, hmem, rfl⟩ := hc
  exact length_pos_of_mem ((hmem i).mpr hi)

/-- A resource with at most one holder has one holder. -/
theorem Counts.unique (hc : Counts F b n) (hn : n ≤ 1) (hi : F i = some b) (hj : F j = some b) :
    i = j := by
  obtain ⟨l, _, hmem, rfl⟩ := hc
  obtain ⟨k, rfl⟩ := length_eq_one_iff.mp (Nat.le_antisymm hn (length_pos_of_mem ((hmem i).mpr hi)))
  rw [mem_singleton.mp ((hmem i).mpr hi), mem_singleton.mp ((hmem j).mpr hj)]

/-- Whoever holds `b` in one table holds it in the other. -/
theorem Counts.le (hc : Counts F b n) (hd : Counts G b m) (h : ∀ i, F i = some b → G i = some b) :
    n ≤ m := by
  obtain ⟨l, hnd, hmem, rfl⟩ := hc
  obtain ⟨l', -, hmem', rfl⟩ := hd
  exact (hnd.subperm fun i hi => (hmem' i).mpr (h i ((hmem i).mp hi))).length_le

variable [DecidableEq ι]

/-- An index that did not hold `b` takes it. -/
theorem Counts.take (hc : Counts F b n) (hi : F i ≠ some b) :
    Counts (update F i (some b)) b (n + 1) := by
  obtain ⟨l, hnd, hmem, rfl⟩ := hc
  refine ⟨i :: l, nodup_cons.mpr ⟨fun h => hi ((hmem i).mp h), hnd⟩, fun j => ?_, rfl⟩
  by_cases hj : j = i
  · subst hj
    simp
  · rw [update_of_ne hj, mem_cons, hmem j]
    exact ⟨fun h => h.resolve_left hj, .inr⟩

/-- Somebody holds `b` only in the second table. -/
theorem Counts.lt (hc : Counts F b n) (hd : Counts G b m) (h : ∀ i, F i = some b → G i = some b)
    (hi : F i ≠ some b) (hg : G i = some b) : n < m := by
  refine (hc.take hi).le hd ?_
  intro j hj
  by_cases hji : j = i
  · exact hji ▸ hg
  · rw [update_of_ne hji] at hj
    exact h j hj

/-- An index that held `b` gives it up. -/
theorem Counts.drop (hc : Counts F b n) (hi : F i = some b) {x : Option β} (hx : x ≠ some b) :
    Counts (update F i x) b (n - 1) := by
  obtain ⟨l, hnd, hmem, rfl⟩ := hc
  refine ⟨l.erase i, hnd.erase i, fun j => ?_, length_erase_of_mem ((hmem i).mpr hi)⟩
  by_cases hj : j = i
  · subst hj
    rw [update_self]
    exact ⟨fun h => absurd h (fun h => (hnd.mem_erase_iff.mp h).1 rfl), fun h => absurd h hx⟩
  · rw [update_of_ne hj, hnd.mem_erase_iff, hmem j]
    exact ⟨And.right, fun h => ⟨hj, h⟩⟩

/-- A change at an index that has nothing to do with `b`. -/
theorem Counts.other (hc : Counts F b n) (hi : F i ≠ some b) {x : Option β} (hx : x ≠ some b) :
    Counts (update F i x) b n := by
  refine hc.congr fun j => ?_
  by_cases hj : j = i
  · subst hj
    rw [update_self]
    exact ⟨fun h => absurd h hx, fun h => absurd h hi⟩
  · rw [update_of_ne hj]

/-- One index trades what it has for something else. -/
theorem Counts.trade [DecidableEq β] (hc : Counts F b n) (i : ι) (x : Option β) :
    Counts (update F i x) b
      (n - (if F i = some b then 1 else 0) + if x = some b then 1 else 0) := by
  by_cases hi : F i = some b <;> by_cases hx : x = some b
  · rw [if_pos hi, if_pos hx, Nat.sub_add_cancel (hc.pos hi), hx, ← hi, update_eq_self]
    exact hc
  · rw [if_pos hi, if_neg hx]
    exact hc.drop hi hx
  · rw [if_neg hi, if_pos hx, hx]
    exact hc.take hi
  · rw [if_neg hi, if_neg hx]
    exact hc.other hi hx

end MavCount
