import Maverick.MlfqsProofs

/-! # MLFQS — the numbers

`load_avg` and `recent_cpu` are 16.16 fixed-point numbers. Every second loses a little to truncated
coefficients and products, but the load of the second before counts for 59/60 only, so the loss
stays below a bound that the number of ready threads gives. -/

namespace MavMlfqs

theorem toInt32_eq {x : Int} (h : -2 ^ 31 ≤ x) (h' : x < 2 ^ 31) : toInt32 x = x :=
  Int.bmod_eq_of_le (by omega) (by omega)

/-! ## The load average -/

/-- What `mlfqs_update_load_avg` stores. -/
def nextLoad (load : Int) (s : Mlfqs) : Int := (mlfqsUpdateLoadAvg { s with loadAvg := load }).loadAvg

theorem nextLoad_eq {load : Int} {s : Mlfqs} (h : 0 ≤ load) (hload : load ≤ 65536000)
    (hready : readyThreads s ≤ 1000) :
    nextLoad load s = 64443 * load / 65536 + 1092 * readyThreads s := by
  have hload' : nextLoad load s = fixAdd (fixMul (fixFrac 59 60) load)
      (fixMul (fixFrac 1 60) (fixInt (readyThreads s))) := rfl
  have hint : fixInt (readyThreads s) = readyThreads s * 65536 :=
    toInt32_eq (by rw [fixF]; omega) (by rw [fixF]; omega)
  have hmul : ∀ a b : Int, 0 ≤ a * b → a * b < 2 ^ 47 → fixMul a b = a * b / 65536 := by
    intro a b h h'
    rw [fixMul, Int.tdiv_eq_ediv_of_nonneg h]
    exact toInt32_eq (by rw [fixF]; omega) (by rw [fixF]; omega)
  rw [hload', hint, show fixFrac 59 60 = 64443 by decide, show fixFrac 1 60 = 1092 by decide,
    hmul _ _ (by omega) (by omega), hmul _ _ (by omega) (by omega), fixAdd,
    toInt32_eq (by omega) (by omega)]
  omega

/-- A second of the load average without rounding. -/
def exactNext (load : ℚ) (ready : Nat) : ℚ := (59 * load + ready) / 60

/-- The stored load `l` is below the exact load `e`, and not by much. -/
structure Drifts (N : Nat) (l : Int) (e : ℚ) : Prop where
  nonneg : 0 ≤ l
  below : (l : ℚ) ≤ 65536 * e
  near : 65536 * e ≤ l + 60 * (N + 1)
  bound : e ≤ N

theorem Drifts.step {N : Nat} {s : Mlfqs} {l : Int} {e : ℚ} (h : Drifts N l e) (hN : N ≤ 1000)
    (hs : readyThreads s ≤ N) : Drifts N (nextLoad l s) (exactNext e (readyThreads s)) := by
  obtain ⟨hnonneg, hbelow, hnear, hbound⟩ := h
  have hr : (readyThreads s : ℚ) ≤ N := Nat.cast_le.mpr hs
  have hlN : (l : ℚ) ≤ 65536 * N := by linarith
  have hl : l ≤ 65536000 := by
    have : l ≤ 65536 * N := by exact_mod_cast hlN
    omega
  -- the product is rounded down by less than one
  have hq : 65536 * (64443 * l / 65536) ≤ 64443 * l ∧
      64443 * l < 65536 * (64443 * l / 65536) + 65536 := by omega
  have hq1 : (65536 : ℚ) * ((64443 * l / 65536 : Int) : ℚ) ≤ 64443 * l := by exact_mod_cast hq.1
  have hq2 : (64443 : ℚ) * l < 65536 * ((64443 * l / 65536 : Int) : ℚ) + 65536 := by
    exact_mod_cast hq.2
  have hl0 : (0 : ℚ) ≤ l := by exact_mod_cast hnonneg
  rw [nextLoad_eq hnonneg hl (hs.trans hN), exactNext]
  refine ⟨by omega, ?_, ?_, ?_⟩
  · push_cast
    linarith
  · push_cast
    linarith
  · linarith

/-- `load_avg` after an update in each of the states, whose threads and lists
    are whatever the second brought. -/
def loadAfter (ss : List Mlfqs) : Int := ss.foldl nextLoad 0

def exactAfter (ss : List Mlfqs) : ℚ := (ss.map readyThreads).foldl exactNext 0

theorem Drifts.run {N : Nat} (hN : N ≤ 1000) (ss : List Mlfqs) :
    ∀ {l : Int} {e : ℚ}, (∀ s ∈ ss, readyThreads s ≤ N) → Drifts N l e →
      Drifts N (ss.foldl nextLoad l) ((ss.map readyThreads).foldl exactNext e) := by
  induction ss with
  | nil => exact fun _ h => h
  | cons s ss ih =>
    intro l e hss h
    exact ih (fun q hq => hss q (List.mem_cons_of_mem _ hq))
      (h.step hN (hss s (List.mem_cons_self ..)))

/-- **DRIFT OF THE LOAD AVERAGE**: after any number of seconds the stored load
    is at most the exact one, and close to it. -/
theorem load_avg_drift (N : Nat) (hN : N ≤ 1000) (ss : List Mlfqs)
    (hss : ∀ s ∈ ss, readyThreads s ≤ N) :
    (loadAfter ss : ℚ) / 65536 ≤ exactAfter ss ∧
      exactAfter ss - (loadAfter ss : ℚ) / 65536 ≤ 60 * (N + 1) / 65536 := by
  have hstart : Drifts N 0 0 := ⟨le_refl 0, by simp, by simp; positivity, by simp⟩
  have hend : Drifts N (loadAfter ss) (exactAfter ss) := Drifts.run hN ss hss hstart
  have hbelow := hend.below
  have hnear := hend.near
  exact ⟨by linarith, by linarith⟩

/-- Two threads for a second, then the idle thread alone. -/
theorem load_avg_drift_two :
    (loadAfter [{ booted with ready := [3] }, { booted with current := 2 }] : ℚ) / 65536 ≤
      exactAfter [{ booted with ready := [3] }, { booted with current := 2 }] :=
  (load_avg_drift 2 (by decide) _ (by decide)).1

end MavMlfqs
