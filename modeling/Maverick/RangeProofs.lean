import Mathlib

/-! # Ranges of machine addresses below a border

Addresses are machine words, so that a range that starts near the top wraps around. A sequence of
accesses is carried out byte by byte, until it comes to a byte that the process may not touch, which
ends the process.

`clean_iff` says when such a sequence stays below a border: every range ends below it, or the
process has ended before. The ends are compared as numbers, not as machine words. -/

namespace MavRange

variable {w : Nat}

/-- `len` bytes from `start` on. -/
structure Range (w : Nat) where
  start : BitVec w
  len : Nat
  deriving DecidableEq, Repr

/-- The addresses of `n` bytes from `a` on. -/
def addrs (a : BitVec w) : Nat → List (BitVec w)
  | 0 => []
  | n + 1 => a :: addrs (a + 1#w) n

def Range.bytes (r : Range w) : List (BitVec w) := addrs r.start r.len

section Border

variable (limit : Nat) (stops : BitVec w → Bool)

/-- Below the border. -/
def below (a : BitVec w) : Bool := decide (a.toNat < limit)

/-- The accesses that are carried out: those before the first address below the
    border that ends the process. -/
def performed (as : List (BitVec w)) : List (BitVec w) :=
  as.takeWhile fun a => !(below limit a && stops a)

/-- No access at or above the border is carried out. -/
def Clean (as : List (BitVec w)) : Prop := ∀ a ∈ performed limit stops as, below limit a = true

/-- The range ends below the border. -/
def Range.inside (r : Range w) : Prop := r.len = 0 ∨ r.start.toNat + r.len ≤ limit
deriving Decidable

/-- The process ends in the part of the range below the border. -/
def Range.ends (r : Range w) : Prop :=
  ∃ i, i < r.len ∧ r.start.toNat + i < limit ∧ stops (r.start + BitVec.ofNat w i) = true

/-- Every range ends below the border, up to one in which the process ends. -/
def Within : List (Range w) → Prop
  | [] => True
  | r :: rs => r.ends limit stops ∨ (r.inside limit ∧ Within rs)

variable {limit stops}

theorem clean_cons {a : BitVec w} {as : List (BitVec w)} :
    Clean limit stops (a :: as) ↔
      below limit a = true ∧ (stops a = true ∨ Clean limit stops as) := by
  unfold Clean performed
  by_cases hb : below limit a = true
  · by_cases hs : stops a = true
    · simp [hb, hs]
    · simp [hb, hs]
  · simp [hb]

section Ends

variable {a : BitVec w} {n : Nat}

/-- The bytes of a range, counted from its second one. -/
theorem succ_offset (a : BitVec w) (i : Nat) :
    a + 1#w + BitVec.ofNat w i = a + BitVec.ofNat w (i + 1) := by
  rw [BitVec.add_assoc, BitVec.add_comm 1#w, ← BitVec.ofNat_add]

theorem toNat_succ (hlim : limit < 2 ^ w) (ha : a.toNat < limit) :
    (a + 1#w).toNat = a.toNat + 1 := by
  have hw : 1 < 2 ^ w := by omega
  rw [BitVec.toNat_add, BitVec.toNat_ofNat, Nat.mod_eq_of_lt hw, Nat.mod_eq_of_lt (by omega)]

theorem ends_succ (hlim : limit < 2 ^ w) :
    (Range.mk a (n + 1)).ends limit stops ↔
      below limit a = true ∧ (stops a = true ∨ (Range.mk (a + 1#w) n).ends limit stops) := by
  unfold Range.ends below
  rw [decide_eq_true_iff]
  constructor
  · rintro ⟨i, hi, hlt, hs⟩
    refine ⟨by dsimp only at hlt; omega, ?_⟩
    cases i with
    | zero =>
      rw [BitVec.add_zero] at hs
      exact .inl hs
    | succ i =>
      have ha : a.toNat < limit := by dsimp only at hlt; omega
      refine .inr ⟨i, Nat.lt_of_succ_lt_succ hi, ?_, ?_⟩
      · have := toNat_succ hlim ha
        dsimp only at hlt ⊢
        omega
      · rw [succ_offset]
        exact hs
  · rintro ⟨ha, hs | ⟨i, hi, hlt, hs⟩⟩
    · refine ⟨0, Nat.succ_pos n, ha, ?_⟩
      rw [BitVec.add_zero]
      exact hs
    · refine ⟨i + 1, Nat.succ_lt_succ hi, ?_, ?_⟩
      · have := toNat_succ hlim ha
        dsimp only at hlt ⊢
        omega
      · rw [succ_offset] at hs
        exact hs

theorem inside_succ (hlim : limit < 2 ^ w) :
    (Range.mk a (n + 1)).inside limit ↔
      below limit a = true ∧ (Range.mk (a + 1#w) n).inside limit := by
  unfold Range.inside below
  rw [decide_eq_true_iff]
  dsimp only
  constructor
  · intro h
    have ha : a.toNat < limit := by omega
    have := toNat_succ hlim ha
    omega
  · rintro ⟨ha, h⟩
    have := toNat_succ hlim ha
    omega

end Ends

/-- One range, and what follows it. -/
theorem clean_range_append (hlim : limit < 2 ^ w) (r : Range w) (as : List (BitVec w)) :
    Clean limit stops (r.bytes ++ as) ↔
      r.ends limit stops ∨ (r.inside limit ∧ Clean limit stops as) := by
  obtain ⟨a, n⟩ := r
  show Clean limit stops (addrs a n ++ as) ↔ _
  -- byte by byte: each is below the border, and ends the process or goes on
  induction n generalizing a with
  | zero =>
    have hno : ¬ (Range.mk a 0).ends limit stops := fun ⟨i, hi, _⟩ => Nat.not_lt_zero i hi
    have hin : (Range.mk a 0).inside limit := .inl rfl
    simp [addrs, hno, hin]
  | succ n ih =>
    rw [addrs, List.cons_append, clean_cons, ih (a + 1#w), ends_succ hlim, inside_succ hlim]
    grind

/-- **RANGES**: a sequence of ranges is accessed below the border only, exactly
    when every range ends below it up to one in which the process ends. -/
theorem clean_iff (hlim : limit < 2 ^ w) (rs : List (Range w)) :
    Clean limit stops (rs.flatMap Range.bytes) ↔ Within limit stops rs := by
  induction rs with
  | nil => exact ⟨fun _ => trivial, nofun⟩
  | cons r rs ih =>
    rw [List.flatMap_cons, clean_range_append hlim, ih]
    rfl

/-- A range that ends below the border is free at the end of the sequence. -/
theorem within_append_inside (rs : List (Range w)) {r : Range w} (h : r.inside limit) :
    Within limit stops (rs ++ [r]) ↔ Within limit stops rs := by
  induction rs with
  | nil => exact ⟨fun _ => trivial, fun _ => .inr ⟨h, trivial⟩⟩
  | cons r' rs ih =>
    show _ ∨ (_ ∧ Within limit stops (rs ++ [r])) ↔ _ ∨ (_ ∧ Within limit stops rs)
    rw [ih]

end Border

/-- The test of both ends of a range, on machine words: it is enough for a range
    that is not longer than what is above the border. -/
theorem inside_of_ends_below {limit : Nat} {a n : BitVec w} (ha : a.toNat < limit)
    (hend : (a + n - 1#w).toNat < limit) (hn : n ≠ 0#w) (hlen : n.toNat + limit ≤ 2 ^ w) {k : Nat}
    (hk : k ≤ n.toNat) : (Range.mk a k).inside limit := by
  have hpos : 0 < n.toNat := Nat.pos_of_ne_zero fun h0 => hn (BitVec.eq_of_toNat_eq h0)
  have hw : 1 < 2 ^ w := by omega
  have hsum : (a + n).toNat = a.toNat + n.toNat := by
    exact Nat.mod_eq_of_lt (by omega)
  have hlast : (a + n - 1#w).toNat = a.toNat + n.toNat - 1 := by
    rw [BitVec.toNat_sub_of_le, hsum, BitVec.toNat_ofNat, Nat.mod_eq_of_lt hw]
    rw [BitVec.le_def, hsum, BitVec.toNat_ofNat, Nat.mod_eq_of_lt hw]
    omega
  refine .inr ?_
  show a.toNat + k ≤ limit
  omega

end MavRange
