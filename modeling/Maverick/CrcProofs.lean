import Mathlib

/-! # Cyclic redundancy codes

The reflected CRC of a bit string, for any width and any polynomial: the remainder is fed one bit at
a time and divided by one place. One division is linear in exclusive or, and it loses nothing when
the polynomial has its leading coefficient. Feeding as many bits as the remainder is wide is
therefore injective, which is the detection of bursts. -/

namespace MavCrc

open List

variable {w : Nat}

/-- The remainder divided by one place. -/
def step (p x : BitVec w) : BitVec w :=
  if x.getLsbD 0 then (x >>> 1) ^^^ p else x >>> 1

/-- The bits of a string at the low end of a word, the first one lowest. -/
def word : List Bool → BitVec w
  | [] => 0
  | b :: bs => (BitVec.ofBool b).setWidth w ^^^ (word bs <<< 1)

/-- The remainder after a bit string, lowest bit of the remainder first. -/
def feed (p c : BitVec w) (bits : List Bool) : BitVec w :=
  bits.foldl (fun c b => step p (c ^^^ (BitVec.ofBool b).setWidth w)) c

theorem getLsbD_step (p x : BitVec w) (i : Nat) :
    (step p x).getLsbD i = (x.getLsbD (1 + i) ^^ (x.getLsbD 0 && p.getLsbD i)) := by
  unfold step
  cases x.getLsbD 0 <;> simp

theorem step_xor (p x y : BitVec w) : step p (x ^^^ y) = step p x ^^^ step p y := by
  refine BitVec.eq_of_getLsbD_eq ?_
  intro i _
  simp only [getLsbD_step, BitVec.getLsbD_xor]
  cases x.getLsbD 0 <;> cases y.getLsbD 0 <;> cases p.getLsbD i <;> simp

theorem iterate_step_xor (p : BitVec w) :
    ∀ n (x y : BitVec w), (step p)^[n] (x ^^^ y) = (step p)^[n] x ^^^ (step p)^[n] y := by
  intro n
  induction n with
  | zero => intro x y; rfl
  | succ n ih =>
    intro x y
    rw [Function.iterate_succ_apply, step_xor, ih]
    rfl

/-- What lies above the low places only moves down. -/
theorem iterate_step_shiftLeft (p : BitVec w) :
    ∀ n (y : BitVec w), (∀ i, w ≤ i + n → y.getLsbD i = false) → (step p)^[n] (y <<< n) = y := by
  intro n
  induction n with
  | zero => intro y _; exact BitVec.shiftLeft_zero y
  | succ n ih =>
    intro y hy
    have hone : step p (y <<< (n + 1)) = y <<< n := by
      refine BitVec.eq_of_getLsbD_eq ?_
      intro i hi
      rw [getLsbD_step]
      by_cases hw : 1 + i < w
      · simp [BitVec.getLsbD_shiftLeft, hi, hw, show 1 + i - (n + 1) = i - n by omega,
          show 1 + i < n + 1 ↔ i < n by omega]
      · by_cases hn : i < n
        · simp [BitVec.getLsbD_shiftLeft, hw, hn]
        · simp [BitVec.getLsbD_shiftLeft, hw, hy (i - n) (by omega)]
    rw [Function.iterate_succ_apply, hone]
    exact ih y fun i hi => hy i (by omega)

theorem getLsbD_word (bs : List Bool) (i : Nat) : i < w →
    (word bs : BitVec w).getLsbD i = bs.getD i false := by
  induction bs generalizing i with
  | nil => intro _; exact BitVec.getLsbD_zero
  | cons b bs ih =>
    intro hi
    cases i with
    | zero => simp [word, hi]
    | succ i =>
      have hrest := ih i (by omega)
      rw [getD_eq_getElem?_getD] at hrest
      simp [word, hi, ← hrest, BitVec.getLsbD_eq_getElem (show i < w by omega)]

theorem word_inj {bs cs : List Bool} (hlen : bs.length = cs.length) (hw : bs.length ≤ w)
    (h : (word bs : BitVec w) = word cs) : bs = cs := by
  refine ext_getElem hlen ?_
  intro i hb hc
  have hi := congrArg (fun x => BitVec.getLsbD x i) h
  simp only [getLsbD_word _ i (show i < w by omega), getD_eq_getElem?_getD,
    List.getElem?_eq_getElem hb, List.getElem?_eq_getElem hc, Option.getD_some] at hi
  exact hi

/-- As many bits as the remainder has places can be fed all at once. -/
theorem feed_eq_iterate (p : BitVec w) (bs : List Bool) (c : BitVec w) : bs.length ≤ w →
    feed p c bs = (step p)^[bs.length] (c ^^^ word bs) := by
  induction bs generalizing c with
  | nil => intro _; exact (BitVec.xor_zero).symm
  | cons b bs ih =>
    intro hw
    have hup : step p (word bs <<< 1) = (word bs : BitVec w) := by
      refine iterate_step_shiftLeft p 1 (word bs) ?_
      intro i hi
      by_cases h : i < w
      · rw [getLsbD_word bs i h]
        rw [length_cons] at hw
        rw [getD_eq_getElem?_getD, List.getElem?_eq_none (by omega), Option.getD_none]
      · exact BitVec.getLsbD_of_ge _ _ (by omega)
    calc feed p c (b :: bs)
        = feed p (step p (c ^^^ (BitVec.ofBool b).setWidth w)) bs := rfl
      _ = (step p)^[bs.length] (step p (c ^^^ (BitVec.ofBool b).setWidth w) ^^^ word bs) :=
          ih _ (Nat.le_of_succ_le hw)
      _ = (step p)^[bs.length] (step p (c ^^^ word (b :: bs))) := by
          rw [word, ← BitVec.xor_assoc, step_xor p (c ^^^ _), hup]

section Burst

variable {p : BitVec w} (hp : p.getLsbD (w - 1) = true)

include hp

/-- A polynomial with its leading coefficient makes the division reversible. -/
theorem step_inj {x y : BitVec w} (h : step p x = step p y) : x = y := by
  have hbit : ∀ i, (x.getLsbD (1 + i) ^^ (x.getLsbD 0 && p.getLsbD i)) =
      (y.getLsbD (1 + i) ^^ (y.getLsbD 0 && p.getLsbD i)) := by
    intro i
    rw [← getLsbD_step, ← getLsbD_step, h]
  have hlow : x.getLsbD 0 = y.getLsbD 0 := by
    have htop := hbit (w - 1)
    rw [hp, BitVec.getLsbD_of_ge x _ (by omega), BitVec.getLsbD_of_ge y _ (by omega)] at htop
    simpa using htop
  refine BitVec.eq_of_getLsbD_eq ?_
  intro i _
  cases i with
  | zero => exact hlow
  | succ i =>
    have hi := hbit i
    rw [hlow, Bool.xor_left_inj, Nat.add_comm] at hi
    exact hi

theorem feed_inj (bs : List Bool) {c d : BitVec w} : feed p c bs = feed p d bs → c = d := by
  induction bs generalizing c d with
  | nil => intro h; exact h
  | cons b bs ih =>
    intro h
    exact (BitVec.xor_left_inj _).mp (step_inj hp (ih h))

/-- **BURSTS ARE DETECTED.**  Strings that differ only inside a window no wider
    than the remainder have different remainders. -/
theorem feed_burst {c : BitVec w} {bs cs : List Bool} (hlen : bs.length = cs.length) {s : Nat}
    (h : ∀ j, j < s ∨ s + w ≤ j → bs[j]? = cs[j]?) (hfeed : feed p c bs = feed p c cs) :
    bs = cs := by
  have hpre : bs.take s = cs.take s := by
    refine ext_getElem? ?_
    intro j
    by_cases hj : j < s
    · rw [List.getElem?_take_of_lt hj, List.getElem?_take_of_lt hj, h j (Or.inl hj)]
    · rw [List.getElem?_take_eq_none (by omega), List.getElem?_take_eq_none (by omega)]
  have hpost : (bs.drop s).drop w = (cs.drop s).drop w := by
    refine ext_getElem? ?_
    intro j
    rw [drop_drop, drop_drop, List.getElem?_drop, List.getElem?_drop, h _ (Or.inr (by omega))]
  have hsplit : ∀ l : List Bool, feed p c l =
      feed p (feed p (feed p c (l.take s)) ((l.drop s).take w)) ((l.drop s).drop w) := by
    intro l
    show l.foldl _ c = _
    rw [feed, feed, feed, ← foldl_append, ← foldl_append, take_append_drop, take_append_drop]
  rw [hsplit bs, hsplit cs, hpre, hpost] at hfeed
  have hmid := feed_inj hp _ hfeed
  have hl : ((bs.drop s).take w).length = ((cs.drop s).take w).length := by
    rw [length_take, length_take, length_drop, length_drop, hlen]
  have hle : ((bs.drop s).take w).length ≤ w := length_take_le _ _
  rw [feed_eq_iterate p ((bs.drop s).take w) _ hle,
    feed_eq_iterate p ((cs.drop s).take w) _ (hl ▸ hle), hl] at hmid
  have hword := (BitVec.xor_right_inj _).mp
    (Function.Injective.iterate (fun _ _ => step_inj hp) _ hmid)
  rw [← take_append_drop s bs, ← take_append_drop w (bs.drop s), hpre, hpost,
    word_inj hl hle hword, take_append_drop, take_append_drop]

end Burst

end MavCrc
