import Mathlib

/-! # Growable byte arrays

What a file is for its users: a sequence of elements that is read and written at an offset and grows
when it is written past its end, with a default element in the gap. A write is also a patch of the
function that reads one element, with the default past the end; that view is the one that composes.
-/

namespace MavByteFile

open List

variable {α : Type}

/-- The element at `i`; `z` past the end. -/
def elemAt (z : α) (f : List α) (i : Nat) : α := f.getD i z

/-- Overwrite the range that `buf` covers from `offset` on. -/
def patch (z : α) (buf : List α) (offset : Nat) (g : Nat → α) : Nat → α :=
  fun i => if offset ≤ i ∧ i < offset + buf.length then buf.getD (i - offset) z else g i

/-- Read at most `size` elements at `offset`. -/
def readAt (f : List α) (size offset : Nat) : List α := (f.drop offset).take size

/-- Write `buf` at `offset`, growing the array if it ends before. -/
def writeAt (z : α) (f buf : List α) (offset : Nat) : List α :=
  (f ++ List.replicate (offset - f.length) z).take offset ++ buf ++ f.drop (offset + buf.length)

theorem patch_inside {z : α} {buf : List α} {offset i : Nat} {g : Nat → α} (h1 : offset ≤ i)
    (h2 : i < offset + buf.length) : patch z buf offset g i = buf.getD (i - offset) z :=
  if_pos ⟨h1, h2⟩

theorem patch_outside {z : α} {buf : List α} {offset i : Nat} {g : Nat → α}
    (h : i < offset ∨ offset + buf.length ≤ i) : patch z buf offset g i = g i := by
  refine if_neg ?_
  intro hc
  omega

theorem patch_nil (z : α) (offset : Nat) (g : Nat → α) : patch z [] offset g = g :=
  funext fun i => patch_outside (by simp; omega)

/-- A write in two pieces. -/
theorem patch_split (z : α) (buf : List α) (k offset : Nat) (g : Nat → α) :
    patch z (buf.drop k) (offset + k) (patch z (buf.take k) offset g) = patch z buf offset g := by
  funext i
  have htake : (buf.take k).length = min k buf.length := length_take ..
  have hdrop : (buf.drop k).length = buf.length - k := length_drop ..
  by_cases h : offset ≤ i ∧ i < offset + buf.length
  · rw [patch_inside h.1 h.2]
    by_cases hk : i < offset + k
    · rw [patch_outside (Or.inl hk), patch_inside h.1 (by omega), getD_eq_getElem?_getD,
        getD_eq_getElem?_getD, List.getElem?_take, if_pos (by omega)]
    · rw [patch_inside (by omega) (by omega), getD_eq_getElem?_getD,
        getD_eq_getElem?_getD, List.getElem?_drop]
      congr 2
      omega
  · rw [patch_outside (by omega), patch_outside (by omega), patch_outside (by omega)]

theorem length_writeAt (z : α) (f buf : List α) (offset : Nat) :
    (writeAt z f buf offset).length = max f.length (offset + buf.length) := by
  unfold writeAt
  simp only [length_append, length_take, length_replicate, length_drop]
  omega

/-- **WRITE**: exactly the bytes of `buf` change, and a gap is filled with the default. -/
theorem elemAt_writeAt (z : α) (f buf : List α) (offset : Nat) :
    elemAt z (writeAt z f buf offset) = patch z buf offset (elemAt z f) := by
  have hpre : ((f ++ List.replicate (offset - f.length) z).take offset).length = offset := by
    simp only [length_take, length_append, length_replicate]
    omega
  funext i
  unfold elemAt writeAt
  simp only [getD_eq_getElem?_getD]
  by_cases h1 : i < offset
  · -- before the range: the old element, or the default in a gap
    rw [patch_outside (Or.inl h1), append_assoc, List.getElem?_append_left (by omega),
      List.getElem?_take, if_pos h1]
    by_cases hf : i < f.length
    · rw [List.getElem?_append_left hf]
    · rw [List.getElem?_append_right (by omega), List.getElem?_replicate,
        List.getElem?_eq_none (by omega : f.length ≤ i)]
      split
      · rfl
      · rfl
  · by_cases h2 : i < offset + buf.length
    · rw [patch_inside (by omega) h2, append_assoc,
        List.getElem?_append_right (by omega), hpre, List.getElem?_append_left (by omega),
        getD_eq_getElem?_getD]
    · rw [patch_outside (by omega), List.getElem?_append_right (by simp; omega),
        length_append, hpre, List.getElem?_drop]
      congr 2
      omega

/-- Two arrays of one length with the same elements are equal. -/
theorem ext_elemAt {z : α} {f f' : List α} (hl : f.length = f'.length)
    (h : ∀ i < f.length, elemAt z f i = elemAt z f' i) : f = f' := by
  refine ext_getElem hl fun i h1 h2 => ?_
  have he := h i h1
  unfold elemAt at he
  rw [getD_eq_getElem?_getD, getD_eq_getElem?_getD, List.getElem?_eq_getElem h1,
    List.getElem?_eq_getElem h2] at he
  exact he

theorem length_readAt (f : List α) (size offset : Nat) :
    (readAt f size offset).length = min size (f.length - offset) := by
  unfold readAt
  rw [length_take, length_drop]

theorem elemAt_readAt {z : α} {f : List α} {size offset i : Nat}
    (h : i < (readAt f size offset).length) :
    elemAt z (readAt f size offset) i = elemAt z f (offset + i) := by
  have h' := h
  rw [length_readAt] at h'
  unfold elemAt readAt
  rw [getD_eq_getElem?_getD, getD_eq_getElem?_getD, List.getElem?_take,
    if_pos (by omega), List.getElem?_drop]

/-- A read in two pieces. -/
theorem readAt_split (f : List α) {k size : Nat} (h : k ≤ size) (offset : Nat) :
    readAt f k offset ++ readAt f (size - k) (offset + k) = readAt f size offset := by
  unfold readAt
  rw [← drop_drop, ← take_add, Nat.add_sub_cancel' h]

end MavByteFile
