import Mathlib

/-! # Ordered queues — first come, first served among equals

A queue kept by `list_insert_ordered`: a new element goes behind every element whose key is not
smaller. With a stamp for the moment of each insertion the order of the queue is `Before`: larger
keys first, and the earlier stamp among equal keys. -/

namespace MavQueue

open List

variable {α : Type}

/-- `list_insert_ordered` with "greater key" as its comparison. -/
def insertOrdered (key : α → Int) (x : α) (l : List α) : List α :=
  l.orderedInsert (fun a b => key b < key a) x

/-- `a` is served before `b`. -/
def Before (key : α → Int) (stamp : α → Nat) (a b : α) : Prop :=
  key b < key a ∨ (key a = key b ∧ stamp a < stamp b)

/-- The queue is in order. -/
def InOrder (key : α → Int) (stamp : α → Nat) (l : List α) : Prop :=
  l.Pairwise (Before key stamp)

variable {key : α → Int} {l : List α} {x : α} {stamp : α → Nat}

theorem mem_insertOrdered {y : α} :
    y ∈ insertOrdered key x l ↔ y = x ∨ y ∈ l := mem_orderedInsert _

theorem perm_insertOrdered (key : α → Int) (x : α) (l : List α) :
    (insertOrdered key x l).Perm (x :: l) := perm_orderedInsert _ x l

theorem Before.key_le {a b : α} (h : Before key stamp a b) : key b ≤ key a := by
  rcases h with h | h <;> omega

/-- An element with the latest stamp keeps the queue in order. -/
theorem InOrder.insert : ∀ {l : List α}, InOrder key stamp l → (∀ y ∈ l, stamp y < stamp x) →
      InOrder key stamp (insertOrdered key x l) := by
  intro l
  induction l with
  | nil => intro _ _; exact pairwise_singleton ..
  | cons y l ih =>
    intro h hx
    obtain ⟨hy, hl⟩ := pairwise_cons.mp h
    by_cases hk : key y < key x
    · -- the element goes to the front: it beats the head and all behind it
      rw [show insertOrdered key x (y :: l) = x :: y :: l from orderedInsert_cons_of_le _ _ hk]
      exact pairwise_cons.mpr ⟨forall_mem_cons.mpr
        ⟨.inl hk, fun z hz => .inl (Int.lt_of_le_of_lt (hy z hz).key_le hk)⟩, h⟩
    rw [show insertOrdered key x (y :: l) = y :: insertOrdered key x l from
      orderedInsert_of_not_le _ _ hk]
    refine pairwise_cons.mpr ⟨?_, ih hl fun z hz => hx z (mem_cons_of_mem _ hz)⟩
    intro z hz
    rcases mem_insertOrdered.mp hz with rfl | hz
    · have hstamp := hx y (mem_cons_self ..)
      rcases Int.lt_or_eq_of_le (Int.not_lt.mp hk) with hlt | heq
      · exact .inl hlt
      · exact .inr ⟨heq.symm, hstamp⟩
    · exact hy z hz

theorem InOrder.sublist {l' : List α}
    (h : InOrder key stamp l) (hs : l'.Sublist l) : InOrder key stamp l' :=
  List.Pairwise.sublist hs h

/-- Only the keys and stamps of the members matter. -/
theorem InOrder.congr {key' : α → Int} {stamp' : α → Nat}
    (h : InOrder key stamp l) (hk : ∀ y ∈ l, key' y = key y)
    (hs : ∀ y ∈ l, stamp' y = stamp y) : InOrder key' stamp' l := by
  refine List.Pairwise.imp_of_mem ?_ h
  intro a b ha hb hab
  unfold Before
  rw [hk a ha, hk b hb, hs a ha, hs b hb]
  exact hab

/-- The head of a queue in order has a largest key, and came first among those that share it. -/
theorem InOrder.head (h : InOrder key stamp (x :: l)) : ∀ y ∈ l, Before key stamp x y :=
  (pairwise_cons.mp h).1

/-! ## The largest element -/

/-- `list_max` with "smaller key" as its comparison: the first element with the largest key. -/
def listMax (key : α → Int) : List α → Option α
  | [] => none
  | x :: l => some (l.foldl (fun m y => if key m < key y then y else m) x)

theorem listMax_eq_argmax (key : α → Int) (l : List α) : listMax key l = l.argmax key := by
  have hfold : ∀ (l : List α) (x : α), some (l.foldl (fun m y => if key m < key y then y else m) x)
      = l.foldl (argAux fun b c => key c < key b) (some x) := by
    intro l
    induction l with
    | nil => exact fun _ => rfl
    | cons y l ih =>
      intro x
      rw [foldl_cons, ih, foldl_cons, argAux]
      dsimp only
      split <;> rfl
  cases l with
  | nil => rfl
  | cons x l => exact hfold l x

theorem listMax_mem (h : listMax key l = some x) : x ∈ l :=
  argmax_mem (listMax_eq_argmax key l ▸ h)

theorem le_listMax (h : listMax key l = some x) : ∀ y ∈ l, key y ≤ key x :=
  fun _ hy => le_of_mem_argmax hy (listMax_eq_argmax key l ▸ h)

theorem listMax_eq_none : listMax key l = none ↔ l = [] := by
  rw [listMax_eq_argmax]
  exact argmax_eq_none

end MavQueue
