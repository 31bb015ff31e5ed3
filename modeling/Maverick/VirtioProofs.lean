import Maverick.ByteFileProofs
import Maverick.RunProofs

/-! # The rings of a virtqueue — driver and device

`virtio.c` shares an available and a used ring with the device. Each side finds them where its own
layout puts them and takes positions modulo its own size: the driver by `struct virtqueue` and
`VIRTIO_RING_SIZE`, a device by what `virtio_setup_queue` told it. Memory is kept in half-words,
and so are the offsets. -/

namespace MavVirtio

open MavRun MavByteFile List

/-! ## A ring in memory -/

/-- Entry `i` of the ring at `base`, whose entries have `w` half-words and stand
    behind its flags and its index. -/
def entry (mem : Nat → Nat) (base w i : Nat) : List Nat :=
  (range w).map fun k => mem (base + 2 + w * i + k)

/-- Write the entry at the index modulo `size`, then the index. -/
def put (mem : Nat → Nat) (base size : Nat) (x : List Nat) : Nat → Nat :=
  let idx := mem (base + 1)
  patch 0 [(idx + 1) % 2 ^ 16] (base + 1) (patch 0 x (base + 2 + x.length * (idx % size)) mem)

/-- The ring at `base` has 16 entries; of those that were `sent`, `got` have been
    read, up to the index `last`. -/
structure Ring (mem : Nat → Nat) (base w last : Nat) (sent got : List (List Nat)) : Prop where
  idx : mem (base + 1) = sent.length % 2 ^ 16
  last : last = got.length % 2 ^ 16
  read : got <+: sent
  room : sent.length ≤ got.length + 16
  kept : ∀ i x, got.length ≤ i → sent[i]? = some x → entry mem base w (i % 16) = x

/-- The entries before `j` end where it starts. -/
theorem mul_add_le (w : Nat) {i j : Nat} (h : i < j) : w * i + w ≤ w * j := by
  rw [← Nat.mul_succ]
  exact Nat.mul_le_mul_left w h

theorem entry_congr {mem mem' : Nat → Nat} {base w i : Nat}
    (h : ∀ k < w, mem' (base + 2 + w * i + k) = mem (base + 2 + w * i + k)) :
    entry mem' base w i = entry mem base w i :=
  map_congr_left fun k hk => h k (mem_range.mp hk)

section

variable {mem mem' : Nat → Nat} {base w last : Nat} {sent got : List (List Nat)} {x : List Nat}
  (h : Ring mem base w last sent got)

include h

/-- The ring does not depend on other memory. -/
theorem Ring.congr (hmem : ∀ a, base ≤ a → a < base + 2 + w * 16 → mem' a = mem a) :
    Ring mem' base w last sent got := by
  refine { h with idx := ?_, kept := fun i y hi hy => ?_ }
  · rw [hmem _ (by omega) (by omega)]
    exact h.idx
  · rw [← h.kept i y hi hy]
    refine entry_congr fun k hk => hmem _ (by omega) ?_
    have := mul_add_le w (show i % 16 < 16 by omega)
    omega

theorem Ring.put (hx : x.length = w) (hroom : sent.length < got.length + 16) :
    Ring (put mem base 16 x) base w last (sent ++ [x]) got := by
  have hidx := h.idx
  subst hx
  have hentry : ∀ i k, k < x.length → MavVirtio.put mem base 16 x (base + 2 + x.length * i + k) =
      if i = mem (base + 1) % 16 then x.getD k 0 else mem (base + 2 + x.length * i + k) := by
    intro i k hk
    rw [MavVirtio.put, patch_outside (.inr (by rw [length_singleton]; omega))]
    split
    · next heq =>
        subst heq
        rw [patch_inside (by omega) (by omega), Nat.add_sub_cancel_left]
    · next hne =>
        refine patch_outside ?_
        rcases Nat.lt_or_gt_of_ne hne with hlt | hlt
        all_goals
          have := mul_add_le x.length hlt
          omega
  refine ⟨?_, h.last, h.read.trans (prefix_append ..), ?_, fun i y hi hy => ?_⟩
  · rw [MavVirtio.put, patch_inside (Nat.le_refl _) (by rw [length_singleton]; omega), Nat.sub_self,
      length_append, length_singleton]
    show (mem (base + 1) + 1) % 2 ^ 16 = _
    omega
  · rw [length_append]
    exact hroom
  · rcases Nat.lt_trichotomy i sent.length with hlt | heq | hgt
    · -- the entry written is a lap away from those still to be read
      rw [getElem?_append_left hlt] at hy
      rw [← h.kept i y hi hy]
      refine entry_congr fun k hk => ?_
      rw [hentry _ k hk, if_neg (by omega)]
    · rw [heq, getElem?_concat_length] at hy
      rw [← Option.some.inj hy]
      refine ext_getElem (by rw [entry, length_map, length_range]) fun k hk _ => ?_
      simp only [entry, getElem_map, getElem_range]
      rw [hentry _ k (by assumption), if_pos (by omega)]
      exact getD_eq_getElem ..
    · rw [getElem?_eq_none (by rw [length_append]; exact hgt)] at hy
      exact nomatch hy

theorem Ring.next (hne : mem (base + 1) ≠ last) :
    Ring mem base w ((last + 1) % 2 ^ 16) sent (got ++ [entry mem base w (last % 16)]) := by
  have hidx := h.idx
  have hlast := h.last
  have hroom := h.room
  obtain ⟨rest, rfl⟩ := h.read
  cases rest with
  | nil =>
    rw [append_nil] at hidx
    exact absurd (hidx.trans hlast.symm) hne
  | cons x rest =>
    have hx : entry mem base w (last % 16) = x := by
      rw [show last % 16 = got.length % 16 by omega]
      refine h.kept _ x (Nat.le_refl _) ?_
      rw [getElem?_append_right (Nat.le_refl _), Nat.sub_self]
      rfl
    rw [hx]
    refine ⟨hidx, ?_, ⟨rest, append_assoc ..⟩, ?_, fun i y hi => h.kept i y ?_⟩
    · rw [length_append, length_singleton]
      omega
    · have hlen : (got ++ [x]).length = got.length + 1 := length_append
      omega
    · rw [length_append] at hi
      exact Nat.le_of_succ_le hi

/-- Equal indices mean that everything has been read. -/
theorem Ring.all (heq : mem (base + 1) = last) : got = sent := by
  have hidx := h.idx
  have hlast := h.last
  have hle := h.read.length_le
  have hroom := h.room
  exact h.read.eq_of_length (by omega)

end

/-! ## The two layouts -/

def virtioRingSize : Nat := 16

/-- `sizeof (struct virtq_desc)`. -/
def descSize : Nat := 8

/-- The size of an available ring with `n` entries: flags, index, entries and `used_event`. -/
def availSize (n : Nat) : Nat := 2 + n + 1

/-- The size of `_pad`. -/
def padSize : Nat := 4094 / 2 - descSize * virtioRingSize - availSize virtioRingSize

/-- Where one side looks for the rings, and how many entries it takes them to have. -/
structure Rings where
  avail : Nat
  used : Nat
  size : Nat

/-- `struct virtqueue`, whose first members are packed. -/
def driver : Rings where
  avail := descSize * virtioRingSize
  used := descSize * virtioRingSize + availSize virtioRingSize + padSize
  size := virtioRingSize

/-- What `virtio_setup_queue` writes to `QUEUE_NUM`. -/
def queueNum (maxSize : Nat) : Nat := if virtioRingSize > maxSize then maxSize else virtioRingSize

/-- A device after `virtio_setup_queue`: version 1 is told a page and an
    alignment, version 2 the addresses of the members. -/
def device (version maxSize : Nat) : Rings :=
  let size := queueNum maxSize
  if version = 1 then
    { avail := descSize * size
      used := (descSize * size + availSize size + 2047) / 2048 * 2048
      size := size }
  else { driver with size := size }

/-! ## The queue -/

/-- The memory of the queue, `last_used_idx`, the device's index in the available
    ring, and the entries that were written to and read from either ring. -/
structure Queue where
  mem : Nat → Nat
  lastUsed : Nat
  lastAvail : Nat
  submitted : List (List Nat)
  taken : List (List Nat)
  completed : List (List Nat)
  polled : List (List Nat)

/-- After the `memset` of `virtio_setup_queue`. -/
def setUp : Queue := ⟨fun _ => 0, 0, 0, [], [], [], []⟩

/-- A head goes into the available ring. -/
def virtioSubmit (q : Queue) (head : Nat) : Queue :=
  { q with
    mem := put q.mem driver.avail driver.size [head], submitted := q.submitted ++ [[head]] }

/-- The device looks for a head in the available ring. -/
def take (r : Rings) (q : Queue) : Queue :=
  if q.mem (r.avail + 1) = q.lastAvail then q
  else { q with
    lastAvail := (q.lastAvail + 1) % 2 ^ 16
    taken := q.taken ++ [entry q.mem r.avail 1 (q.lastAvail % r.size)] }

/-- `struct virtq_used_elem`: two words. -/
def usedElem (id len : Nat) : List Nat :=
  [id % 2 ^ 16, id / 2 ^ 16 % 2 ^ 16, len % 2 ^ 16, len / 2 ^ 16 % 2 ^ 16]

/-- The device puts an element into the used ring. -/
def complete (r : Rings) (q : Queue) (x : List Nat) : Queue :=
  { q with mem := put q.mem r.used r.size x, completed := q.completed ++ [x] }

/-- `virtio_poll`; the descriptors it frees are not in the rings. -/
def virtioPoll (q : Queue) : Queue :=
  if q.lastUsed = q.mem (driver.used + 1) then q
  else { q with
    lastUsed := (q.lastUsed + 1) % 2 ^ 16
    polled := q.polled ++ [entry q.mem driver.used 4 (q.lastUsed % driver.size)] }

/-- The steps of both sides. -/
inductive Event where
  | submit (head : Nat)
  | take
  | complete (id len : Nat)
  | poll

/-- Driver and device in any order. The bound on `submit` stands for `virtio_alloc_desc`, which gives
    every request in flight descriptors of its own; the free list itself is not modelled. A device
    completes what it has taken. -/
def step (r : Rings) (q : Queue) : Event → Option Queue
  | .submit head =>
    if head < 16 ∧ q.submitted.length < q.polled.length + 16 then some (virtioSubmit q head) else none
  | .take => some (take r q)
  | .complete id len =>
    if q.completed.length < q.taken.length then some (complete r q (usedElem id len)) else none
  | .poll => some (virtioPoll q)

/-- Both sides read what the other has written, once and in order, and when one
    of them finds nothing new there is nothing. -/
structure Agrees (r : Rings) (q : Queue) : Prop where
  taken : q.taken <+: q.submitted
  allTaken : q.mem (r.avail + 1) = q.lastAvail → q.taken = q.submitted
  polled : q.polled <+: q.completed
  allPolled : q.lastUsed = q.mem (driver.used + 1) → q.polled = q.completed

/-! ## One layout for both -/

/-- Both rings, with the device's counts between the driver's. -/
structure RingsOk (q : Queue) : Prop where
  avail : Ring q.mem driver.avail 1 q.lastAvail q.submitted q.taken
  used : Ring q.mem driver.used 4 q.lastUsed q.completed q.polled
  order : q.completed.length ≤ q.taken.length
  room : q.submitted.length ≤ q.polled.length + 16

variable {q q' : Queue} {e : Event}

/-- A ring is written between its start and its end. -/
theorem put_outside {mem : Nat → Nat} {base a : Nat} {x : List Nat}
    (h : a < base ∨ base + 2 + x.length * 16 ≤ a) : put mem base 16 x a = mem a := by
  have := mul_add_le x.length (Nat.mod_lt (mem (base + 1)) (show 16 > 0 by decide))
  rw [put, patch_outside (by rw [length_singleton]; omega), patch_outside (by omega)]

theorem RingsOk.step (h : RingsOk q) (hs : step driver q e = some q') : RingsOk q' := by
  have havail := h.avail.read.length_le
  have hused := h.used.read.length_le
  have horder := h.order
  have hroom := h.room
  cases e with
  | submit head =>
    obtain ⟨⟨-, hlt⟩, rfl⟩ := of_guard hs
    refine ⟨h.avail.put rfl (by omega), h.used.congr fun a ha _ => ?_, horder, ?_⟩
    · exact put_outside (.inr (Nat.le_trans (show 146 ≤ 2047 by decide) ha))
    · show (q.submitted ++ [[head]]).length ≤ _
      rw [length_append]
      exact hlt
  | complete id len =>
    obtain ⟨hlt, rfl⟩ := of_guard hs
    refine ⟨h.avail.congr fun a _ ha => ?_, h.used.put rfl (by omega), ?_, hroom⟩
    · exact put_outside (.inl (Nat.lt_of_lt_of_le ha (show 146 ≤ 2047 by decide)))
    · show (q.completed ++ [_]).length ≤ _
      rw [length_append]
      exact hlt
  | take =>
    obtain rfl := Option.some.inj hs
    rw [MavVirtio.take]
    split
    · exact h
    · next hne =>
        refine { h with avail := h.avail.next hne, order := ?_ }
        rw [length_append]
        exact Nat.le_succ_of_le horder
  | poll =>
    obtain rfl := Option.some.inj hs
    rw [virtioPoll]
    split
    · exact h
    · next hne =>
        refine { h with used := h.used.next (Ne.symm hne), room := ?_ }
        rw [length_append]
        exact Nat.le_succ_of_le hroom

theorem ringsOk_setUp : RingsOk setUp :=
  ⟨⟨rfl, rfl, nil_prefix, Nat.zero_le _, nofun⟩, ⟨rfl, rfl, nil_prefix, Nat.zero_le _, nofun⟩,
    Nat.le_refl _, Nat.zero_le _⟩

/-! ## Every device -/

/-- A request from `virtio_submit` to `virtio_poll`. -/
def served (head : Nat) : List Event := [.submit head, .take, .complete head 0, .poll]

/-- A ring with less entries is read from its start again while the driver goes on. -/
theorem second_lap_misread : ∀ size < 16, 1 ≤ size →
    (exec (step { driver with size := size }) setUp
      ((replicate size (served 0)).flatten ++ [.submit 1, .take])).any
      (fun q => !q.taken.isPrefixOf q.submitted) = true := by
  decide +kernel

/-- **RINGS**: driver and device agree in every run exactly if the device is told
    the addresses and has room for 16 entries. -/
theorem rings_agree_iff (version maxSize : Nat) (hmax : 1 ≤ maxSize) :
    (∀ es q, exec (step (device version maxSize)) setUp es = some q →
      Agrees (device version maxSize) q) ↔ version ≠ 1 ∧ 16 ≤ maxSize := by
  obtain ⟨hlo, hhi, hiff⟩ : 1 ≤ queueNum maxSize ∧ queueNum maxSize ≤ 16 ∧
      (16 ≤ maxSize ↔ queueNum maxSize = 16) := by
    unfold queueNum virtioRingSize
    split <;> omega
  rw [hiff, device]
  generalize queueNum maxSize = size at hlo hhi
  constructor
  · intro hall
    by_cases hv : version = 1
    · rw [if_pos hv] at hall
      by_cases h16 : size = 16
      · -- the used ring lies two bytes behind the driver's
        subst h16
        exact nomatch (hall [.submit 0, .take, .complete 0 0] _ rfl).allPolled rfl
      · -- it takes the unused descriptor `size`, still zero, for its available ring
        have hmissed := (hall [.submit 0] _ rfl).allTaken (put_outside (.inl ?_))
        · exact nomatch hmissed
        · show 8 * size + 1 < 128
          omega
    · rw [if_neg hv] at hall
      refine ⟨hv, ?_⟩
      by_contra hne
      obtain ⟨q, hq, hread⟩ := (Option.any_eq_true ..).mp
        (second_lap_misread size (by omega) hlo)
      rw [ isPrefixOf_iff_prefix.mpr (hall _ q hq).taken] at hread
      exact nomatch hread
  · rintro ⟨hv, rfl⟩ es q hq
    rw [if_neg hv] at hq ⊢
    have hok := exec_inv_all (fun _ _ _ h hs => RingsOk.step h hs) ringsOk_setUp hq
    exact ⟨hok.avail.read, hok.avail.all, hok.used.read, fun heq => hok.used.all heq.symm⟩

/-- A device of version 2 with room for 64 entries. -/
theorem modern_rings_agree :
    ∃ q, exec (step (device 2 64)) setUp (served 3) = some q ∧ Agrees (device 2 64) q ∧
      q.polled = [usedElem 3 0] :=
  ⟨_, rfl, (rings_agree_iff 2 64 (by decide)).mpr ⟨by decide, by decide⟩ (served 3) _ rfl, rfl⟩

/-- **MISSED COMPLETION**: a device of version 1 with 16 entries completes a
    request, and `virtio_poll` finds nothing. -/
theorem legacy_completion_missed :
    ∃ q, exec (step (device 1 16)) setUp (served 3) = some q ∧ q.taken = [[3]] ∧
      q.completed = [usedElem 3 0] ∧ q.polled = [] ∧ ¬ Agrees (device 1 16) q :=
  ⟨_, rfl, rfl, rfl, rfl, fun h => nomatch h.allPolled rfl⟩

end MavVirtio
