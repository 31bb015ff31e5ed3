import Mathlib

/-! # The two allocators — room for every request

`malloc` of the user programs (`lib/user/malloc.c`) and of the kernel (`threads/malloc.c`). Both
cut blocks of a few sizes from pages and give a larger request pages of its own, whose length they
work out modulo 2^32. Each is measured against the bytes its caller asked for. -/

namespace MavMalloc

open List

def PGSIZE : Nat := 4096

/-- `DIV_ROUND_UP (n, PGSIZE)` on a `size_t`. -/
def pagesOf (n : Nat) : Nat := (n + (PGSIZE - 1)) % 2 ^ 32 / PGSIZE

/-- Memory handed out, up to the end of its block or of its pages. -/
structure Block where
  addr : Nat
  stop : Nat

/-- The bytes a caller may use. -/
def Block.room (b : Block) : Nat := b.stop - b.addr

/-- A block of `size` bytes in a page that starts with a header. -/
structure Slot (header size : Nat) where
  page : Nat
  idx : Nat
  inside : idx < (PGSIZE - header) / size

variable {header size : Nat}

def Slot.block (b : Slot header size) : Block :=
  ⟨b.page + header + b.idx * size, b.page + header + b.idx * size + size⟩

@[simp] theorem Slot.room_block (b : Slot header size) : b.block.room = size :=
  Nat.add_sub_cancel_left ..

/-- The blocks of a new page, in order. -/
def slots (header size page : Nat) : List (Slot header size) :=
  (finRange ((PGSIZE - header) / size)).map fun i => ⟨page, i.val, i.isLt⟩

@[simp] theorem length_slots (page : Nat) :
    (slots header size page).length = (PGSIZE - header) / size := by
  rw [slots, length_map, length_finRange]

/-- The first class of a table with room for `n` bytes. -/
def findSizeClass (classes : List Nat) (n : Nat) : Option Nat := classes.find? (n ≤ ·)

variable {classes : List Nat} {n c : Nat}

theorem findSizeClass_some (h : findSizeClass classes n = some c) : c ∈ classes ∧ n ≤ c :=
  ⟨mem_of_find?_eq_some h, by simpa using find?_some h⟩

theorem findSizeClass_none (h : findSizeClass classes n = none) : ∀ c ∈ classes, c < n := by
  simpa [findSizeClass] using h

/-! ## User programs -/

namespace User

def sizeClasses : List Nat := [16, 32, 64, 128, 256, 512, 1024, 2048]

/-- `struct arena`, a header of 32 bytes with the alignment. -/
structure Arena (size : Nat) where
  freeList : List (Slot 32 size)
  freeCount : Nat
  counted : freeCount = freeList.length

/-- `alloc_arena` on a page it got. Every block is pushed to the front. -/
def allocArena (size page : Nat) : Arena size where
  freeList := (slots 32 size page).reverse
  freeCount := (PGSIZE - 32) / size
  counted := by rw [length_reverse, length_slots]

/-- The first block of the free list. -/
def Arena.pop : Arena size → Option (Slot 32 size × Arena size)
  | ⟨[], _, _⟩ => none
  | ⟨b :: bs, k, h⟩ => some (b, ⟨bs, k - 1, by rw [h]; rfl⟩)

/-- `descriptors`, by the block size of the class. -/
abbrev Heap := (size : Nat) → List (Arena size)

/-- The walk to an arena with free blocks, and a block of it. -/
def takeBlock : List (Arena size) → Option (Slot 32 size × List (Arena size))
  | [] => none
  | a :: as =>
    if a.freeCount = 0 then (takeBlock as).map fun r => (r.1, a :: r.2)
    else a.pop.map fun r => (r.1, r.2 :: as)

/-- What a call returns, the lengths it asked `mmap_anon` for, and the heap. -/
structure Result where
  block : Option Block
  requests : List Nat
  heap : Heap

variable {mmapAnon : Nat → Option Nat} {h : Heap}

def mallocSmall (mmapAnon : Nat → Option Nat) (h : Heap) (n : Nat) : Result :=
  match findSizeClass sizeClasses n with
  | none => ⟨none, [], h⟩
  | some c =>
    match takeBlock (h c) with
    | some r => ⟨some r.1.block, [], Function.update h c r.2⟩
    | none =>
      match (mmapAnon PGSIZE).bind fun page => takeBlock (allocArena c page :: h c) with
      | some r => ⟨some r.1.block, [PGSIZE], Function.update h c r.2⟩
      | none => ⟨none, [PGSIZE], h⟩

/-- `malloc_large`; `struct mmap_header` takes 8 bytes. -/
def mallocLarge (mmapAnon : Nat → Option Nat) (h : Heap) (n : Nat) : Result :=
  let total := pagesOf ((n + 8) % 2 ^ 32) * PGSIZE
  ⟨(mmapAnon total).map fun ptr => ⟨ptr + 8, ptr + total⟩, [total], h⟩

def malloc (mmapAnon : Nat → Option Nat) (h : Heap) (n : Nat) : Result :=
  if n = 0 then ⟨none, [], h⟩
  else if PGSIZE ≤ n then mallocLarge mmapAnon h n
  else mallocSmall mmapAnon h n

/-- A request for `n` bytes is served: there is room for them, and a large one
    asked for the header as well. -/
def Result.Serves (n : Nat) (r : Result) : Prop :=
  (∃ b, r.block = some b ∧ n ≤ b.room) ∧ (PGSIZE ≤ n → ∃ len ∈ r.requests, n + 8 ≤ len)

/-- A page of a class holds at least one block. -/
theorem takeBlock_allocArena (hc : c ∈ sizeClasses) (page : Nat) (as : List (Arena c)) :
    (takeBlock (allocArena c page :: as)).isSome := by
  have hall : ∀ c ∈ sizeClasses, (PGSIZE - 32) / c ≠ 0 := by decide
  have hpos := hall c hc
  cases hs : (slots 32 c page).reverse with
  | nil =>
    have hlen := congrArg length hs
    rw [length_reverse, length_slots] at hlen
    exact absurd hlen hpos
  | cons b bs => simp [takeBlock, allocArena, hpos, Arena.pop, hs]

/-- `mmap_anon` succeeding, the small path serves what has a class. -/
theorem mallocSmall_serves (hm : ∀ len, (mmapAnon len).isSome) (hn : n ≤ 2048) :
    ∃ b, (mallocSmall mmapAnon h n).block = some b ∧ n ≤ b.room := by
  unfold mallocSmall
  cases hc : findSizeClass sizeClasses n with
  | none =>
    have := findSizeClass_none hc 2048 (by decide)
    omega
  | some c =>
    obtain ⟨hmem, hle⟩ := findSizeClass_some hc
    obtain ⟨page, hpage⟩ := Option.isSome_iff_exists.mp (hm PGSIZE)
    obtain ⟨r, hr⟩ := Option.isSome_iff_exists.mp (takeBlock_allocArena hmem page (h c))
    dsimp only
    cases takeBlock (h c) with
    | some r => exact ⟨r.1.block, rfl, by rwa [Slot.room_block]⟩
    | none => exact ⟨r.1.block, by simp [hpage, hr], by rwa [Slot.room_block]⟩

theorem mallocSmall_none (hn : 2048 < n) : (mallocSmall mmapAnon h n).block = none := by
  unfold mallocSmall
  cases hc : findSizeClass sizeClasses n with
  | none => rfl
  | some c =>
    obtain ⟨hmem, hle⟩ := findSizeClass_some hc
    have : ∀ c ∈ sizeClasses, c ≤ 2048 := by decide
    have := this c hmem
    omega

/-- **ROOM**: whatever the heap, `malloc` serves a request exactly when a class
    has room for it or it is large and neither the header nor the rounding wraps
    around. Between the largest class and the threshold nothing serves it. -/
theorem user_malloc_serves_iff (hm : ∀ len, (mmapAnon len).isSome) (h : Heap)
    (hpos : 0 < n) (hlt : n < 2 ^ 32) :
    (malloc mmapAnon h n).Serves n ↔ n ≤ 2048 ∨ PGSIZE ≤ n ∧ n ≤ 2 ^ 32 - 4104 := by
  unfold malloc Result.Serves
  rw [if_neg (Nat.ne_of_gt hpos)]
  by_cases hbig : PGSIZE ≤ n
  · rw [if_pos hbig]
    obtain ⟨ptr, hptr⟩ := Option.isSome_iff_exists.mp (hm (pagesOf ((n + 8) % 2 ^ 32) * PGSIZE))
    simp only [mallocLarge, hptr, Option.map_some, Option.some.injEq, exists_eq_left',
      mem_singleton, exists_eq_left, Block.room]
    unfold pagesOf PGSIZE at *
    omega
  · rw [if_neg hbig]
    by_cases hsmall : n ≤ 2048
    · exact iff_of_true ⟨mallocSmall_serves hm hsmall, fun hle => absurd hle hbig⟩ (.inl hsmall)
    · rw [mallocSmall_none (Nat.lt_of_not_le hsmall)]
      exact iff_of_false (fun ⟨⟨_, hb, _⟩, _⟩ => nomatch hb) (fun hn => hn.elim hsmall (hbig ·.1))

/-- A request of a page on an empty heap. -/
theorem user_malloc_serves_page :
    (malloc (fun _ => some 0x10000000) (fun _ => []) 4096).Serves 4096 :=
  (user_malloc_serves_iff (fun _ => rfl) _ (by decide) (by decide)).mpr
    (.inr ⟨by decide, by decide⟩)

/-- A request of 3000 bytes gets no block, and one of nearly the whole address
    space a page. -/
theorem user_malloc_refuses :
    (malloc (fun _ => some 0x10000000) (fun _ => []) 3000).block.isNone ∧
      (malloc (fun _ => some 0x10000000) (fun _ => []) (2 ^ 32 - 1)).requests = [4096] := by
  decide

end User

/-! ## The kernel -/

namespace Kernel

/-- The block sizes that `malloc_init` sets up. -/
def descs : List Nat := [16, 32, 64, 128, 256, 512, 1024]

/-- A pointer that `malloc` returned, with what its arena's header of 12 bytes says about it. -/
inductive Held where
  | small (size : Nat) (b : Slot 12 size)
  | big (page pageCnt : Nat)

def Held.block : Held → Block
  | .small _ b => b.block
  | .big page pageCnt => ⟨page + 12, page + pageCnt * PGSIZE⟩

/-- The free lists, by block size, and `free_cnt` of every arena. -/
structure Heap where
  freeList : (size : Nat) → List (Slot 12 size)
  freeCnt : Nat → Nat

/-- `palloc_get_multiple`. `scan` is the outcome of the search for free pages. -/
def pallocGetMultiple (scan : Nat → Option Nat) (pageCnt : Nat) : Option Nat :=
  if pageCnt = 0 then none else scan pageCnt

/-- A block leaves its free list. -/
def Heap.take (h : Heap) (size : Nat) (b : Slot 12 size) (bs : List (Slot 12 size)) : Heap where
  freeList := Function.update h.freeList size bs
  freeCnt := Function.update h.freeCnt b.page (h.freeCnt b.page - 1)

def malloc (scan : Nat → Option Nat) (h : Heap) (n : Nat) : Option Held × Heap :=
  if n = 0 then (none, h)
  else
    match findSizeClass descs n with
    | none =>
      let pageCnt := pagesOf ((n + 12) % 2 ^ 32)
      ((pallocGetMultiple scan pageCnt).map (.big · pageCnt), h)
    | some c =>
      match h.freeList c with
      | b :: bs => (some (.small c b), h.take c b bs)
      | [] =>
        match pallocGetMultiple scan 1 with
        | none => (none, h)
        | some page =>
          match slots 12 c page with
          | [] => (none, h)
          | b :: bs => (some (.small c b), { h with
              freeCnt := Function.update h.freeCnt page ((PGSIZE - 12) / c) }.take c b bs)

def calloc (scan : Nat → Option Nat) (h : Heap) (a b : Nat) : Option Held × Heap :=
  let n := a * b % 2 ^ 32
  if n < a ∨ n < b then (none, h) else malloc scan h n

/-- `free`. An arena whose last block comes back leaves the free list. -/
def free (h : Heap) : Held → Heap
  | .big _ _ => h
  | .small size b =>
    let cnt := h.freeCnt b.page + 1
    let bs := b :: h.freeList size
    { freeList := Function.update h.freeList size
        (if (PGSIZE - 12) / size ≤ cnt then bs.filter (·.page ≠ b.page) else bs)
      freeCnt := Function.update h.freeCnt b.page cnt }

def realloc (scan : Nat → Option Nat) (h : Heap) (old : Option Held) (n : Nat) :
    Option Held × Heap :=
  if n = 0 then (none, old.elim h (free h))
  else
    let r := malloc scan h n
    (r.1, if r.1.isSome then old.elim r.2 (free r.2) else r.2)

/-- What is returned has room for `n` bytes. -/
def Enough (n : Nat) (r : Option Held × Heap) : Prop := ∀ p, r.1 = some p → n ≤ p.block.room

variable {scan : Nat → Option Nat} {h : Heap} {p : Held}

/-- What `malloc` returns: a block of a class, or pages of its own. -/
theorem malloc_room (hm : (malloc scan h n).1 = some p) :
    0 < n ∧ (n ≤ 1024 ∧ n ≤ p.block.room ∧ p.block.room ≤ 1024 ∨
      1024 < n ∧ pagesOf ((n + 12) % 2 ^ 32) ≠ 0 ∧
        p.block.room = pagesOf ((n + 12) % 2 ^ 32) * PGSIZE - 12) := by
  unfold malloc at hm
  split at hm
  · exact nomatch hm
  rename_i h0
  refine ⟨Nat.pos_of_ne_zero h0, ?_⟩
  split at hm
  · rename_i hnone
    obtain ⟨page, hpage, rfl⟩ := Option.map_eq_some_iff.mp hm
    rw [pallocGetMultiple, Option.ite_none_left_eq_some] at hpage
    refine .inr ⟨findSizeClass_none hnone 1024 (by decide), hpage.1, ?_⟩
    simp only [Held.block, Block.room]
    omega
  rename_i c hc
  obtain ⟨hmem, hle⟩ := findSizeClass_some hc
  have hall : ∀ c ∈ descs, c ≤ 1024 := by decide
  have hsmall : ∃ b : Slot 12 c, p = .small c b := by
    split at hm
    · exact ⟨_, (Option.some.inj hm).symm⟩
    · split at hm
      · exact nomatch hm
      · split at hm
        · exact nomatch hm
        · exact ⟨_, (Option.some.inj hm).symm⟩
  obtain ⟨b, rfl⟩ := hsmall
  simp only [Held.block, Slot.room_block]
  exact .inl ⟨Nat.le_trans hle (hall c hmem), hle, hall c hmem⟩

/-- With free pages at hand, `malloc` returns memory unless the count of the
    pages comes out as 0. -/
theorem malloc_isSome (hpos : 0 < n) (hn : n ≤ 1024 ∨ pagesOf ((n + 12) % 2 ^ 32) ≠ 0) :
    (malloc some ⟨fun _ => [], fun _ => 0⟩ n).1.isSome := by
  unfold malloc
  rw [if_neg (Nat.ne_of_gt hpos)]
  split
  · rename_i hnone
    have hbig := findSizeClass_none hnone 1024 (by decide)
    have hpages := hn.resolve_left (Nat.not_le.mpr hbig)
    simp only [pallocGetMultiple, if_neg hpages, Option.map_some, Option.isSome_some]
  · rename_i c hc
    have hall : ∀ c ∈ descs, (PGSIZE - 12) / c ≠ 0 := by decide
    cases hs : slots 12 c 1 with
    | nil =>
      have hlen := congrArg length hs
      rw [length_slots] at hlen
      exact absurd hlen (hall c (findSizeClass_some hc).1)
    | cons b bs => simp [pallocGetMultiple, hs]

/-- Up to the last size whose sum with the header fits, what is returned has room. -/
theorem malloc_enough (scan : Nat → Option Nat) (h : Heap) (hn : n ≤ 2 ^ 32 - 12) :
    Enough n (malloc scan h n) := by
  intro p hp
  have hroom := malloc_room hp
  unfold pagesOf PGSIZE at hroom
  omega

/-- No block that `malloc` returns is as large as `m` bytes. -/
theorem not_enough {m : Nat} (hpos : 0 < n) (hlt : n < 2 ^ 32)
    (hpages : n < 2 ^ 32 - 4107 ∨ 2 ^ 32 - 12 < n) (hm : 2 ^ 32 - 12 < m) :
    ¬ ∀ scan h, Enough m (malloc scan h n) := by
  intro hall
  have hcnt : n ≤ 1024 ∨ pagesOf ((n + 12) % 2 ^ 32) ≠ 0 := by
    unfold pagesOf PGSIZE
    omega
  obtain ⟨p, hp⟩ := Option.isSome_iff_exists.mp (malloc_isSome hpos hcnt)
  have hle := hall some _ p hp
  have hroom := malloc_room hp
  unfold pagesOf PGSIZE at hroom
  omega

theorem realloc_fst (scan : Nat → Option Nat) (h : Heap) (old : Option Held) (n : Nat) :
    (realloc scan h old n).1 = (malloc scan h n).1 := by
  unfold realloc
  split
  · rename_i h0
    rw [malloc, if_pos h0]
  · rfl

/-- **ROOM**: in every state of the heap `malloc` and `realloc` return enough
    exactly up to the last size whose sum with the header fits in 32 bits;
    `calloc` does so for a product up to that size, or where the wrapped product
    is refused: it is below a factor, or its pages count as 0. -/
theorem kernel_malloc_room_iff {a b : Nat} (hn : n < 2 ^ 32) :
    ((∀ scan h, Enough n (malloc scan h n)) ↔ n ≤ 2 ^ 32 - 12) ∧
    ((∀ scan h old, Enough n (realloc scan h old n)) ↔ n ≤ 2 ^ 32 - 12) ∧
    ((∀ scan h, Enough (a * b) (calloc scan h a b)) ↔
      a * b ≤ 2 ^ 32 - 12 ∨ a * b % 2 ^ 32 < a ∨ a * b % 2 ^ 32 < b ∨
        2 ^ 32 - 4107 ≤ a * b % 2 ^ 32 ∧ a * b % 2 ^ 32 ≤ 2 ^ 32 - 12) := by
  have hmalloc : (∀ scan h, Enough n (malloc scan h n)) ↔ n ≤ 2 ^ 32 - 12 := by
    refine ⟨fun hall => ?_, fun hle scan h => malloc_enough scan h hle⟩
    by_contra hgt
    exact not_enough (by omega) hn (by omega) (by omega) hall
  refine ⟨hmalloc, ?_, fun hall => ?_, fun hc scan h p hp => ?_⟩
  · simp only [Enough, realloc_fst, forall_const]
    exact hmalloc
  · by_contra hc
    have hfits : ¬ (a * b % 2 ^ 32 < a ∨ a * b % 2 ^ 32 < b) := by omega
    simp only [calloc, if_neg hfits] at hall
    have hpos : 0 < a * b % 2 ^ 32 := by
      rcases Nat.eq_zero_or_pos a with rfl | hapos
      · omega
      · omega
    exact not_enough hpos (Nat.mod_lt _ (by decide)) (by omega) (by omega) hall
  · simp only [calloc] at hp
    split at hp
    · exact nomatch hp
    · rename_i hfits
      by_cases hle : a * b ≤ 2 ^ 32 - 12
      · rw [Nat.mod_eq_of_lt (by omega)] at hp
        exact malloc_enough scan h hle p hp
      · have hroom := malloc_room hp
        unfold pagesOf PGSIZE at hroom
        omega

/-- 5000 bytes, and an array of three records of five bytes. -/
theorem kernel_malloc_room_small :
    Enough 5000 (malloc some ⟨fun _ => [], fun _ => 0⟩ 5000) ∧
      Enough 5000 (realloc some ⟨fun _ => [], fun _ => 0⟩ none 5000) ∧
      Enough (3 * 5) (calloc some ⟨fun _ => [], fun _ => 0⟩ 3 5) := by
  obtain ⟨hmalloc, hrealloc, hcalloc⟩ :=
    kernel_malloc_room_iff (n := 5000) (a := 3) (b := 5) (by decide)
  exact ⟨hmalloc.mpr (by decide) _ _, hrealloc.mpr (by decide) _ _ _,
    hcalloc.mpr (.inl (by decide)) _ _⟩

/-- The product of 0x10001 with itself passes the test of `calloc` after it
    wrapped around, and the header wraps the largest size to one page. -/
theorem kernel_malloc_wraps :
    (calloc some ⟨fun _ => [], fun _ => 0⟩ 0x10001 0x10001).1.map (·.block.room) = some 135156 ∧
      (malloc some ⟨fun _ => [], fun _ => 0⟩ (2 ^ 32 - 1)).1.map (·.block.room) = some 4084 := by
  decide

end Kernel

end MavMalloc
