import Maverick.FieldProofs
import Maverick.RunProofs

/-! # Inodes — the three-level block index

An inode names the data blocks of a file by 12 direct pointers, an index block of 128 pointers and a
second-level index block. `inode_create` and `inode_extend` fill the three levels with sectors from
the free map; when the free map runs out in the middle they stop where they are, with what was
stored in memory and on disk so far.

The buffer cache is transparent, so the device is read and written directly. The free map is the
bitmap in memory: its copy on disk goes to sectors of its own that no file owns. -/

namespace MavInode

open MavBlock MavField MavRun List Option
open Function (update update_self update_of_ne)

/-! ## Blocks of pointers -/

/-- The sector as 128 words, `block_sector_t buffer[PTRS_PER_BLOCK]`. -/
def words (b : Block) : Fin 128 → Nat := fun i => getLe b (4 * i.val) 4

/-- The 128 words as a sector. -/
def ofWords (w : Fin 128 → Nat) : Block := fun k =>
  UInt8.ofNat (w ⟨k.val / 4, by omega⟩ / 256 ^ (k.val % 4))

def zeroBlock : Block := fun _ => 0

theorem words_ofWords {w : Fin 128 → Nat} (hw : ∀ i, w i < 2 ^ 32) : words (ofWords w) = w := by
  funext i
  have hi := hw i
  have hbyte : ∀ j, (h : j < 4) → ofWords w ⟨4 * i.val + j, by omega⟩ =
      UInt8.ofNat (w i / 256 ^ j) := by
    intro j hj
    have h1 : (4 * i.val + j) / 4 = i.val := by omega
    have h2 : (4 * i.val + j) % 4 = j := by omega
    simp only [ofWords, h1, h2]
  have hlist : bytesAt (ofWords w) (4 * i.val) 4 =
      [UInt8.ofNat (w i / 256 ^ 0), UInt8.ofNat (w i / 256 ^ 1), UInt8.ofNat (w i / 256 ^ 2),
       UInt8.ofNat (w i / 256 ^ 3)] := by
    have hb : ∀ j, (h : j < 4) → 4 * i.val + j < 512 := by omega
    simp only [bytesAt, range_succ, range_zero, map_cons, map_nil, nil_append, cons_append]
    rw [dif_pos (hb 0 (by omega)), dif_pos (hb 1 (by omega)), dif_pos (hb 2 (by omega)),
      dif_pos (hb 3 (by omega)), hbyte 0 (by omega), hbyte 1 (by omega), hbyte 2 (by omega),
      hbyte 3 (by omega)]
  simp only [words, getLe, hlist, leNat, UInt8.toNat_ofNat']
  omega

theorem words_lt (b : Block) (i : Fin 128) : words b i < 2 ^ 32 := getLe_lt b _ 4

/-! ## The inode on disk -/

def inodeMagic : Nat := 0x494e4f44

def inodeTypeFile : Nat := 0

def inodeTypeDir : Nat := 1

def inodeTypeSymlink : Nat := 2

/-- `struct inode_disk` without its magic number and padding. -/
structure InodeDisk where
  direct : Fin 12 → Nat
  indirect : Nat
  doublyIndirect : Nat
  length : Nat
  type : Nat
  nlink : Nat

def InodeDisk.word (n : InodeDisk) (i : Fin 128) : Nat :=
  if h : i.val < 12 then n.direct ⟨i.val, h⟩
  else
    match i.val with
    | 12 => n.indirect
    | 13 => n.doublyIndirect
    | 14 => n.length
    | 15 => n.type
    | 16 => n.nlink
    | 17 => inodeMagic
    | _ => 0

/-- The inode as it stands in its sector. -/
def InodeDisk.encode (n : InodeDisk) : Block := ofWords n.word

def InodeDisk.decode (b : Block) : InodeDisk where
  direct i := words b ⟨i.val, by omega⟩
  indirect := words b 12
  doublyIndirect := words b 13
  length := words b 14
  type := words b 15
  nlink := words b 16

/-- Every field fits its 32 bits. -/
structure InodeDisk.Fits (n : InodeDisk) : Prop where
  direct : ∀ i, n.direct i < 2 ^ 32
  indirect : n.indirect < 2 ^ 32
  doublyIndirect : n.doublyIndirect < 2 ^ 32
  length : n.length < 2 ^ 32
  type : n.type < 2 ^ 32
  nlink : n.nlink < 2 ^ 32

theorem InodeDisk.decode_encode {n : InodeDisk} (h : n.Fits) : decode n.encode = n := by
  have hw : ∀ i, n.word i < 2 ^ 32 := by
    intro i
    unfold word
    split
    · exact h.direct _
    split
    · exact h.indirect
    · exact h.doublyIndirect
    · exact h.length
    · exact h.type
    · exact h.nlink
    · decide
    · decide
  obtain ⟨d, i, di, l, t, k⟩ := n
  simp only [decode, encode, words_ofWords hw]
  have hd : (fun j : Fin 12 => word ⟨d, i, di, l, t, k⟩ ⟨j.val, by omega⟩) = d := by
    funext j
    exact dif_pos j.isLt
  rw [hd]
  rfl

/-! ## The free map -/

/-- The device and the bitmap of its sectors. -/
structure Store where
  disk : Disk
  used : Sector → Bool
  size : Nat

/-- `cache_write` of a whole sector. -/
def Store.write (s : Store) (x : Sector) (b : Block) : Store :=
  { s with disk := blockWrite s.disk x b }

/-- `free_map_allocate_one`: the first free sector. -/
def allocateOne (s : Store) : Option (Sector × Store) :=
  ((List.range s.size).find? fun x => !s.used x).map fun x =>
    (x, { s with used := update s.used x true })

/-- `free_map_release`; it panics on a sector that is not in use. -/
def freeMapRelease (s : Store) (x : Sector) : Option Store :=
  if x < s.size ∧ s.used x then some { s with used := update s.used x false } else none

/-! ## Growing a file -/

/-- `DIV_ROUND_UP(size, BLOCK_SECTOR_SIZE)`. -/
def bytesToSectors (size : Nat) : Nat := (size + 511) / 512

/-- The indices from `start` on, `cnt` of them or up to the end of the array. -/
def slots (n start cnt : Nat) : List (Fin n) :=
  (List.finRange n).filter fun i => start ≤ i.val ∧ i.val < start + cnt

/-- The loops that fill an array of pointers with zeroed data blocks. The loops over index blocks
    keep the pointers that are not zero; the loop over the direct pointers does not look. -/
def fillSlots {n : Nat} (keep : Bool) :
    List (Fin n) → Store → (Fin n → Nat) → Bool × Store × (Fin n → Nat)
  | [], s, a => (true, s, a)
  | i :: is, s, a =>
    if keep ∧ a i ≠ 0 then fillSlots keep is s a
    else
      match allocateOne s with
      | none => (false, s, a)
      | some (x, s) => fillSlots keep is (s.write x zeroBlock) (update a i x)

/-- The pointers of an index block: a new one holds zeros in memory (its sector
    is only written later), an old one is read. -/
def openIndex (s : Store) (p : Nat) : Option (Nat × Store × (Fin 128 → Nat)) :=
  if p = 0 then (allocateOne s).map fun (x, s) => (x, s, fun _ => 0)
  else some (p, s, words (s.disk p))

/-- The data blocks of one index block: open it, fill it, write it. The result
    has the sector of the index block. -/
def fillIndex (start cnt : Nat) (s : Store) (p : Nat) : Bool × Store × Nat :=
  match openIndex s p with
  | none => (false, s, p)
  | some (q, s, a) =>
    match fillSlots true (slots 128 start cnt) s a with
    | (false, s, _) => (false, s, q)
    | (true, s, a) => (true, s.write q (ofWords a), q)

/-- The loop over the second level: `cnt` data blocks are missing, the first
    index block starts at `start`, the others at 0. -/
def fillDouble : List (Fin 128) → Nat → Nat → Store → (Fin 128 → Nat) →
    Bool × Store × (Fin 128 → Nat)
  | [], _, _, s, a => (true, s, a)
  | i :: is, start, cnt, s, a =>
    if cnt = 0 then (true, s, a)
    else
      match fillIndex start (min (128 - start) cnt) s (a i) with
      | (false, s, q) => (false, s, update a i q)
      | (true, s, q) =>
        fillDouble is 0 (cnt - min (128 - start) cnt) s (update a i q)

/-- The second level from data block `old` to data block `new`. -/
def growDouble (old new : Nat) (s : Store) (p : Nat) : Bool × Store × Nat :=
  match openIndex s p with
  | none => (false, s, p)
  | some (q, s, a) =>
    match fillDouble ((List.finRange 128).drop ((old - 140) / 128)) ((old - 140) % 128)
        (new - max old 140) s a with
    | (false, s, _) => (false, s, q)
    | (true, s, a) => (true, s.write q (ofWords a), q)

/-- The allocation loops of `inode_extend`: data blocks `old` to `new - 1` of
    the inode. On failure the inode in memory keeps what was stored so far. -/
def growBlocks (old new : Nat) (s : Store) (n : InodeDisk) : Bool × Store × InodeDisk :=
  match fillSlots false (slots 12 old (new - old)) s n.direct with
  | (false, s, d) => (false, s, { n with direct := d })
  | (true, s, d) =>
    if new ≤ 12 then (true, s, { n with direct := d })
    else
      match fillIndex (old - 12) (new - max old 12) s n.indirect with
      | (false, s, q) => (false, s, { n with direct := d, indirect := q })
      | (true, s, q) =>
        if new ≤ 140 then (true, s, { n with direct := d, indirect := q })
        else
          match growDouble old new s n.doublyIndirect with
          | (ok, s, q') =>
            (ok, s, { n with direct := d, indirect := q, doublyIndirect := q' })

/-! ## Who owns a sector

Every sector in use is assigned to one place of one inode when it is allocated. The assignment is
kept by no code; it is what makes two places that hold the same sector the same place. -/

/-- The places of an inode that hold a sector number. -/
inductive Slot where
  | self
  | direct (i : Fin 12)
  | indirect
  | single (i : Fin 128)
  | doubly
  | index (i : Fin 128)
  | leaf (i j : Fin 128)
  deriving DecidableEq

/-- The pointers of the index block `p`, if there is one. -/
def ptrsAt (d : Disk) (p : Nat) : Fin 128 → Nat := if p = 0 then fun _ => 0 else words (d p)

/-- The sector number at a place of the inode at sector `x`; 0 for none. -/
def ptr (d : Disk) (x : Sector) (n : InodeDisk) : Slot → Nat
  | .self => x
  | .direct i => n.direct i
  | .indirect => n.indirect
  | .single i => ptrsAt d n.indirect i
  | .doubly => n.doublyIndirect
  | .index i => ptrsAt d n.doublyIndirect i
  | .leaf i j => ptrsAt d (ptrsAt d n.doublyIndirect i) j

abbrev Owner := Sector → Option (Sector × Slot)

/-- Every sector of the array is in use, and for its own place. -/
def ArrOk {n : Nat} (o : Owner) (s : Store) (x : Sector) (g : Fin n → Slot) (a : Fin n → Nat) :
    Prop :=
  ∀ i, a i ≠ 0 → s.used (a i) ∧ o (a i) = some (x, g i)

/-- The bitmap covers a device of at most 2^32 sectors, of which the first is never free. -/
structure MapOk (s : Store) : Prop where
  zero : s.used 0
  range : ∀ y, s.used y → y < s.size
  size : s.size ≤ 2 ^ 32

/-- More sectors are in use; those in use before are as they were, except that
    the sectors in `W` may have been written. -/
structure Grows (W : Sector → Prop) (o : Owner) (s : Store) (o' : Owner) (s' : Store) : Prop where
  size : s'.size = s.size
  range : ∀ y, s'.used y → s.used y ∨ y < s.size
  used : ∀ y, s.used y → s'.used y
  owner : ∀ y, s.used y → o' y = o y
  disk : ∀ y, s.used y → ¬ W y → s'.disk y = s.disk y
  zero : s'.disk 0 = s.disk 0

variable {a : Fin 128 → Nat} {b cnt n p q start : Nat} {j : Fin 128} {y : Sector} {s1 s2 : Store}
  {g : Fin 128 → Slot} {k : Slot} {o1 : Owner}

section Growth

variable {W : Sector → Prop} {o o' : Owner} {s s' : Store} {x : Sector}

theorem Grows.refl (W : Sector → Prop) (o : Owner) (s : Store) : Grows W o s o s :=
  ⟨rfl, fun _ h => .inl h, fun _ h => h, fun _ _ => rfl, fun _ _ _ => rfl, rfl⟩

/-- Of what is written second only the sectors that were in use at first count. -/
theorem Grows.trans {W1 W2 : Sector → Prop} {o2 : Owner} (h : Grows W1 o s o' s')
    (h' : Grows W2 o' s' o2 s2) (h1 : ∀ y, s.used y → W1 y → W y)
    (h2 : ∀ y, s.used y → W2 y → W y) : Grows W o s o2 s2 := by
  refine ⟨h'.size.trans h.size, ?_, ?_, ?_, ?_, h'.zero.trans h.zero⟩
  · intro y hy
    rcases h'.range y hy with hr | hr
    · exact h.range y hr
    · exact .inr (h.size ▸ hr)
  · exact fun y hy => h'.used y (h.used y hy)
  · exact fun y hy => (h'.owner y (h.used y hy)).trans (h.owner y hy)
  · intro y hy hW
    exact (h'.disk y (h.used y hy) fun hw => hW (h2 y hy hw)).trans
      (h.disk y hy fun hw => hW (h1 y hy hw))

/-- Only fresh sectors are written. -/
theorem Grows.trans_fresh {o2 : Owner} (h : Grows (fun _ => False) o s o' s')
    (h' : Grows (fun _ => False) o' s' o2 s2) : Grows W o s o2 s2 :=
  h.trans h' (fun _ _ hw => hw.elim) fun _ _ hw => hw.elim

/-- What is free afterwards was free before. -/
theorem Grows.unused (h : Grows W o s o' s') (hy : s'.used y = false) : s.used y = false := by
  by_contra hc
  rw [h.used y (by simpa using hc)] at hy
  exact nomatch hy

theorem Grows.mapOk (h : Grows W o s o' s') (hm : MapOk s) : MapOk s' := by
  refine ⟨h.used 0 hm.zero, ?_, h.size ▸ hm.size⟩
  intro y hy
  rw [h.size]
  rcases h.range y hy with h1 | h1
  · exact hm.range y h1
  · exact h1

theorem MapOk.ne_zero (hm : MapOk s) (h : s.used y = false) : y ≠ 0 := by
  rintro rfl
  exact nomatch h.symm.trans hm.zero

theorem ArrOk.grows {g : Fin n → Slot} {a : Fin n → Nat} (h : ArrOk o s x g a)
    (hg : Grows W o s o' s') : ArrOk o' s' x g a := by
  intro i hi
  obtain ⟨h1, h2⟩ := h i hi
  exact ⟨hg.used _ h1, (hg.owner _ h1).trans h2⟩

theorem ArrOk.lt {g : Fin n → Slot} {a : Fin n → Nat} (h : ArrOk o s x g a)
    (hm : MapOk s) (i : Fin n) : a i < 2 ^ 32 := by
  by_cases hi : a i = 0
  · rw [hi]
    decide
  · exact Nat.lt_of_lt_of_le (hm.range _ (h i hi).1) hm.size

/-- What `free_map_allocate_one` returns was free and is now in use. -/
theorem allocateOne_some (h : allocateOne s = some (y, s')) :
    s.used y = false ∧ y < s.size ∧ s' = { s with used := update s.used y true } := by
  obtain ⟨z, hz, heq⟩ := map_eq_some_iff.mp h
  obtain ⟨rfl, rfl⟩ := Prod.mk.inj heq
  have hfree := List.find?_some hz
  have hmem := mem_of_find?_eq_some hz
  refine ⟨?_, mem_range.mp hmem, rfl⟩
  simpa using hfree

/-- An allocated sector may be given to any place, and written. -/
theorem grows_allocate (hm : MapOk s) (h : allocateOne s = some (y, s'))
    (t : Sector × Slot) (b : Block) :
    Grows (fun _ => False) o s (update o y (some t)) (s'.write y b) ∧
      Grows (fun _ => False) o s (update o y (some t)) s' ∧
      s'.used y ∧ update o y (some t) y = some t := by
  obtain ⟨hfree, hlt, rfl⟩ := allocateOne_some h
  have hne : ∀ z, s.used z = true → z ≠ y := by
    rintro z hz rfl
    rw [hfree] at hz
    exact nomatch hz
  have hused : ∀ z, update s.used y true z = true → s.used z = true ∨ z < s.size := by
    intro z hz
    by_cases hzy : z = y
    · exact .inr (hzy ▸ hlt)
    · rw [update_of_ne hzy] at hz
      exact .inl hz
  have hmono : ∀ z, s.used z = true → update s.used y true z = true := by
    intro z hz
    rw [update_of_ne (hne z hz)]
    exact hz
  have hown : ∀ z, s.used z = true → update o y (some t) z = o z :=
    fun z hz => update_of_ne (hne z hz) ..
  exact ⟨⟨rfl, hused, hmono, hown, fun z hz _ => blockWrite_other (hne z hz),
    blockWrite_other (hne 0 hm.zero)⟩, ⟨rfl, hused, hmono, hown, fun _ _ _ => rfl, rfl⟩,
    update_self .., update_self ..⟩

/-- What the filling of an array of pointers does. -/
structure Filled {n : Nat} (keep : Bool) (is : List (Fin n)) (x : Sector) (g : Fin n → Slot)
    (o : Owner) (s : Store) (a : Fin n → Nat) (o' : Owner) (r : Bool × Store × (Fin n → Nat)) :
    Prop where
  grows : Grows (fun _ => False) o s o' r.2.1
  arr : ArrOk o' r.2.1 x g r.2.2
  other : ∀ i, i ∉ is → r.2.2 i = a i
  kept : keep = true → ∀ i, a i ≠ 0 → r.2.2 i = a i
  full : r.1 = true → ∀ i ∈ is, r.2.2 i ≠ 0
  zero : ∀ i, r.2.2 i ≠ a i → r.2.1.disk (r.2.2 i) = zeroBlock ∧ s.used (r.2.2 i) = false

/-- **FILLING** an array of pointers takes fresh sectors for its places. -/
theorem fillSlots_spec {g : Fin n → Slot} (keep : Bool) (is : List (Fin n)) (o : Owner)
    (s : Store) (a : Fin n → Nat) :
    is.Nodup → MapOk s →
      ArrOk o s x g a → ∃ o', Filled keep is x g o s a o' (fillSlots keep is s a) := by
  induction is generalizing o s a with
  | nil =>
    intro _ _ ha
    exact ⟨o, Grows.refl .., ha, fun _ _ => rfl, fun _ _ _ => rfl, nofun,
      fun i hi => absurd rfl hi⟩
  | cons i is ih =>
    intro hd hm ha
    obtain ⟨hi, hd⟩ := nodup_cons.mp hd
    unfold fillSlots
    by_cases hkeep : keep = true ∧ a i ≠ 0
    · -- the pointer is kept
      rw [if_pos hkeep]
      obtain ⟨o', F⟩ := ih o s a hd hm ha
      refine ⟨o', F.grows, F.arr, fun j hj => F.other j (fun h => hj (mem_cons_of_mem _ h)),
        F.kept, fun hok => forall_mem_cons.mpr ⟨?_, F.full hok⟩, F.zero⟩
      rw [F.kept hkeep.1 i hkeep.2]
      exact hkeep.2
    rw [if_neg hkeep]
    cases hal : allocateOne s with
    | none =>
      exact ⟨o, Grows.refl .., ha, fun _ _ => rfl, fun _ _ _ => rfl, nofun,
        fun j hj => absurd rfl hj⟩
    | some r =>
      obtain ⟨y, s1⟩ := r
      obtain ⟨hfree, -, -⟩ := allocateOne_some hal
      obtain ⟨hg, -, hused, hown⟩ := grows_allocate (o := o) hm hal (x, g i) zeroBlock
      have ha1 : ArrOk (update o y (some (x, g i))) (s1.write y zeroBlock) x g (update a i y) := by
        intro j hj
        by_cases hji : j = i
        · subst hji
          rw [update_self]
          exact ⟨hused, hown⟩
        · rw [update_of_ne hji] at hj ⊢
          exact ha.grows hg j hj
      obtain ⟨o', F⟩ := ih _ _ _ hd (hg.mapOk hm) ha1
      have hri : (fillSlots keep is (s1.write y zeroBlock) (update a i y)).2.2 i = y := by
        rw [F.other i hi, update_self]
      refine ⟨o', hg.trans_fresh F.grows, F.arr, ?_, ?_, ?_, ?_⟩
      · intro j hj
        have hji : j ≠ i := fun e => hj (e ▸ mem_cons_self ..)
        rw [F.other j (fun h => hj (mem_cons_of_mem _ h)), update_of_ne hji]
      · intro hk j hj
        have hji : j ≠ i := by
          rintro rfl
          exact hkeep ⟨hk, hj⟩
        have haj : update a i y j = a j := update_of_ne hji ..
        rw [F.kept hk j (haj ▸ hj), haj]
      · refine fun hok => forall_mem_cons.mpr ⟨?_, F.full hok⟩
        rw [hri]
        exact hm.ne_zero hfree
      · intro j hj
        by_cases hji : j = i
        · subst hji
          rw [hri]
          refine ⟨?_, hfree⟩
          rw [F.grows.disk y hused (fun h => h)]
          exact blockWrite_same ..
        · have haj : update a i y j = a j := update_of_ne hji ..
          obtain ⟨h1, h2⟩ := F.zero j (haj ▸ hj)
          exact ⟨h1, hg.unused h2⟩

theorem ptrsAt_zero (d : Disk) : ptrsAt d 0 = fun _ => 0 := if_pos rfl

theorem ne_zero_of_ptrsAt {d : Disk} {i : Fin 128} (h : ptrsAt d p i ≠ 0) : p ≠ 0 := by
  rintro rfl
  exact h (congrFun (ptrsAt_zero d) i)

theorem ptrsAt_of_ne (d : Disk) (h : p ≠ 0) : ptrsAt d p = words (d p) := if_neg h

theorem ptrsAt_congr {d d' : Disk} (h : p ≠ 0 → d' p = d p) : ptrsAt d' p = ptrsAt d p := by
  by_cases hp : p = 0
  · rw [hp, ptrsAt_zero, ptrsAt_zero]
  · rw [ptrsAt_of_ne d' hp, ptrsAt_of_ne d hp, h hp]

/-- The index block `p` stands at its place and so do its pointers. -/
def IdxOk (o : Owner) (s : Store) (x : Sector) (k : Slot) (g : Fin 128 → Slot) (p : Nat) : Prop :=
  (p ≠ 0 → s.used p ∧ o p = some (x, k)) ∧ ArrOk o s x g (ptrsAt s.disk p)

theorem openIndex_some (h : openIndex s p = some (q, s', a)) :
    a = ptrsAt s.disk p ∧ ((p ≠ 0 ∧ q = p ∧ s' = s) ∨ (p = 0 ∧ allocateOne s = some (q, s'))) := by
  unfold openIndex at h
  split at h
  · rename_i hp
    subst hp
    obtain ⟨⟨y, s1⟩, hal, heq⟩ := map_eq_some_iff.mp h
    obtain ⟨rfl, h2⟩ := Prod.mk.inj heq
    obtain ⟨rfl, rfl⟩ := Prod.mk.inj h2
    exact ⟨(ptrsAt_zero _).symm, .inr ⟨rfl, hal⟩⟩
  · rename_i hp
    obtain ⟨rfl, h2⟩ := pair_inj h
    obtain ⟨rfl, rfl⟩ := Prod.mk.inj h2
    exact ⟨(ptrsAt_of_ne _ hp).symm, .inl ⟨hp, rfl, rfl⟩⟩

/-- The index block `p` was opened as `q`, an old block or a new one, and has its place. -/
structure Opened (x : Sector) (k : Slot) (g : Fin 128 → Slot) (o : Owner) (s : Store) (p : Nat)
    (o' : Owner) (s' : Store) (q : Nat) : Prop where
  grows : Grows (fun _ => False) o s o' s'
  disk : s'.disk = s.disk
  arr : ArrOk o' s' x g (ptrsAt s.disk p)
  ne : q ≠ 0
  used : s'.used q
  owner : o' q = some (x, k)
  same : p ≠ 0 → q = p
  fresh : p = 0 → s.used q = false

theorem openIndex_spec
    (hm : MapOk s) (hi : IdxOk o s x k g p) (h : openIndex s p = some (q, s', a)) :
    a = ptrsAt s.disk p ∧ ∃ o', Opened x k g o s p o' s' q := by
  obtain ⟨ha, ⟨hp, rfl, rfl⟩ | ⟨hp, hal⟩⟩ := openIndex_some h
  · obtain ⟨h1, h2⟩ := hi.1 hp
    exact ⟨ha, o, Grows.refl .., rfl, hi.2, hp, h1, h2, fun _ => rfl, fun e => absurd e hp⟩
  · obtain ⟨-, hg, hu, ho⟩ := grows_allocate (o := o) hm hal (x, k) zeroBlock
    obtain ⟨hfree, _, rfl⟩ := allocateOne_some hal
    exact ⟨ha, _, hg, rfl, hi.2.grows hg, hm.ne_zero hfree, hu, ho, fun e => absurd hp e,
      fun _ => hfree⟩

/-- The index block is written back. -/
theorem Grows.writeIndex
    (W' : Sector → Prop) (h : Grows W o s o' s') (O : Opened x k g o s p o1 s1 q)
    (hW : ∀ y, W y → W' y) (hp : W' p) (b : Block) : Grows W' o s o' (s'.write q b) := by
  refine { h with disk := fun y hy hyW => ?_, zero := (blockWrite_other O.ne.symm).trans h.zero }
  have hyq : y ≠ q := by
    rintro rfl
    by_cases hp' : p = 0
    · rw [O.fresh hp'] at hy
      exact nomatch hy
    · exact hyW (O.same hp' ▸ hp)
  exact (blockWrite_other hyq).trans (h.disk y hy fun hy => hyW (hW y hy))

theorem ptrsAt_write (s : Store) (hq : q ≠ 0)
    (ha : ∀ i, a i < 2 ^ 32) : ptrsAt (s.write q (ofWords a)).disk q = a := by
  rw [ptrsAt_of_ne _ hq]
  show words (blockWrite s.disk q (ofWords a) q) = a
  rw [blockWrite_same, words_ofWords ha]

/-- A sector with another place is not the one written. -/
theorem write_place {y : Nat} {k' : Slot} (s : Store) (b : Block) (hq : o q = some (x, k))
    (hy : o y = some (x, k')) (hne : k' ≠ k) : (s.write q b).disk y = s.disk y := by
  refine blockWrite_other ?_
  rintro rfl
  rw [hq] at hy
  exact hne (pair_inj hy).2.symm

/-- What the filling of an index block does. -/
structure IdxFilled (is : List (Fin 128)) (x : Sector) (k : Slot) (g : Fin 128 → Slot) (o : Owner)
    (s : Store) (p : Nat) (o' : Owner) (r : Bool × Store × Nat) : Prop where
  grows : Grows (fun y => y = p) o s o' r.2.1
  same : p ≠ 0 → r.2.2 = p
  place : r.2.2 ≠ 0 → r.2.1.used r.2.2 ∧ o' r.2.2 = some (x, k)
  fresh : p = 0 → r.2.2 ≠ 0 → s.used r.2.2 = false
  failed : r.1 = false → r.2.2 ≠ 0 → r.2.1.disk r.2.2 = s.disk r.2.2
  done : r.1 = true → r.2.2 ≠ 0 ∧ ArrOk o' r.2.1 x g (ptrsAt r.2.1.disk r.2.2)
  full : r.1 = true → ∀ i ∈ is, ptrsAt r.2.1.disk r.2.2 i ≠ 0
  kept : r.1 = true → ∀ i, ptrsAt s.disk p i ≠ 0 →
    ptrsAt r.2.1.disk r.2.2 i = ptrsAt s.disk p i
  zero : r.1 = true → ∀ i, ptrsAt r.2.1.disk r.2.2 i ≠ ptrsAt s.disk p i →
    r.2.1.disk (ptrsAt r.2.1.disk r.2.2 i) = zeroBlock ∧
      s.used (ptrsAt r.2.1.disk r.2.2 i) = false

theorem slots_nodup (n start cnt : Nat) : (slots n start cnt).Nodup :=
  (nodup_finRange n).filter _

theorem mem_slots {i : Fin n} : i ∈ slots n start cnt ↔ start ≤ i.val ∧ i.val < start + cnt := by
  unfold slots
  simp

/-- **AN INDEX BLOCK** is filled with fresh sectors, and written only when that succeeds. -/
theorem fillIndex_spec (hgk : ∀ i, g i ≠ k) (start cnt : Nat)
    (hm : MapOk s) (hi : IdxOk o s x k g p) :
    ∃ o', IdxFilled (slots 128 start cnt) x k g o s p o' (fillIndex start cnt s p) := by
  unfold fillIndex
  cases hopen : openIndex s p with
  | none =>
    refine ⟨o, Grows.refl .., fun _ => rfl, hi.1, fun hp hq => absurd hp hq, fun _ _ => rfl,
      ?_, ?_, ?_, ?_⟩
    all_goals exact nofun
  | some r =>
    obtain ⟨q, s1, a⟩ := r
    obtain ⟨rfl, o1, O⟩ := openIndex_spec hm hi hopen
    obtain ⟨o', F⟩ := fillSlots_spec true (slots 128 start cnt) o1 s1 _ (slots_nodup ..)
      (O.grows.mapOk hm) O.arr
    simp only
    generalize fillSlots true (slots 128 start cnt) s1 (ptrsAt s.disk p) = r at F ⊢
    obtain ⟨ok, s2, a2⟩ := r
    have hg : Grows (fun _ => False) o s o' s2 := O.grows.trans_fresh F.grows
    have hplace : s2.used q ∧ o' q = some (x, k) :=
      ⟨F.grows.used q O.used, (F.grows.owner q O.used).trans O.owner⟩
    cases ok with
    | false =>
      refine ⟨o', O.grows.trans_fresh F.grows, O.same, fun _ => hplace, fun hp _ => O.fresh hp,
        fun _ _ => ?_, ?_, ?_, ?_, ?_⟩
      · rw [F.grows.disk q O.used (fun h => h), O.disk]
      all_goals exact nofun
    | true =>
      have hptrs := ptrsAt_write s2 O.ne (F.arr.lt (F.grows.mapOk (O.grows.mapOk hm)))
      refine ⟨o', hg.writeIndex (fun y => y = p) O (fun _ h => h.elim) rfl _, O.same,
        fun _ => hplace, fun hp _ => O.fresh hp, nofun, fun _ => ⟨O.ne, ?_⟩, ?_,
        ?_, ?_⟩
      · rw [hptrs]
        exact F.arr
      · intro _ i hi'
        rw [hptrs]
        exact F.full rfl i hi'
      · intro _ i hi'
        rw [hptrs]
        exact F.kept rfl i hi'
      · intro _ i hi'
        rw [hptrs] at hi' ⊢
        obtain ⟨h1, h2⟩ := F.zero i hi'
        -- the index block itself is none of its data blocks
        have ho := (F.arr i ((O.grows.mapOk hm).ne_zero h2)).2
        exact ⟨(write_place _ _ hplace.2 ho (hgk i)).trans h1, O.grows.unused h2⟩

/-- What the filling of the second level does. `b` is the number of the first
    index block, `start` the place in it. -/
structure DblFilled (b start cnt : Nat) (x : Sector) (o : Owner) (s : Store) (a : Fin 128 → Nat)
    (o' : Owner) (r : Bool × Store × (Fin 128 → Nat)) : Prop where
  grows : Grows (fun y => ∃ i, y = a i) o s o' r.2.1
  arr : ArrOk o' r.2.1 x .index r.2.2
  same : ∀ i, a i ≠ 0 → r.2.2 i = a i
  old : ∀ i, ArrOk o' r.2.1 x (.leaf i) (ptrsAt r.2.1.disk (a i))
  kept : ∀ i j, ptrsAt s.disk (a i) j ≠ 0 → ptrsAt r.2.1.disk (a i) j = ptrsAt s.disk (a i) j
  done : r.1 = true → ∀ i, ArrOk o' r.2.1 x (.leaf i) (ptrsAt r.2.1.disk (r.2.2 i))
  full : r.1 = true → ∀ t, 128 * b + start ≤ t → t < 128 * b + start + cnt →
    (h : t < 16384) → ptrsAt r.2.1.disk (r.2.2 ⟨t / 128, by omega⟩) ⟨t % 128, by omega⟩ ≠ 0
  zero : r.1 = true → ∀ i j,
    ptrsAt r.2.1.disk (r.2.2 i) j ≠ ptrsAt s.disk (a i) j →
      r.2.1.disk (ptrsAt r.2.1.disk (r.2.2 i) j) = zeroBlock ∧
        s.used (ptrsAt r.2.1.disk (r.2.2 i) j) = false
  fresh : ∀ i, r.2.2 i ≠ a i → s.used (r.2.2 i) = false
  spare : ∀ i j, ptrsAt r.2.1.disk (a i) j ≠ ptrsAt s.disk (a i) j →
    r.2.1.disk (ptrsAt r.2.1.disk (a i) j) = zeroBlock ∧
      s.used (ptrsAt r.2.1.disk (a i) j) = false

theorem drop_finRange (h : b < 128) :
    (List.finRange 128).drop b = ⟨b, h⟩ :: (List.finRange 128).drop (b + 1) := by
  rw [drop_eq_getElem_cons (by simpa using h)]
  simp

/-- Nothing is filled. -/
theorem DblFilled.refl (ha : ArrOk o s x .index a)
    (hl : ∀ i, ArrOk o s x (.leaf i) (ptrsAt s.disk (a i))) (h : cnt = 0 ∨ 128 ≤ b) :
    DblFilled b start cnt x o s a o (true, s, a) := by
  refine ⟨Grows.refl .., ha, fun _ _ => rfl, hl, fun _ _ _ => rfl, fun _ => hl, ?_,
    fun _ i j h => absurd rfl h, fun i h => absurd rfl h, fun i j h => absurd rfl h⟩
  intro _ t h1 h2 h3
  omega

/-! One index block of the second level is filled, the one at place `i`. -/

section OneIndex

variable {is : List (Fin 128)} {i : Fin 128} {ok : Bool}

section

variable (I : IdxFilled is x (.index i) (.leaf i) o s (a i) o' (ok, s', q))

include I

/-- The other index blocks are not touched. -/
theorem IdxFilled.others (ha : ArrOk o s x .index a) (hj : j ≠ i) :
    ptrsAt s'.disk (a j) = ptrsAt s.disk (a j) := by
  refine ptrsAt_congr fun hnz => I.grows.disk _ (ha j hnz).1 fun e => hj ?_
  have h1 := (ha j hnz).2
  rw [e, (ha _ (e ▸ hnz)).2] at h1
  exact (Slot.index.inj (pair_inj h1).2).symm

theorem IdxFilled.arr (ha : ArrOk o s x .index a) : ArrOk o' s' x .index (update a i q) := by
  intro j hj
  by_cases hji : j = i
  · subst hji
    rw [update_self] at hj ⊢
    exact I.place hj
  · rw [update_of_ne hji] at hj ⊢
    exact ha.grows I.grows j hj

theorem IdxFilled.keeps (hj : a j ≠ 0) : update a i q j = a j := by
  by_cases hji : j = i
  · subst hji
    rw [update_self]
    exact I.same hj
  · exact update_of_ne hji ..

theorem IdxFilled.unused (hj : update a i q j ≠ a j) : s.used (update a i q j) = false := by
  by_cases hji : j = i
  · subst hji
    rw [update_self] at hj ⊢
    by_cases hp : a j = 0
    · exact I.fresh hp fun e => hj (Eq.trans e hp.symm)
    · exact absurd (I.same hp) hj
  · exact absurd (update_of_ne hji ..) hj

end

theorem IdxFilled.leaves (I : IdxFilled is x (.index i) (.leaf i) o s (a i) o' (true, s', q))
    (ha : ArrOk o s x .index a) (hl : ∀ j, ArrOk o s x (.leaf j) (ptrsAt s.disk (a j)))
    (j : Fin 128) : ArrOk o' s' x (.leaf j) (ptrsAt s'.disk (update a i q j)) := by
  by_cases hji : j = i
  · subst hji
    rw [update_self]
    exact (I.done rfl).2
  · rw [update_of_ne hji, I.others ha hji]
    exact (hl j).grows I.grows

/-- An index block that could not be filled was not written. -/
theorem IdxFilled.stops (I : IdxFilled is x (.index i) (.leaf i) o s (a i) o' (false, s', q))
    (ha : ArrOk o s x .index a) (hl : ∀ j, ArrOk o s x (.leaf j) (ptrsAt s.disk (a j))) :
    DblFilled b start cnt x o s a o' (false, s', update a i q) := by
  have hdisk : ∀ j, ptrsAt s'.disk (a j) = ptrsAt s.disk (a j) := by
    intro j
    by_cases hji : j = i
    · refine ptrsAt_congr fun hnz => ?_
      have hq : q = a j := by
        rw [hji] at hnz ⊢
        exact I.same hnz
      exact hq ▸ I.failed rfl (hq.symm ▸ hnz)
    · exact I.others ha hji
  refine ⟨?_, I.arr ha, fun _ => I.keeps, ?_, ?_, ?_, ?_, ?_, fun _ => I.unused,
    fun j k h => absurd (congrFun (hdisk j) k) h⟩
  · exact { I.grows with disk := fun y hy hW => I.grows.disk y hy fun e => hW ⟨_, e⟩ }
  · intro j
    rw [hdisk j]
    exact (hl j).grows I.grows
  · intro j k _
    rw [hdisk j]
  all_goals exact nofun

variable {o2 : Owner} {a2 : Fin 128 → Nat}

/-- A new data block of the first index block stays zero while the others are filled. -/
theorem IdxFilled.stays_zero (I : IdxFilled is x (.index i) (.leaf i) o s (a i) o' (true, s', q))
    (hm : MapOk s) (ha : ArrOk o s x .index a)
    (D : DblFilled b 0 cnt x o' s' (update a i q) o2 (ok, s2, a2)) {k : Fin 128}
    (hne : ptrsAt s'.disk q k ≠ ptrsAt s.disk (a i) k) :
    s2.disk (ptrsAt s'.disk q k) = zeroBlock ∧ s.used (ptrsAt s'.disk q k) = false := by
  obtain ⟨h1, h2⟩ := I.zero rfl k hne
  have hnz : ptrsAt s'.disk q k ≠ 0 := hm.ne_zero h2
  have hplace := (I.done rfl).2 k hnz
  refine ⟨(D.grows.disk _ hplace.1 ?_).trans h1, h2⟩
  rintro ⟨j, hj⟩
  have h3 := (I.arr ha j (hj ▸ hnz)).2
  rw [← hj, hplace.2] at h3
  exact nomatch (pair_inj h3).2

/-- What is new after both steps is new in one of them: a pointer that the
    second step leaves alone belongs to the first index block. -/
theorem IdxFilled.new_leaf (I : IdxFilled is x (.index i) (.leaf i) o s (a i) o' (true, s', q))
    (hm : MapOk s) (ha : ArrOk o s x .index a)
    (D : DblFilled b 0 cnt x o' s' (update a i q) o2 (ok, s2, a2)) {k : Fin 128} {y : Nat}
    (hy : y = ptrsAt s'.disk (update a i q j) k) (hne : y ≠ ptrsAt s.disk (a j) k) :
    s2.disk y = zeroBlock ∧ s.used y = false := by
  have hji : j = i := by
    by_contra hji
    rw [update_of_ne hji, I.others ha hji] at hy
    exact hne hy
  subst hji
  rw [update_self] at hy
  subst hy
  exact I.stays_zero hm ha D hne

/-- The first index block was filled, and then the others from the next on. -/
theorem IdxFilled.goes_on (hstart : start < 128)
    (I : IdxFilled (slots 128 start (min (128 - start) n)) x (.index i) (.leaf i) o s (a i) o'
      (true, s', q)) (hm : MapOk s) (ha : ArrOk o s x .index a)
    (D : DblFilled (i.val + 1) 0 (n - min (128 - start) n) x o' s' (update a i q) o2
      (ok, s2, a2)) : DblFilled i.val start n x o s a o2 (ok, s2, a2) := by
  have hq := (I.done rfl).1
  refine ⟨?_, D.arr, ?_, ?_, ?_, D.done, ?_, ?_, ?_, ?_⟩
  · refine I.grows.trans D.grows (fun y _ e => ⟨_, e⟩) ?_
    rintro y hy ⟨j, rfl⟩
    by_cases hj : update a i q j = a j
    · exact ⟨j, hj⟩
    · rw [I.unused hj] at hy
      exact nomatch hy
  · intro j hj
    exact (D.same j ((I.keeps hj).symm ▸ hj)).trans (I.keeps hj)
  · intro j
    by_cases hj : a j = 0
    · rw [hj, ptrsAt_zero]
      exact fun k hk => absurd rfl hk
    · rw [← I.keeps hj]
      exact D.old j
  · intro j k hk
    have hj : a j ≠ 0 := ne_zero_of_ptrsAt hk
    have h1 : ptrsAt s'.disk (a j) k = ptrsAt s.disk (a j) k := by
      by_cases hji : j = i
      · subst hji
        have hk1 := I.kept rfl k hk
        rwa [I.same hj] at hk1
      · rw [I.others ha hji]
    have h2 := D.kept j k
    rw [I.keeps hj, h1] at h2
    exact h2 hk
  · intro hok t h1 h2 h3
    by_cases ht : t / 128 = i.val
    · -- in the first index block
      have hidx : (⟨t / 128, by omega⟩ : Fin 128) = i := Fin.ext ht
      rw [hidx]
      have h4 := I.full rfl ⟨t % 128, by omega⟩ (mem_slots.mpr ⟨by
        show start ≤ t % 128
        omega, by
        show t % 128 < start + min (128 - start) n
        omega⟩)
      have h5 := D.kept i ⟨t % 128, by omega⟩
      have h6 := D.same i
      rw [update_self] at h5 h6
      rw [h6 hq, h5 h4]
      exact h4
    · exact D.full hok t (by omega) (by omega) h3
  · intro hok j k hjk
    by_cases hv : ptrsAt s2.disk (a2 j) k = ptrsAt s'.disk (update a i q j) k
    · exact I.new_leaf hm ha D hv hjk
    · obtain ⟨h1, h2⟩ := D.zero hok j k hv
      exact ⟨h1, I.grows.unused h2⟩
  · intro j hj
    by_cases hv : a2 j = update a i q j
    · show s.used (a2 j) = false
      rw [hv]
      exact I.unused (hv ▸ hj)
    · exact I.grows.unused (D.fresh j hv)
  · intro j k hjk
    by_cases hj : a j = 0
    · rw [hj, ptrsAt_zero, ptrsAt_zero] at hjk
      exact absurd rfl hjk
    have hD := D.spare j k
    rw [I.keeps hj] at hD
    by_cases hv : ptrsAt s2.disk (a j) k = ptrsAt s'.disk (a j) k
    · refine I.new_leaf hm ha D ?_ hjk
      rw [I.keeps hj]
      exact hv
    · obtain ⟨h1, h2⟩ := hD hv
      exact ⟨h1, I.grows.unused h2⟩

end OneIndex

/-- **THE SECOND LEVEL** is filled index block by index block. -/
theorem fillDouble_spec (m b start cnt : Nat) (o : Owner) (s : Store) (a : Fin 128 → Nat) :
    128 - b = m → start < 128 → MapOk s → ArrOk o s x .index a →
    (∀ i, ArrOk o s x (.leaf i) (ptrsAt s.disk (a i))) →
    ∃ o', DblFilled b start cnt x o s a o'
      (fillDouble ((List.finRange 128).drop b) start cnt s a) := by
  induction m generalizing b start cnt o s a with
  | zero =>
    intro hb _ _ ha hl
    have hnil : (List.finRange 128).drop b = [] := drop_eq_nil_of_le (by simp; omega)
    rw [hnil]
    exact ⟨o, DblFilled.refl ha hl (.inr (by omega))⟩
  | succ m ih =>
    intro hb hstart hm ha hl
    have hb' : b < 128 := by omega
    rw [drop_finRange hb']
    unfold fillDouble
    by_cases hcnt : cnt = 0
    · rw [if_pos hcnt]
      exact ⟨o, DblFilled.refl ha hl (.inl hcnt)⟩
    rw [if_neg hcnt]
    obtain ⟨o1, I⟩ := fillIndex_spec (k := .index ⟨b, hb'⟩) (g := .leaf ⟨b, hb'⟩)
      nofun start (min (128 - start) cnt) hm ⟨ha ⟨b, hb'⟩, hl ⟨b, hb'⟩⟩
    generalize fillIndex start (min (128 - start) cnt) s (a ⟨b, hb'⟩) = r at I ⊢
    obtain ⟨ok, s1, q⟩ := r
    cases ok with
    | false => exact ⟨o1, I.stops ha hl⟩
    | true =>
      obtain ⟨o', D⟩ := ih (b + 1) 0 (cnt - min (128 - start) cnt) o1 s1
        (update a ⟨b, hb'⟩ q) (by omega) (by omega) (I.grows.mapOk hm) (I.arr ha)
        (I.leaves ha hl)
      exact ⟨o', I.goes_on hstart hm ha D⟩

/-- What the filling of the second level does, its index block included. -/
structure DblGrown (old new : Nat) (x : Sector) (o : Owner) (s : Store) (p : Nat) (o' : Owner)
    (r : Bool × Store × Nat) : Prop where
  grows : Grows (fun y => y = p ∨ ∃ i, y = ptrsAt s.disk p i) o s o' r.2.1
  same : p ≠ 0 → r.2.2 = p
  place : r.2.2 ≠ 0 → r.2.1.used r.2.2 ∧ o' r.2.2 = some (x, .doubly)
  fresh : p = 0 → r.2.2 ≠ 0 → s.used r.2.2 = false
  failed : r.1 = false → r.2.2 ≠ 0 → r.2.1.disk r.2.2 = s.disk r.2.2
  done : r.1 = true → r.2.2 ≠ 0 ∧ ArrOk o' r.2.1 x .index (ptrsAt r.2.1.disk r.2.2)
  leaf : r.1 = true → ∀ i, ArrOk o' r.2.1 x (.leaf i)
    (ptrsAt r.2.1.disk (ptrsAt r.2.1.disk r.2.2 i))
  before : ∀ i, ArrOk o' r.2.1 x (.leaf i) (ptrsAt r.2.1.disk (ptrsAt s.disk p i))
  index : r.1 = true → ∀ i, ptrsAt s.disk p i ≠ 0 →
    ptrsAt r.2.1.disk r.2.2 i = ptrsAt s.disk p i
  kept : ∀ i j, ptrsAt s.disk (ptrsAt s.disk p i) j ≠ 0 →
    ptrsAt r.2.1.disk (ptrsAt s.disk p i) j = ptrsAt s.disk (ptrsAt s.disk p i) j
  full : r.1 = true → ∀ t : Nat, old - 140 ≤ t → t < new - 140 → (h : t < 16384) →
    ptrsAt r.2.1.disk (ptrsAt r.2.1.disk r.2.2 ⟨t / 128, by omega⟩) ⟨t % 128, by omega⟩ ≠ 0
  zero : r.1 = true → ∀ i j,
    ptrsAt r.2.1.disk (ptrsAt r.2.1.disk r.2.2 i) j ≠ ptrsAt s.disk (ptrsAt s.disk p i) j →
      r.2.1.disk (ptrsAt r.2.1.disk (ptrsAt r.2.1.disk r.2.2 i) j) = zeroBlock ∧
        s.used (ptrsAt r.2.1.disk (ptrsAt r.2.1.disk r.2.2 i) j) = false
  newIndex : r.1 = true → ∀ i, ptrsAt r.2.1.disk r.2.2 i ≠ ptrsAt s.disk p i →
    s.used (ptrsAt r.2.1.disk r.2.2 i) = false
  spare : ∀ i j,
    ptrsAt r.2.1.disk (ptrsAt s.disk p i) j ≠ ptrsAt s.disk (ptrsAt s.disk p i) j →
      r.2.1.disk (ptrsAt r.2.1.disk (ptrsAt s.disk p i) j) = zeroBlock ∧
        s.used (ptrsAt r.2.1.disk (ptrsAt s.disk p i) j) = false

/-- The second level was filled after its own block had been opened. -/
theorem DblFilled.opened {r : Bool × Store × (Fin 128 → Nat)}
    (D : DblFilled b start cnt x o1 s1 a o' r) (O : Opened x k g o s p o1 s1 q) :
    DblFilled b start cnt x o s a o' r where
  grows := O.grows.trans D.grows (fun _ _ h => h.elim) fun _ _ h => h
  arr := D.arr
  same := D.same
  old := D.old
  kept := O.disk ▸ D.kept
  done := D.done
  full := D.full
  zero := fun hok i j h => by
    obtain ⟨h1, h2⟩ := D.zero hok i j (O.disk.symm ▸ h)
    exact ⟨h1, O.grows.unused h2⟩
  fresh := fun i h => O.grows.unused (D.fresh i h)
  spare := fun i j h => by
    obtain ⟨h1, h2⟩ := D.spare i j (O.disk.symm ▸ h)
    exact ⟨h1, O.grows.unused h2⟩

/-- The second level was filled and its own block written. -/
theorem DblFilled.written {old new : Nat} {a2 : Fin 128 → Nat}
    (hm : MapOk s) (O : Opened x .doubly .index o s p o1 s1 q) (hq : o' q = some (x, .doubly))
    (hu : s2.used q)
    (D : DblFilled ((old - 140) / 128) ((old - 140) % 128) (new - max old 140) x o s
      (ptrsAt s.disk p) o' (true, s2, a2)) :
    DblGrown old new x o s p o' (true, s2.write q (ofWords a2), q) := by
  have hptrs := ptrsAt_write s2 O.ne (D.arr.lt (D.grows.mapOk hm))
  have hsub : ∀ i, ptrsAt (s2.write q (ofWords a2)).disk (a2 i) = ptrsAt s2.disk (a2 i) :=
    fun i => ptrsAt_congr fun hnz => write_place _ _ hq (D.arr i hnz).2 nofun
  have hsubOld : ∀ i, ptrsAt (s2.write q (ofWords a2)).disk (ptrsAt s.disk p i) =
      ptrsAt s2.disk (ptrsAt s.disk p i) := by
    intro i
    by_cases hnz : ptrsAt s.disk p i = 0
    · rw [hnz, ptrsAt_zero, ptrsAt_zero]
    · rw [← D.same i hnz]
      exact hsub i
  refine ⟨D.grows.writeIndex (fun y => y = p ∨ _) O (fun _ => .inr) (.inl rfl) _, O.same,
    fun _ => ⟨hu, hq⟩, fun hp _ => O.fresh hp, nofun, fun _ => ⟨O.ne, ?_⟩, ?_, ?_, ?_,
    ?_, ?_, ?_, ?_, ?_⟩
  · rw [hptrs]
    exact D.arr
  · intro _ i
    simp only [hptrs, hsub]
    exact D.done rfl i
  · intro i
    simp only [hsubOld]
    exact D.old i
  · intro _ i hi'
    simp only [hptrs]
    exact D.same i hi'
  · intro i j h
    simp only [hsubOld]
    exact D.kept i j h
  · intro _ t h1 h2 h3
    simp only [hptrs, hsub]
    exact D.full rfl t (by omega) (by omega) h3
  · intro _ i j hij
    simp only [hptrs, hsub] at hij ⊢
    obtain ⟨h1, h2⟩ := D.zero rfl i j hij
    exact ⟨(write_place _ _ hq (D.done rfl i j (hm.ne_zero h2)).2 nofun).trans h1, h2⟩
  · intro _ i hne
    simp only [hptrs] at hne ⊢
    exact D.fresh i hne
  · intro i j hij
    simp only [hsubOld] at hij ⊢
    obtain ⟨h1, h2⟩ := D.spare i j hij
    exact ⟨(write_place _ _ hq (D.old i j (hm.ne_zero h2)).2 nofun).trans h1, h2⟩

theorem growDouble_spec (old new : Nat) (hm : MapOk s) (hi : IdxOk o s x .doubly .index p)
    (hl : ∀ i, ArrOk o s x (.leaf i) (ptrsAt s.disk (ptrsAt s.disk p i))) :
    ∃ o', DblGrown old new x o s p o' (growDouble old new s p) := by
  unfold growDouble
  cases hopen : openIndex s p with
  | none =>
    refine ⟨o, Grows.refl .., fun _ => rfl, hi.1, fun hp hq => absurd hp hq, fun _ _ => rfl,
      ?_, ?_, hl, ?_, fun _ _ _ => rfl, ?_, ?_, ?_, fun i j h => absurd rfl h⟩
    all_goals exact nofun
  | some r =>
    obtain ⟨q, s1, a⟩ := r
    obtain ⟨rfl, o1, O⟩ := openIndex_spec hm hi hopen
    have hl1 : ∀ i, ArrOk o1 s1 x (.leaf i) (ptrsAt s1.disk (ptrsAt s.disk p i)) := by
      intro i
      rw [O.disk]
      exact (hl i).grows O.grows
    obtain ⟨o', D1⟩ := fillDouble_spec (128 - (old - 140) / 128) ((old - 140) / 128)
      ((old - 140) % 128) (new - max old 140) o1 s1 _ rfl (by omega) (O.grows.mapOk hm) O.arr hl1
    have hqo : o' q = some (x, .doubly) := (D1.grows.owner q O.used).trans O.owner
    have hqu := D1.grows.used q O.used
    -- the second-level block is none of the index blocks under it
    have hqd : _ = s1.disk q := D1.grows.disk q O.used fun ⟨i, e⟩ => by
      have h1 := (O.arr i (e ▸ O.ne)).2
      rw [← e, O.owner] at h1
      exact nomatch (pair_inj h1).2
    have D := D1.opened O
    simp only
    generalize fillDouble ((List.finRange 128).drop ((old - 140) / 128)) ((old - 140) % 128)
      (new - max old 140) s1 (ptrsAt s.disk p) = r at D hqu hqd ⊢
    obtain ⟨ok, s2, a2⟩ := r
    cases ok with
    | false =>
      refine ⟨o', D.grows.trans (Grows.refl (fun _ => False) ..) (fun _ _ => .inr)
        (fun _ _ h => h.elim), O.same, fun _ => ⟨hqu, hqo⟩, fun hp _ => O.fresh hp,
        fun _ _ => hqd.trans (congrFun O.disk q), ?_, ?_, D.old, ?_, D.kept, ?_, ?_, ?_, D.spare⟩
      all_goals exact nofun
    | true => exact ⟨o', DblFilled.written hm O hqo hqu D⟩

end Growth

end MavInode
