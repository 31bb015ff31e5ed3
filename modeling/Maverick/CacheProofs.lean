import Maverick.BlockProofs
import Maverick.RunProofs

/-! # The buffer cache — a sequential run is a run over plain sectors

`cache.c` keeps up to 64 sectors in memory and writes dirty ones back when it evicts or flushes
them. The model below is the code of one thread: hit, miss, partial and full write, eviction by the
clock (or the FIFO) policy, flush and prefetch, each with the state changes in the order of the
source.

The invariant `CacheOk` says that no slot is left `LOADING`, that a sector sits in at most one slot,
and that a clean slot equals the disk. Under it the cache presents one array of sectors,
`cacheView`, and every operation is an operation on that array; what reaches the disk on the way is
always a sector of the view. -/

namespace MavCache

open MavBlock MavRun List

/-- `enum cache_state`. -/
inductive CacheState where
  | invalid
  | loading
  | valid
  deriving DecidableEq, Repr

/-- `struct cache_entry`, without its lock and condition variable. -/
structure CacheEntry where
  sector : Sector
  state : CacheState
  dirty : Bool
  accessed : Bool
  data : Block

/-- `enum cache_replacement_policy`. -/
inductive ReplacementPolicy where
  | clock
  | fifo
  deriving DecidableEq, Repr

/-- The cache with the device under it. `writes` is the ghost list of every
    `block_write` issued, oldest first. -/
structure BufferCache where
  cache : Fin 64 → CacheEntry
  clockHand : Fin 64
  fifoHand : Fin 64
  policy : ReplacementPolicy
  disk : Disk
  writes : List (Sector × Block)

namespace BufferCache

/-- Replace one slot. -/
def setEntry (c : BufferCache) (i : Fin 64) (e : CacheEntry) : BufferCache :=
  { c with cache := Function.update c.cache i e }

/-- `block_write` through the device, recorded. -/
def deviceWrite (c : BufferCache) (s : Sector) (b : Block) : BufferCache :=
  { c with disk := blockWrite c.disk s b, writes := c.writes ++ [(s, b)] }

end BufferCache

open BufferCache

/-! ## Victim selection -/

/-- The loop of `evict_clock`; the first argument counts the scans left before its `PANIC`. -/
def evictClockLoop : Nat → BufferCache → Option (Fin 64 × BufferCache)
  | 0, _ => none
  | n + 1, c =>
    let hand := c.clockHand
    let entry := c.cache hand
    if entry.state = .valid then
      if entry.accessed = true then
        -- second chance
        evictClockLoop n
          { c.setEntry hand { entry with accessed := false } with
            clockHand := hand + 1 }
      else some (hand, { c with clockHand := hand + 1 })
    else evictClockLoop n { c with clockHand := hand + 1 }

/-- `evict_clock`: the body runs at most `2 * CACHE_SIZE + 1` times. -/
def evictClock (c : BufferCache) : Option (Fin 64 × BufferCache) :=
  evictClockLoop 129 c

/-- The loop of `evict_fifo`: one lap, then `PANIC`. -/
def evictFifoLoop : Nat → BufferCache → Option (Fin 64 × BufferCache)
  | 0, _ => none
  | n + 1, c =>
    let hand := c.fifoHand
    if (c.cache hand).state = .valid then
      some (hand, { c with fifoHand := hand + 1 })
    else evictFifoLoop n { c with fifoHand := hand + 1 }

def evictFifo (c : BufferCache) : Option (Fin 64 × BufferCache) :=
  evictFifoLoop 64 c

def selectVictim (c : BufferCache) : Option (Fin 64 × BufferCache) :=
  match c.policy with
  | .clock => evictClock c
  | .fifo => evictFifo c

/-! ## Lookup and eviction -/

/-- The slot's sector is `s` and the slot is in use. -/
def Holds (c : BufferCache) (i : Fin 64) (s : Sector) : Prop :=
  (c.cache i).state ≠ .invalid ∧ (c.cache i).sector = s
deriving Decidable

/-- `cache_lookup`: the first slot in use for the sector. -/
def cacheLookup (c : BufferCache) (s : Sector) : Option (Fin 64) :=
  (List.finRange 64).find? fun i => decide (Holds c i s)

/-- The scan of `cache_evict` for an empty slot. -/
def emptySlot (c : BufferCache) : Option (Fin 64) :=
  (List.finRange 64).find? fun i => decide ((c.cache i).state = .invalid)

/-- The write-back of `cache_evict`. -/
def writeBackVictim (c : BufferCache) (i : Fin 64) : BufferCache :=
  let victim := c.cache i
  if victim.dirty = true ∧ victim.state = .valid then
    (c.deviceWrite victim.sector victim.data).setEntry i { victim with dirty := false }
  else c

/-- `cache_evict`: an empty slot, or a victim written back if dirty. -/
def cacheEvict (c : BufferCache) : Option (Fin 64 × BufferCache) :=
  match emptySlot c with
  | some i => some (i, c)
  | none =>
    match selectVictim c with
    | none => none
    | some (i, c') => some (i, writeBackVictim c' i)

/-! ## The operations -/

/-- The miss path shared by `cache_read`, `cache_read_at` and
    `cache_do_prefetch`: reserve a slot, read the sector, mark it valid. -/
def cacheLoad (c : BufferCache) (s : Sector) (accessed : Bool) :
    Option (Fin 64 × BufferCache) :=
  match cacheEvict c with
  | none => none
  | some (i, c1) =>
    let c2 := c1.setEntry i
      { c1.cache i with state := .loading, sector := s, dirty := false }
    let c3 := c2.setEntry i { c2.cache i with data := c2.disk s }
    some (i, c3.setEntry i
      { c3.cache i with state := .valid, accessed := accessed })

/-- Find the sector or load it, and mark it accessed. A slot found `LOADING`
    is another thread's: a single thread would wait for ever. -/
def cacheFetch (c : BufferCache) (s : Sector) : Option (Fin 64 × BufferCache) :=
  match cacheLookup c s with
  | some i =>
    if (c.cache i).state = .valid then
      some (i, c.setEntry i { c.cache i with accessed := true })
    else none
  | none => cacheLoad c s true

def cacheRead (c : BufferCache) (s : Sector) : Option (Block × BufferCache) :=
  match cacheFetch c s with
  | none => none
  | some (i, c') => some ((c'.cache i).data, c')

def cacheReadAt (c : BufferCache) (s : Sector) (ofs len : Nat) :
    Option (List UInt8 × BufferCache) :=
  match cacheFetch c s with
  | none => none
  | some (i, c') => some (bytesAt (c'.cache i).data ofs len, c')

/-- `cache_write`. The miss path reads the sector first unless the write covers all of it. -/
def cacheWrite (c : BufferCache) (s : Sector) (ofs : Nat) (data : List UInt8) :
    Option BufferCache :=
  match cacheLookup c s with
  | some i =>
    let entry := c.cache i
    if entry.state = .valid then
      some (c.setEntry i { entry with
        data := memcpyInto entry.data ofs data, dirty := true, accessed := true })
    else none
  | none =>
    match cacheEvict c with
    | none => none
    | some (i, c1) =>
      let c2 := c1.setEntry i { c1.cache i with state := .loading, sector := s }
      let isFullWrite := ofs = 0 ∧ data.length = 512
      let c3 := if isFullWrite then c2
        else c2.setEntry i { c2.cache i with data := c2.disk s }
      some (c3.setEntry i { c3.cache i with
        data := memcpyInto (c3.cache i).data ofs data
        state := .valid, dirty := true, accessed := true })

/-- One turn of the loop of `cache_flush`. -/
def flushSlot (c : BufferCache) (i : Fin 64) : BufferCache :=
  let ce := c.cache i
  if ce.state = .valid ∧ ce.dirty = true then
    (c.deviceWrite ce.sector ce.data).setEntry i { ce with dirty := false }
  else c

def cacheFlush (c : BufferCache) : BufferCache :=
  (List.finRange 64).foldl flushSlot c

def cacheDoPrefetch (c : BufferCache) (s : Sector) : Option BufferCache :=
  match cacheLookup c s with
  | some _ => some c
  | none =>
    match cacheLoad c s false with
    | none => none
    | some (_, c') => some c'

/-- `cache_init`, whatever the slots held before. -/
def cacheInit (c : BufferCache) : BufferCache :=
  { c with
    clockHand := 0
    cache := fun i => { c.cache i with
      state := .invalid, dirty := false, accessed := false } }

/-! ## Slots and the view -/

@[simp] theorem setEntry_cache_same (c : BufferCache) (i : Fin 64) (e : CacheEntry) :
    (c.setEntry i e).cache i = e := Function.update_self ..

variable {i : Fin 64} {e : CacheEntry} {c a b c' : BufferCache} {s : Sector}

theorem setEntry_cache_other {j : Fin 64}
    (h : j ≠ i) : (c.setEntry i e).cache j = c.cache j := Function.update_of_ne h ..

@[simp] theorem setEntry_disk (c : BufferCache) (i : Fin 64) (e : CacheEntry) :
    (c.setEntry i e).disk = c.disk := rfl

@[simp] theorem setEntry_setEntry (c : BufferCache) (i : Fin 64) (e f : CacheEntry) :
    (c.setEntry i e).setEntry i f = c.setEntry i f := by
  show { c with cache := Function.update (Function.update c.cache i e) i f } = _
  rw [Function.update_idem]
  rfl

theorem cacheLookup_some (h : cacheLookup c s = some i) : Holds c i s := by
  simpa using List.find?_some h

theorem cacheLookup_none (h : cacheLookup c s = none) (i : Fin 64) : ¬ Holds c i s := by
  have := List.find?_eq_none.mp h i (mem_finRange i)
  exact fun hi => this (decide_eq_true hi)

theorem cacheLookup_isSome (h : Holds c i s) : ∃ j, cacheLookup c s = some j := by
  cases hl : cacheLookup c s with
  | none => exact absurd h (cacheLookup_none hl i)
  | some j => exact ⟨j, rfl⟩

/-- The array of sectors the cache presents: the slot's bytes where the sector
    is cached, the disk's elsewhere. -/
def cacheView (c : BufferCache) : Disk := fun s =>
  match cacheLookup c s with
  | some i => (c.cache i).data
  | none => c.disk s

/-- The invariant of a single-threaded cache. -/
structure CacheOk (c : BufferCache) : Prop where
  settled : ∀ i, (c.cache i).state ≠ .loading
  unique : ∀ i j, (c.cache i).state ≠ .invalid → (c.cache j).state ≠ .invalid →
    (c.cache i).sector = (c.cache j).sector → i = j
  clean : ∀ i, (c.cache i).state = .valid → (c.cache i).dirty = false →
    (c.cache i).data = c.disk (c.cache i).sector

theorem CacheOk.holds_unique (h : CacheOk c) {j : Fin 64}
    (hi : Holds c i s) (hj : Holds c j s) : i = j :=
  h.unique i j hi.1 hj.1 (hi.2.trans hj.2.symm)

theorem CacheOk.valid_of_holds (h : CacheOk c) (hi : Holds c i s) : (c.cache i).state = .valid := by
  cases hs : (c.cache i).state with
  | invalid => exact absurd hs hi.1
  | loading => exact absurd hs (h.settled i)
  | valid => rfl

theorem CacheOk.lookup_eq (h : CacheOk c) (hi : Holds c i s) : cacheLookup c s = some i := by
  obtain ⟨j, hj⟩ := cacheLookup_isSome hi
  rw [hj, h.holds_unique (cacheLookup_some hj) hi]

theorem view_of_lookup (h : cacheLookup c s = some i) : cacheView c s = (c.cache i).data := by
  unfold cacheView
  rw [h]

theorem view_of_absent (h : ∀ i, ¬ Holds c i s) : cacheView c s = c.disk s := by
  unfold cacheView
  cases hl : cacheLookup c s with
  | none => rfl
  | some i => exact absurd (cacheLookup_some hl) (h i)

theorem CacheOk.view_of_holds (h : CacheOk c)
    (hi : Holds c i s) : cacheView c s = (c.cache i).data :=
  view_of_lookup (h.lookup_eq hi)

/-- The slots hold the same sectors in the same states with the same bytes. -/
def SameSlots (c c' : BufferCache) : Prop := ∀ i,
  (c'.cache i).sector = (c.cache i).sector ∧
  (c'.cache i).state = (c.cache i).state ∧
  (c'.cache i).data = (c.cache i).data

theorem SameSlots.refl (c : BufferCache) : SameSlots c c :=
  fun _ => ⟨rfl, rfl, rfl⟩

theorem SameSlots.trans (h1 : SameSlots a b) (h2 : SameSlots b c) : SameSlots a c := fun i =>
  ⟨(h2 i).1.trans (h1 i).1, (h2 i).2.1.trans (h1 i).2.1,
    (h2 i).2.2.trans (h1 i).2.2⟩

theorem SameSlots.holds_iff (h : SameSlots c c') (i : Fin 64)
    (s : Sector) : Holds c' i s ↔ Holds c i s := by
  show (c'.cache i).state ≠ .invalid ∧ (c'.cache i).sector = s ↔ _
  rw [(h i).1, (h i).2.1]
  exact Iff.rfl

theorem SameSlots.lookup (h : SameSlots c c') (s : Sector) :
    cacheLookup c' s = cacheLookup c s := by
  have hp : (fun i => decide (Holds c' i s)) = (fun i => decide (Holds c i s)) := by
    funext i
    exact decide_eq_decide.mpr (h.holds_iff i s)
  show (List.finRange 64).find? (fun i => decide (Holds c' i s)) = _
  rw [hp]
  rfl

theorem SameSlots.view (h : SameSlots c c')
    (hd : ∀ s, (∀ i, ¬ Holds c i s) → c'.disk s = c.disk s) :
    cacheView c' = cacheView c := by
  funext s
  cases hl : cacheLookup c s with
  | some i =>
    rw [view_of_lookup hl, view_of_lookup ((h.lookup s).trans hl), (h i).2.2]
  | none =>
    have habs := cacheLookup_none hl
    rw [view_of_absent habs, ← hd s habs]
    exact view_of_absent (fun i hi => habs i ((h.holds_iff i s).mp hi))

/-! ## What an operation does to the disk -/

/-- The disk after the sectors `ws` of the view `v` are written back. -/
def writeBacks (v : Disk) (ws : List Sector) (d : Disk) : Disk :=
  ws.foldl (fun d s => blockWrite d s (v s)) d

theorem writeBacks_append (v : Disk) (ws us : List Sector) (d : Disk) :
    writeBacks v (ws ++ us) d = writeBacks v us (writeBacks v ws d) :=
  foldl_append ..

/-- The sector sits in some slot. -/
def Cached (c : BufferCache) (s : Sector) : Prop := ∃ i, Holds c i s

/-- The sector sits in a slot that has to be written back. -/
def DirtyIn (c : BufferCache) (s : Sector) : Prop :=
  ∃ i, Holds c i s ∧ (c.cache i).dirty = true

/-- The effect of an operation: the invariant, the new view `v`, a disk reached by writing back the
    sectors `ws` of the old view, all of them cached, no sector newly cached but `us`, and no sector
    clean again without having been written back. -/
structure Effect (c c' : BufferCache) (us ws : List Sector) (v : Disk) : Prop where
  ok : CacheOk c'
  view : cacheView c' = v
  disk : c'.disk = writeBacks (cacheView c) ws c.disk
  writes : c'.writes = c.writes ++ ws.map (fun s => (s, cacheView c s))
  cached : ∀ s, Cached c' s → Cached c s ∨ s ∈ us
  dirty : ∀ s, DirtyIn c s → DirtyIn c' s ∨ s ∈ ws
  backed : ∀ s ∈ ws, Cached c s ∨ s ∈ us

theorem Effect.refl (h : CacheOk c) : Effect c c [] [] (cacheView c) :=
  ⟨h, rfl, rfl, (append_nil _).symm, fun _ hs => .inl hs, fun _ hs => .inl hs, nofun⟩

theorem Effect.weaken {us us' ws : List Sector} {v : Disk}
    (h : Effect c c' us ws v) (hsub : us ⊆ us') : Effect c c' us' ws v :=
  { h with
    cached := fun s hs => (h.cached s hs).imp_right fun hu => hsub hu
    backed := fun s hs => (h.backed s hs).imp_right fun hu => hsub hu }

theorem Effect.trans {us us' ws ws' : List Sector} {v : Disk}
    (h1 : Effect a b us ws (cacheView a)) (h2 : Effect b c us' ws' v) :
    Effect a c (us ++ us') (ws ++ ws') v := by
  have hcached : ∀ s, Cached b s ∨ s ∈ us' → Cached a s ∨ s ∈ us ++ us' := by
    rintro s (hb | hu)
    · exact (h1.cached s hb).imp_right fun hu => mem_append_left _ hu
    · exact .inr (mem_append_right _ hu)
  refine ⟨h2.ok, h2.view, ?_, ?_, fun s hs => hcached s (h2.cached s hs), ?_, ?_⟩
  · rw [h2.disk, h1.view, h1.disk, writeBacks_append]
  · rw [h2.writes, h1.view, h1.writes, map_append, append_assoc]
  · intro s hs
    rcases h1.dirty s hs with hb | hw
    · exact (h2.dirty s hb).imp_right fun hw => mem_append_right _ hw
    · exact .inr (mem_append_left _ hw)
  · intro s hs
    rcases mem_append.mp hs with hs | hs
    · exact (h1.backed s hs).imp_right fun hu => mem_append_left _ hu
    · exact hcached s (h2.backed s hs)

theorem SameSlots.cached (h : SameSlots c c') (hs : Cached c' s) : Cached c s := by
  obtain ⟨i, hi⟩ := hs
  exact ⟨i, (h.holds_iff i s).mp hi⟩

/-! ## Victim selection, proved

Choosing a victim moves a hand and clears `accessed` bits. The clock never gives up while a slot is
valid: it counts the slots its hand has passed, and a valid one it comes back to has lost its bit.
-/

/-- Only `accessed` bits and the hands differ. -/
structure Touched (c c' : BufferCache) : Prop where
  slots : ∀ i, ∃ a, c'.cache i = { c.cache i with accessed := a }
  disk : c'.disk = c.disk
  writes : c'.writes = c.writes

theorem Touched.sameSlots (h : Touched c c') : SameSlots c c' := by
  intro i
  obtain ⟨a, ha⟩ := h.slots i
  rw [ha]
  exact ⟨rfl, rfl, rfl⟩

theorem Touched.dirty (h : Touched c c') (i : Fin 64) : (c'.cache i).dirty = (c.cache i).dirty := by
  obtain ⟨a, ha⟩ := h.slots i
  rw [ha]

/-- Setting or clearing one `accessed` bit changes no byte. -/
theorem touched_setAccessed (c : BufferCache) (i : Fin 64) (a : Bool) :
    Touched c (c.setEntry i { c.cache i with accessed := a }) := by
  refine ⟨fun j => ?_, rfl, rfl⟩
  by_cases hj : j = i
  · subst hj
    exact ⟨a, setEntry_cache_same ..⟩
  · exact ⟨(c.cache j).accessed, setEntry_cache_other hj⟩

/-- The slots once the hand has passed `k` of them: the valid ones among these
    have lost their bit. -/
def passed (c : BufferCache) (k : Nat) (i : Fin 64) : CacheEntry :=
  if (c.cache i).state = .valid ∧ (i - c.clockHand).val < k then
    { c.cache i with accessed := false }
  else c.cache i

/-- The loop does not take the slot `k` places from the hand: it is not valid, or
    has its bit, which it keeps for the first lap only. -/
def Passes (c : BufferCache) (k : Nat) : Prop :=
  ∀ i, (i - c.clockHand).val = k % 64 → (c.cache i).state = .valid →
    (c.cache i).accessed = true ∧ k < 64

theorem passed_succ {k : Nat} (h : (c.cache i).state = .valid → (i - c.clockHand).val ≠ k) :
    passed c (k + 1) i = passed c k i := by
  refine if_congr (and_congr_right fun hv => ?_) rfl rfl
  have := h hv
  omega

theorem evictClockLoop_pass (n k : Nat) {v : Fin 64} (hd : (v - c.clockHand).val = k % 64)
    (h : ∀ j < k, Passes c j) : evictClockLoop (k + n) c
      = evictClockLoop n { c with clockHand := v, cache := passed c k } := by
  induction k generalizing n v with
  | zero =>
    have hcache : passed c 0 = c.cache := funext fun i => if_neg fun hi => nomatch hi.2
    have hhand : v = c.clockHand := by omega
    rw [Nat.zero_add, hcache, hhand]
  | succ k ih =>
    obtain ⟨u, rfl⟩ : ∃ u, v = u + 1 := ⟨v - 1, by omega⟩
    have hu : (u - c.clockHand).val = k % 64 := by omega
    have hno := h k (Nat.lt_succ_self k) u hu
    have hk : passed c k u = c.cache u := if_neg fun hi => by
      have := (hno hi.1).2
      omega
    rw [Nat.add_right_comm, Nat.add_assoc, ih (n + 1) hu fun j hj => h j (Nat.lt_succ_of_lt hj),
      evictClockLoop]
    by_cases hv : (c.cache u).state = .valid
    · obtain ⟨hacc, hlt⟩ := hno hv
      have hcache : Function.update (passed c k) u { c.cache u with accessed := false }
          = passed c (k + 1) := by
        refine Function.update_eq_iff.mpr ⟨(if_pos ⟨hv, by omega⟩).symm, fun i hi => ?_⟩
        exact (passed_succ fun _ => by omega).symm
      simp only [hk, if_pos hv, if_pos hacc, setEntry, hcache]
    · have hcache : passed c k = passed c (k + 1) := by
        refine funext fun i => (passed_succ fun hi he => ?_).symm
        have hiu : i = u := by omega
        exact hv (hiu ▸ hi)
      simp only [hk, if_neg hv, hcache]

/-- With a valid slot the clock stops within two laps. -/
theorem evictClock_some (hi : (c.cache i).state = .valid) :
    ∃ v k, evictClock c = some (v, { c with clockHand := v + 1, cache := passed c k }) ∧
      k < 128 ∧ (v - c.clockHand).val = k % 64 ∧ (c.cache v).state = .valid ∧
      ¬ ((c.cache v).accessed = true ∧ k < 64) ∧ ∀ j < k, Passes c j := by
  classical
  have hlap : ¬ Passes c (64 + (i - c.clockHand).val) := fun h => by
    have := (h i (by omega) hi).2
    omega
  have hex : ∃ k, ¬ Passes c k := ⟨_, hlap⟩
  obtain ⟨k, hk, hs, hpass⟩ : ∃ k < 128, ¬ Passes c k ∧ ∀ j < k, Passes c j :=
    ⟨Nat.find hex, Nat.lt_of_le_of_lt (Nat.find_min' hex hlap) (by omega), Nat.find_spec hex,
      fun _ hj => not_not.mp (Nat.find_min hex hj)⟩
  simp only [Passes, not_forall] at hs
  obtain ⟨v, hd, hv, hstop⟩ := hs
  refine ⟨v, k, ?_, hk, hd, hv, hstop, hpass⟩
  have hslot : (passed c k v).state = .valid ∧ ¬ (passed c k v).accessed = true := by
    unfold passed
    split
    · exact ⟨hv, nofun⟩
    · next hnot =>
      have hge : ¬ (v - c.clockHand).val < k := fun hlt => hnot ⟨hv, hlt⟩
      exact ⟨hv, fun ha => hstop ⟨ha, by omega⟩⟩
  rw [evictClock, show 129 = k + (128 - k + 1) by omega, evictClockLoop_pass _ k hd hpass]
  exact (if_pos hslot.1).trans (if_neg hslot.2)

theorem selectVictim_some (hv : ∀ i, (c.cache i).state = .valid) :
    ∃ i c', selectVictim c = some (i, c') ∧ Touched c c' := by
  unfold selectVictim
  cases c.policy with
  | clock =>
    obtain ⟨v, k, hr, -⟩ := evictClock_some (hv 0)
    refine ⟨_, _, hr, fun i => ?_, rfl, rfl⟩
    show ∃ a, passed c k i = _
    unfold passed
    split
    · exact ⟨false, rfl⟩
    · exact ⟨(c.cache i).accessed, rfl⟩
  | fifo =>
    exact ⟨c.fifoHand, { c with fifoHand := c.fifoHand + 1 }, if_pos (hv c.fifoHand),
      fun i => ⟨(c.cache i).accessed, rfl⟩, rfl, rfl⟩

theorem emptySlot_some (h : emptySlot c = some i) : (c.cache i).state = .invalid := by
  simpa using List.find?_some h

theorem CacheOk.valid_of_full (h : CacheOk c)
    (he : emptySlot c = none) (i : Fin 64) : (c.cache i).state = .valid := by
  have hi := List.find?_eq_none.mp he i (mem_finRange i)
  exact h.valid_of_holds ⟨fun hs => hi (decide_eq_true hs), rfl⟩

theorem CacheOk.of_sameSlots (h : CacheOk c) (hs : SameSlots c c')
    (hclean : ∀ i, (c.cache i).state = .valid → (c'.cache i).dirty = false →
      (c.cache i).data = c'.disk (c.cache i).sector) : CacheOk c' := by
  refine ⟨fun i => ?_, fun i j hi hj hij => ?_, fun i hv hd => ?_⟩
  · rw [(hs i).2.1]; exact h.settled i
  · exact h.holds_unique ((hs.holds_iff i _).mp ⟨hi, hij⟩) ((hs.holds_iff j _).mp ⟨hj, rfl⟩)
  · rw [(hs i).2.1] at hv
    rw [(hs i).2.2, (hs i).1]
    exact hclean i hv hd

theorem CacheOk.of_touched (h : CacheOk c) (ht : Touched c c') : CacheOk c' := by
  refine h.of_sameSlots ht.sameSlots fun i hv hd => ?_
  rw [ht.dirty i] at hd
  rw [ht.disk]
  exact h.clean i hv hd

theorem Effect.of_touched (h : CacheOk c)
    (ht : Touched c c') : Effect c c' [] [] (cacheView c) := by
  refine ⟨h.of_touched ht, ht.sameSlots.view (fun s _ => congrFun ht.disk s), ht.disk,
    by rw [ht.writes]; exact (append_nil _).symm,
    fun s hs => .inl (ht.sameSlots.cached hs), ?_, nofun⟩
  rintro s ⟨i, hi, hd⟩
  exact .inl ⟨i, (ht.sameSlots.holds_iff i s).mpr hi, by rw [ht.dirty i]; exact hd⟩

/-- Write one valid slot back and mark it clean: the step that eviction and flush share. -/
def cleanSlot (c : BufferCache) (i : Fin 64) : BufferCache :=
  (c.deviceWrite (c.cache i).sector (c.cache i).data).setEntry i
    { c.cache i with dirty := false }

theorem cleanSlot_other {j : Fin 64} (h : j ≠ i) : (cleanSlot c i).cache j = c.cache j :=
  setEntry_cache_other h

theorem cleanSlot_sameSlots (c : BufferCache) (i : Fin 64) :
    SameSlots c (cleanSlot c i) := by
  intro j
  by_cases hj : j = i
  · subst hj
    rw [show (cleanSlot c j).cache j = { c.cache j with dirty := false } from
      setEntry_cache_same ..]
    exact ⟨rfl, rfl, rfl⟩
  · rw [cleanSlot_other hj]
    exact ⟨rfl, rfl, rfl⟩

theorem cleanSlot_effect (h : CacheOk c) (hv : (c.cache i).state = .valid) :
    Effect c (cleanSlot c i) [] [(c.cache i).sector] (cacheView c) := by
  have hs := cleanSlot_sameSlots c i
  have hi : Holds c i (c.cache i).sector :=
    ⟨by rw [hv]; exact CacheState.noConfusion, rfl⟩
  have hdisk : (cleanSlot c i).disk
      = blockWrite c.disk (c.cache i).sector (c.cache i).data := rfl
  refine ⟨h.of_sameSlots hs fun j hvj hdj => ?_, ?_, ?_, ?_, fun s hc => .inl (hs.cached hc), ?_,
    forall_mem_singleton.mpr (.inl ⟨i, hi⟩)⟩
  · rw [hdisk]
    by_cases hj : j = i
    · rw [hj, blockWrite_same]
    · have hne : (c.cache j).sector ≠ (c.cache i).sector := by
        intro he
        exact hj (h.unique j i (by rw [hvj]; exact CacheState.noConfusion) hi.1 he)
      rw [blockWrite_other hne]
      refine h.clean j hvj ?_
      rw [← hdj, cleanSlot_other hj]
  · refine hs.view (fun s hs' => ?_)
    refine blockWrite_other ?_
    intro he
    exact hs' i (by rw [he]; exact hi)
  · rw [hdisk, ← h.view_of_holds hi]
    rfl
  · show c.writes ++ [((c.cache i).sector, (c.cache i).data)] = _
    rw [← h.view_of_holds hi]
    rfl
  · rintro s ⟨j, hj, hd⟩
    by_cases hji : j = i
    · rw [hji] at hj
      exact .inr (mem_singleton.mpr hj.2.symm)
    · refine .inl ⟨j, (hs.holds_iff j s).mpr hj, ?_⟩
      rw [cleanSlot_other hji]
      exact hd

/-! ## Eviction and loading -/

theorem writeBackVictim_dirty (h : (c.cache i).dirty = true ∧ (c.cache i).state = .valid) :
    writeBackVictim c i = cleanSlot c i := if_pos h

/-- `cache_evict` always returns a slot, leaves the view alone, and the slot it
    returns can be reused: it is empty or equals the disk. -/
theorem cacheEvict_spec (h : CacheOk c) :
    ∃ i c' ws, cacheEvict c = some (i, c') ∧ Effect c c' [] ws (cacheView c) ∧
      SameSlots c c' ∧
      ((c'.cache i).state = .valid → (c'.cache i).dirty = false) := by
  cases he : emptySlot c with
  | some i =>
    refine ⟨i, c, [], ?_, Effect.refl h, SameSlots.refl c, ?_⟩
    · unfold cacheEvict
      rw [he]
    · intro hv
      rw [emptySlot_some he] at hv
      exact CacheState.noConfusion hv
  | none =>
    obtain ⟨i, c1, hsel, ht⟩ := selectVictim_some (h.valid_of_full he)
    have h1 := h.of_touched ht
    have hev : cacheEvict c = some (i, writeBackVictim c1 i) := by
      unfold cacheEvict
      rw [he]
      rw [hsel]
    by_cases hd : (c1.cache i).dirty = true ∧ (c1.cache i).state = .valid
    · rw [writeBackVictim_dirty hd] at hev
      refine ⟨i, cleanSlot c1 i, [(c1.cache i).sector], hev, ?_,
        ht.sameSlots.trans (cleanSlot_sameSlots c1 i), fun _ => ?_⟩
      · have heff := (Effect.of_touched h ht).trans (cleanSlot_effect h1 hd.2)
        rw [(Effect.of_touched h ht).view] at heff
        exact heff
      · exact congrArg CacheEntry.dirty (setEntry_cache_same ..)
    · rw [show writeBackVictim c1 i = c1 from if_neg hd] at hev
      refine ⟨i, c1, [], hev, Effect.of_touched h ht, ht.sameSlots, ?_⟩
      intro hv
      cases hdv : (c1.cache i).dirty with
      | false => rfl
      | true => exact absurd ⟨hdv, hv⟩ hd

/-- Putting a sector into a slot that no other slot has: the view gets the
    slot's bytes at that sector and keeps the rest, provided what was dirty in
    the slot is the same sector and stays dirty. -/
theorem setEntry_effect (h : CacheOk c) (hv : e.state = .valid)
    (habs : ∀ j, j ≠ i → ¬ Holds c j e.sector)
    (hkeep : (c.cache i).state = .valid → (c.cache i).dirty = true →
      (c.cache i).sector = e.sector ∧ e.dirty = true)
    (hd : e.dirty = false → e.data = c.disk e.sector) :
    Effect c (c.setEntry i e) [e.sector] [] (blockWrite (cacheView c) e.sector e.data) := by
  have hother : ∀ j, j ≠ i → ∀ s, Holds (c.setEntry i e) j s ↔ Holds c j s := by
    intro j hj s
    rw [Holds, setEntry_cache_other hj]
    exact Iff.rfl
  have hself : ∀ s, Holds (c.setEntry i e) i s ↔ e.sector = s := by
    intro s
    rw [Holds, setEntry_cache_same, hv]
    exact and_iff_right CacheState.noConfusion
  have hok : CacheOk (c.setEntry i e) := by
    refine ⟨fun j => ?_, fun j k hj hk hjk => ?_, fun j hvj hdj => ?_⟩
    · by_cases hji : j = i
      · rw [hji, setEntry_cache_same, hv]; exact CacheState.noConfusion
      · rw [setEntry_cache_other hji]; exact h.settled j
    · have hj' : Holds (c.setEntry i e) j ((c.setEntry i e).cache k).sector := ⟨hj, hjk⟩
      have hk' : Holds (c.setEntry i e) k ((c.setEntry i e).cache k).sector := ⟨hk, rfl⟩
      generalize ((c.setEntry i e).cache k).sector = t at hj' hk'
      by_cases hji : j = i
      · by_cases hki : k = i
        · rw [hji, hki]
        · rw [hji, hself] at hj'
          rw [← hj', hother k hki] at hk'
          exact absurd hk' (habs k hki)
      · rw [hother j hji] at hj'
        by_cases hki : k = i
        · rw [hki, hself] at hk'
          rw [← hk'] at hj'
          exact absurd hj' (habs j hji)
        · exact h.holds_unique hj' ((hother k hki _).mp hk')
    · by_cases hji : j = i
      · subst hji
        rw [setEntry_cache_same] at hdj ⊢
        exact hd hdj
      · rw [setEntry_cache_other hji] at hvj hdj ⊢
        exact h.clean j hvj hdj
  refine ⟨hok, ?_, rfl, (append_nil _).symm, ?_, ?_, nofun⟩
  · funext t
    by_cases hts : t = e.sector
    · rw [hts, blockWrite_same, hok.view_of_holds ((hself _).mpr rfl), setEntry_cache_same]
    rw [blockWrite_other hts]
    have hnot : ¬ Holds (c.setEntry i e) i t := fun hi => hts ((hself t).mp hi).symm
    by_cases hex : ∃ j, j ≠ i ∧ Holds c j t
    · obtain ⟨j, hji, hj⟩ := hex
      rw [h.view_of_holds hj, hok.view_of_holds ((hother j hji t).mpr hj), setEntry_cache_other hji]
    rw [view_of_absent (c := c.setEntry i e) fun j hj => ?_]
    · by_cases hi : Holds c i t
      · -- the sector that leaves: its slot was clean, so the disk has it
        have hvi := h.valid_of_holds hi
        have hclean : (c.cache i).dirty = false := Bool.eq_false_iff.mpr fun hdi =>
          hts (hi.2.symm.trans (hkeep hvi hdi).1)
        rw [h.view_of_holds hi, h.clean i hvi hclean, hi.2]
        rfl
      · show c.disk t = _
        refine (view_of_absent fun j hj => ?_).symm
        by_cases hji : j = i
        · exact hi (hji ▸ hj)
        · exact hex ⟨j, hji, hj⟩
    · by_cases hji : j = i
      · exact hnot (hji ▸ hj)
      · exact hex ⟨j, hji, (hother j hji t).mp hj⟩
  · rintro s ⟨j, hj⟩
    by_cases hji : j = i
    · rw [hji, hself] at hj
      exact .inr (mem_singleton.mpr hj.symm)
    · exact .inl ⟨j, (hother j hji s).mp hj⟩
  · rintro s ⟨j, hj, hdj⟩
    by_cases hji : j = i
    · subst hji
      obtain ⟨hsec, hdirty⟩ := hkeep (h.valid_of_holds hj) hdj
      exact .inl ⟨j, (hself s).mpr (hsec.symm.trans hj.2), by rw [setEntry_cache_same]; exact hdirty⟩
    · exact .inl ⟨j, (hother j hji s).mpr hj, by rw [setEntry_cache_other hji]; exact hdj⟩

/-! ## One specification per operation -/

section

variable (h : CacheOk c)

include h

/-- Filling the slot that `cache_evict` returns with an absent sector. -/
theorem cacheEvict_fill (habs : ∀ i, ¬ Holds c i s) :
    ∃ i c1 ws, cacheEvict c = some (i, c1) ∧ c1.disk s = cacheView c s ∧
      ∀ e : CacheEntry, e.state = .valid → e.sector = s → (e.dirty = false → e.data = c1.disk s) →
        Effect c (c1.setEntry i e) [s] ws (blockWrite (cacheView c) s e.data) ∧
          Holds (c1.setEntry i e) i s := by
  obtain ⟨i, c1, ws, hev, heff, hsame, hclean⟩ := cacheEvict_spec h
  have habs1 : ∀ j, ¬ Holds c1 j s := fun j hj => habs j ((hsame.holds_iff j s).mp hj)
  have hdisk : c1.disk s = cacheView c s := by
    rw [← heff.view, view_of_absent habs1]
  refine ⟨i, c1, ws ++ [], hev, hdisk, ?_⟩
  rintro e hv rfl hd
  have hfill := heff.trans (setEntry_effect heff.ok hv (fun j _ => habs1 j)
    (fun hvi hdi => nomatch (hclean hvi).symm.trans hdi) hd)
  rw [heff.view] at hfill
  refine ⟨hfill, ?_⟩
  rw [Holds, setEntry_cache_same, hv]
  exact ⟨CacheState.noConfusion, rfl⟩

/-- Loading an absent sector leaves the view alone and returns a slot with it. -/
theorem cacheLoad_spec (habs : ∀ i, ¬ Holds c i s) (a : Bool) :
    ∃ i c' ws, cacheLoad c s a = some (i, c') ∧ Effect c c' [s] ws (cacheView c) ∧
      Holds c' i s ∧ (c'.cache i).data = cacheView c s := by
  obtain ⟨i, c1, ws, hev, hdisk, hfill⟩ := cacheEvict_fill h habs
  obtain ⟨heff, hi⟩ := hfill { c1.cache i with
    state := .valid, sector := s, dirty := false, accessed := a, data := c1.disk s } rfl rfl
    fun _ => rfl
  rw [blockWrite_self hdisk.symm] at heff
  refine ⟨i, _, ws, ?_, heff, hi, ?_⟩
  · unfold cacheLoad
    rw [hev]
    simp only [setEntry_setEntry, setEntry_cache_same, setEntry_disk]
  · rw [setEntry_cache_same]
    exact hdisk

theorem cacheFetch_hit (hi : Holds c i s) :
    cacheFetch c s = some (i, c.setEntry i { c.cache i with accessed := true }) := by
  unfold cacheFetch
  rw [h.lookup_eq hi]
  exact if_pos (h.valid_of_holds hi)

/-- Reading leaves the view alone and finds its bytes. -/
theorem cacheFetch_spec (s : Sector) :
    ∃ i c' ws, cacheFetch c s = some (i, c') ∧ Effect c c' [s] ws (cacheView c) ∧
      Holds c' i s ∧ (c'.cache i).data = cacheView c s := by
  cases hl : cacheLookup c s with
  | some i =>
    have hi := cacheLookup_some hl
    have ht := touched_setAccessed c i true
    refine ⟨i, _, [], cacheFetch_hit h hi,
      (Effect.of_touched h ht).weaken (nil_subset _), (ht.sameSlots.holds_iff i s).mpr hi, ?_⟩
    rw [(ht.sameSlots i).2.2, view_of_lookup hl]
  | none =>
    have hf : cacheFetch c s = cacheLoad c s true := by
      unfold cacheFetch
      rw [hl]
    rw [hf]
    exact cacheLoad_spec h (cacheLookup_none hl) true

theorem cacheRead_spec (s : Sector) :
    ∃ c' ws, cacheRead c s = some (cacheView c s, c') ∧
      Effect c c' [s] ws (cacheView c) := by
  obtain ⟨i, c', ws, hf, heff, -, hdata⟩ := cacheFetch_spec h s
  refine ⟨c', ws, ?_, heff⟩
  unfold cacheRead
  rw [hf, ← hdata]

theorem cacheReadAt_spec (s : Sector) (ofs len : Nat) :
    ∃ c' ws, cacheReadAt c s ofs len = some (bytesAt (cacheView c s) ofs len, c') ∧
      Effect c c' [s] ws (cacheView c) ∧ Cached c' s := by
  obtain ⟨i, c', ws, hf, heff, hi, hdata⟩ := cacheFetch_spec h s
  refine ⟨c', ws, ?_, heff, i, hi⟩
  unfold cacheReadAt
  rw [hf, ← hdata]

theorem cacheDoPrefetch_spec (s : Sector) :
    ∃ c' ws, cacheDoPrefetch c s = some c' ∧ Effect c c' [s] ws (cacheView c) := by
  cases hl : cacheLookup c s with
  | some i =>
    refine ⟨c, [], ?_, (Effect.refl h).weaken (nil_subset _)⟩
    unfold cacheDoPrefetch
    rw [hl]
  | none =>
    obtain ⟨i, c', ws, hload, heff, -, -⟩ :=
      cacheLoad_spec h (cacheLookup_none hl) false
    refine ⟨c', ws, ?_, heff⟩
    simp only [cacheDoPrefetch, hl, hload]

/-- A write to a cached sector touches the slot only. -/
theorem cacheWrite_hit (hi : Holds c i s) (ofs : Nat) (data : List UInt8) :
    ∃ c', cacheWrite c s ofs data = some c' ∧
      Effect c c' [s] [] (blockWrite (cacheView c) s (memcpyInto (cacheView c s) ofs data)) ∧
      DirtyIn c' s := by
  have hv := h.valid_of_holds hi
  obtain ⟨hne, rfl⟩ := hi
  have hi : Holds c i (c.cache i).sector := ⟨hne, rfl⟩
  have heff := setEntry_effect h (i := i) (e := { c.cache i with
    data := memcpyInto (c.cache i).data ofs data, dirty := true, accessed := true }) hv
    (fun j hji hj => hji (h.holds_unique hj hi)) (fun _ _ => ⟨rfl, rfl⟩) nofun
  rw [h.view_of_holds hi]
  refine ⟨_, ?_, heff, i, ?_, by rw [setEntry_cache_same]⟩
  · unfold cacheWrite
    rw [h.lookup_eq hi]
    exact if_pos hv
  · rw [Holds, setEntry_cache_same]
    exact hi

/-- `cache_write` edits one byte range of the view. -/
theorem cacheWrite_spec (s : Sector) (ofs : Nat) (data : List UInt8) :
    ∃ c' ws, cacheWrite c s ofs data = some c' ∧
      Effect c c' [s] ws
        (blockWrite (cacheView c) s (memcpyInto (cacheView c s) ofs data)) ∧
      DirtyIn c' s := by
  cases hl : cacheLookup c s with
  | some i =>
    obtain ⟨c', hw, heff, hdirty⟩ := cacheWrite_hit h (cacheLookup_some hl) ofs data
    exact ⟨c', [], hw, heff, hdirty⟩
  | none =>
    obtain ⟨i, c1, ws, hev, hdisk, hfill⟩ := cacheEvict_fill h (cacheLookup_none hl)
    -- a full write never looks at the bytes it found in the slot
    have hbytes : memcpyInto (if ofs = 0 ∧ data.length = 512 then (c1.cache i).data else c1.disk s)
        ofs data = memcpyInto (cacheView c s) ofs data := by
      split
      · rename_i hf
        rw [hf.1]
        exact memcpyInto_full hf.2 _ _
      · rw [hdisk]
    obtain ⟨heff, hi⟩ := hfill { c1.cache i with
      state := .valid, sector := s, dirty := true, accessed := true,
      data := memcpyInto (cacheView c s) ofs data } rfl rfl nofun
    refine ⟨_, ws, ?_, heff, i, hi, by rw [setEntry_cache_same]⟩
    unfold cacheWrite
    rw [hl]
    rw [hev, ← hbytes]
    by_cases hf : ofs = 0 ∧ data.length = 512
    · simp only [if_pos hf, setEntry_setEntry, setEntry_cache_same]
    · simp only [if_neg hf, setEntry_setEntry, setEntry_cache_same, setEntry_disk]

/-! ## Flush -/

theorem flushSlot_spec (i : Fin 64) :
    (∃ ws, Effect c (flushSlot c i) [] ws (cacheView c)) ∧ SameSlots c (flushSlot c i) ∧
      ∀ j, (c.cache j).state = .valid → ((flushSlot c i).cache j).dirty = true →
        (c.cache j).dirty = true ∧ j ≠ i := by
  by_cases hd : (c.cache i).state = .valid ∧ (c.cache i).dirty = true
  · have hf : flushSlot c i = cleanSlot c i := if_pos hd
    rw [hf]
    refine ⟨⟨_, cleanSlot_effect h hd.1⟩, cleanSlot_sameSlots c i, ?_⟩
    intro j _ hj
    by_cases hji : j = i
    · rw [hji, show (cleanSlot c i).cache i = { c.cache i with dirty := false } from
        setEntry_cache_same ..] at hj
      exact Bool.noConfusion hj
    · rw [cleanSlot_other hji] at hj
      exact ⟨hj, hji⟩
  · have hf : flushSlot c i = c := if_neg hd
    rw [hf]
    refine ⟨⟨[], Effect.refl h⟩, SameSlots.refl c, ?_⟩
    intro j hv hj
    refine ⟨hj, ?_⟩
    intro hji
    exact hd (by rw [← hji]; exact ⟨hv, hj⟩)

end

/-- The loop of `cache_flush` over the slots `is`: what is dirty afterwards was
    dirty before and is none of them. -/
theorem flushSlots_spec (is : List (Fin 64)) {c : BufferCache} : CacheOk c →
    (∃ ws, Effect c (is.foldl flushSlot c) [] ws (cacheView c)) ∧
      SameSlots c (is.foldl flushSlot c) ∧
      ∀ j, (c.cache j).state = .valid →
        ((is.foldl flushSlot c).cache j).dirty = true →
          (c.cache j).dirty = true ∧ j ∉ is := by
  induction is generalizing c with
  | nil =>
    intro h
    exact ⟨⟨[], Effect.refl h⟩, SameSlots.refl c, fun j _ hj => ⟨hj, not_mem_nil⟩⟩
  | cons i is ih =>
    intro h
    obtain ⟨⟨ws, heff⟩, hsame, hdirty⟩ := flushSlot_spec h i
    obtain ⟨⟨us, heff'⟩, hsame', hdirty'⟩ := ih heff.ok
    rw [heff.view] at heff'
    refine ⟨⟨ws ++ us, heff.trans heff'⟩, hsame.trans hsame', ?_⟩
    intro j hv hj
    have hv' : ((flushSlot c i).cache j).state = .valid := by
      rw [(hsame j).2.1]; exact hv
    obtain ⟨hj1, hnotin⟩ := hdirty' j hv' hj
    obtain ⟨hj0, hne⟩ := hdirty j hv hj1
    exact ⟨hj0, not_mem_cons_of_ne_of_not_mem hne hnotin⟩

/-- After `cache_flush` the disk is the view. -/
theorem cacheFlush_spec (h : CacheOk c) : ∃ ws, Effect c (cacheFlush c) [] ws (cacheView c) ∧
      (cacheFlush c).disk = cacheView c ∧ ∀ s, ¬ DirtyIn (cacheFlush c) s := by
  obtain ⟨⟨ws, heff⟩, hsame, hclean⟩ := flushSlots_spec (List.finRange 64) h
  rw [show (List.finRange 64).foldl flushSlot c = cacheFlush c from rfl] at heff hsame hclean
  have hnone : ∀ i s, Holds (cacheFlush c) i s → ((cacheFlush c).cache i).dirty ≠ true := by
    intro i s hi hd
    have hv := heff.ok.valid_of_holds hi
    exact (hclean i (by rw [← (hsame i).2.1]; exact hv) hd).2 (mem_finRange i)
  refine ⟨ws, heff, ?_, fun s ⟨i, hi, hd⟩ => hnone i s hi hd⟩
  rw [← heff.view]
  funext s
  cases hl : cacheLookup (cacheFlush c) s with
  | none => exact (view_of_absent (cacheLookup_none hl)).symm
  | some i =>
    have hi := cacheLookup_some hl
    have hd := Bool.eq_false_iff.mpr (hnone i s hi)
    refine Eq.trans ?_ (view_of_lookup hl).symm
    rw [heff.ok.clean i (heff.ok.valid_of_holds hi) hd, hi.2]

/-! ## Writes that bypass the cache -/

/-- A device write to a sector that is not cached shows in the view and nowhere else. -/
theorem deviceWrite_uncached (h : CacheOk c) (b : Block) (hs : ¬ Cached c s) :
    CacheOk (c.deviceWrite s b) ∧
      cacheView (c.deviceWrite s b) = blockWrite (cacheView c) s b := by
  refine ⟨⟨h.settled, h.unique, ?_⟩, ?_⟩
  · intro i hv hd
    have hv' : (c.cache i).state = .valid := hv
    have hne : (c.cache i).sector ≠ s := by
      intro hsec
      exact hs ⟨i, by rw [hv']; exact CacheState.noConfusion, hsec⟩
    show (c.cache i).data = blockWrite c.disk s b (c.cache i).sector
    rw [blockWrite_other hne]
    exact h.clean i hv hd
  funext t
  by_cases ht : t = s
  · subst ht
    rw [view_of_absent (c := c.deviceWrite t b) (fun i hi => hs ⟨i, hi⟩), blockWrite_same]
    exact blockWrite_same ..
  · rw [blockWrite_other ht]
    have hlook : cacheLookup (c.deviceWrite s b) t = cacheLookup c t := rfl
    simp only [cacheView, hlook]
    rw [show (c.deviceWrite s b).disk t = c.disk t from blockWrite_other ht]
    rfl

/-! ## Whole runs -/

theorem cacheInit_ok (c : BufferCache) :
    CacheOk (cacheInit c) ∧ cacheView (cacheInit c) = c.disk := by
  have habs : ∀ s i, ¬ Holds (cacheInit c) i s := fun s i hi => hi.1 rfl
  refine ⟨⟨fun i => CacheState.noConfusion, fun i j hi _ _ => absurd rfl hi,
    fun i hv _ => CacheState.noConfusion hv⟩, ?_⟩
  funext s
  exact view_of_absent (habs s)

/-- One call into the cache. `cache_read`'s own prefetch request is served by
    another thread later, so it appears in a run as a `prefetch` of its own. -/
inductive CacheOp where
  | read (sector : Sector)
  | readAt (sector : Sector) (ofs len : Nat)
  | write (sector : Sector) (ofs : Nat) (data : List UInt8)
  | prefetch (sector : Sector)
  | flush

/-- The `ASSERT`s of `cache_read_at` and `cache_write` on a byte range. -/
def RangeOk (ofs len : Nat) : Prop := ofs < 512 ∧ 0 < len ∧ ofs + len ≤ 512
deriving Decidable

/-- The call passes its `ASSERT`s. -/
def CacheOp.Accepted : CacheOp → Prop
  | .readAt _ ofs len => RangeOk ofs len
  | .write _ ofs data => RangeOk ofs data.length
  | _ => True

/-- One call, with the bytes it hands back. -/
def cacheStep (c : BufferCache) : CacheOp → Option (List UInt8 × BufferCache)
  | .read s =>
    match cacheRead c s with
    | none => none
    | some (b, c') => some (blockBytes b, c')
  | .readAt s ofs len =>
    if RangeOk ofs len then cacheReadAt c s ofs len else none
  | .write s ofs data =>
    if RangeOk ofs data.length then
      match cacheWrite c s ofs data with
      | none => none
      | some c' => some ([], c')
    else none
  | .prefetch s =>
    match cacheDoPrefetch c s with
    | none => none
    | some c' => some ([], c')
  | .flush => some ([], cacheFlush c)

/-- The same call on an array of sectors with no cache in front of it. -/
def arrayStep (d : Disk) : CacheOp → List UInt8 × Disk
  | .read s => (blockBytes (d s), d)
  | .readAt s ofs len => (bytesAt (d s) ofs len, d)
  | .write s ofs data => ([], blockWrite d s (memcpyInto (d s) ofs data))
  | .prefetch _ => ([], d)
  | .flush => ([], d)

/-- The sectors a call may bring into the cache. -/
def CacheOp.sectors : CacheOp → List Sector
  | .read s => [s]
  | .readAt s _ _ => [s]
  | .write s _ _ => [s]
  | .prefetch s => [s]
  | .flush => []

/-- An accepted call completes, answers as the bare array does and has its effect on the view. -/
theorem cacheStep_effect (h : CacheOk c) {op : CacheOp} (hop : op.Accepted) :
    ∃ c' ws, cacheStep c op = some ((arrayStep (cacheView c) op).1, c') ∧
      Effect c c' op.sectors ws (arrayStep (cacheView c) op).2 := by
  cases op with
  | read s =>
    obtain ⟨c', ws, hr, heff⟩ := cacheRead_spec h s
    refine ⟨c', ws, ?_, heff⟩
    simp only [cacheStep, arrayStep, hr]
  | readAt s ofs len =>
    obtain ⟨c', ws, hr, heff, -⟩ := cacheReadAt_spec h s ofs len
    exact ⟨c', ws, (if_pos hop).trans hr, heff⟩
  | write s ofs data =>
    obtain ⟨c', ws, hw, heff, -⟩ := cacheWrite_spec h s ofs data
    refine ⟨c', ws, (if_pos hop).trans ?_, heff⟩
    simp only [hw, arrayStep]
  | prefetch s =>
    obtain ⟨c', ws, hp, heff⟩ := cacheDoPrefetch_spec h s
    refine ⟨c', ws, ?_, heff⟩
    simp only [cacheStep, arrayStep, hp]
  | flush =>
    obtain ⟨ws, heff, -⟩ := cacheFlush_spec h
    exact ⟨cacheFlush c, ws, rfl, heff⟩

/-- A sector just written has to be written back. -/
theorem cacheStep_write_dirty (h : CacheOk c) {ofs : Nat}
    {data out : List UInt8} (hop : RangeOk ofs data.length)
    (hstep : cacheStep c (.write s ofs data) = some (out, c')) : DirtyIn c' s := by
  obtain ⟨c1, ws, hw, -, hdirty⟩ := cacheWrite_spec h s ofs data
  have hcall : cacheStep c (.write s ofs data) = some ([], c1) := by
    refine (if_pos hop).trans ?_
    rw [hw]
  rw [hcall] at hstep
  obtain ⟨-, rfl⟩ := pair_inj hstep
  exact hdirty

/-- One call on the cache is one call on the view. -/
theorem cacheStep_simulates (c : BufferCache) (d : Disk) (op : CacheOp)
    (h : CacheOk c ∧ cacheView c = d) (hop : op.Accepted) :
    ∃ c', cacheStep c op = some ((arrayStep d op).1, c') ∧
      CacheOk c' ∧ cacheView c' = (arrayStep d op).2 := by
  obtain ⟨hok, rfl⟩ := h
  obtain ⟨c', ws, hstep, heff⟩ := cacheStep_effect hok hop
  exact ⟨c', hstep, heff.ok, heff.view⟩

/-- **THE CACHE IS TRANSPARENT**: from `cache_init` over any disk, every run of
    accepted calls completes and answers as the bare array of sectors does; in
    the state it reaches no sector sits in two slots, every valid clean slot
    equals the disk, and one more `cache_flush` makes the disk the array. -/
theorem cache_transparent (c0 : BufferCache) (ops : List CacheOp)
    (hops : ∀ op ∈ ops, op.Accepted) :
    ∃ c, runOps cacheStep (cacheInit c0) ops
        = some ((runAll arrayStep c0.disk ops).1, c) ∧
      (∀ i j, (c.cache i).state ≠ .invalid → (c.cache j).state ≠ .invalid →
        (c.cache i).sector = (c.cache j).sector → i = j) ∧
      (∀ i, (c.cache i).state = .valid → (c.cache i).dirty = false →
        (c.cache i).data = c.disk (c.cache i).sector) ∧
      (cacheFlush c).disk = (runAll arrayStep c0.disk ops).2 := by
  obtain ⟨c, hrun, hok, hview⟩ := runOps_simulates
    (R := fun c d => CacheOk c ∧ cacheView c = d) cacheStep_simulates
    ops (cacheInit c0) c0.disk (cacheInit_ok c0) hops
  obtain ⟨ws, -, hdisk, -⟩ := cacheFlush_spec hok
  exact ⟨c, hrun, hok.unique, hok.clean, hdisk.trans hview⟩

/-- A device of zeros under a cache that was never used. -/
def blankCache : BufferCache where
  cache := fun _ => ⟨0, .invalid, false, false, fun _ => 0⟩
  clockHand := 0
  fifoHand := 0
  policy := .clock
  disk := fun _ _ => 0
  writes := []

/-- A partial write, a flush and a read past its end. -/
theorem cache_transparent_partialWrite :
    ∃ c, runOps cacheStep (cacheInit blankCache)
        [.write 70 508 [1, 2], .flush, .readAt 70 507 4]
        = some ([[], [], [0, 1, 2, 0]], c) ∧
      (cacheFlush c).disk 70 509 = 2 := by
  obtain ⟨c, hrun, -, -, hdisk⟩ := cache_transparent blankCache
    [.write 70 508 [1, 2], .flush, .readAt 70 507 4] (by
      intro op hop
      simp only [List.mem_cons, List.not_mem_nil, or_false] at hop
      rcases hop with rfl | rfl | rfl
      · show RangeOk 508 2; decide
      · exact trivial
      · show RangeOk 507 4; decide)
  have hans : (runAll arrayStep blankCache.disk
      [.write 70 508 [1, 2], .flush, .readAt 70 507 4]).1 = [[], [], [0, 1, 2, 0]] := by
    decide +kernel
  refine ⟨c, by rw [hrun, hans], ?_⟩
  rw [hdisk]
  decide +kernel

/-! ## What a crash leaves -/

theorem writeBacks_at {v d : Disk} (ws : List Sector) :
    writeBacks v ws d s = d s ∨ writeBacks v ws d s = v s := by
  refine foldlRecOn ws _ (motive := fun e : Disk => e s = d s ∨ e s = v s) (.inl rfl) ?_
  intro e he x _
  by_cases hx : s = x
  · exact .inr (hx ▸ blockWrite_same ..)
  · rw [blockWrite_other hx]
    exact he

/-- A run leaves a sector on disk as it was, or as the array had it on the way. -/
theorem run_disk (ops : List CacheOp) (h : CacheOk c) (hops : ∀ op ∈ ops, op.Accepted) :
    ∃ os c', runOps cacheStep c ops = some (os, c') ∧ ∀ s, c'.disk s = c.disk s ∨
      ∃ k, c'.disk s = (runAll arrayStep (cacheView c) (ops.take k)).2 s := by
  induction ops generalizing c with
  | nil => exact ⟨[], c, rfl, fun _ => .inl rfl⟩
  | cons op ops ih =>
    obtain ⟨c1, ws, hstep, he⟩ := cacheStep_effect h (hops op mem_cons_self)
    obtain ⟨os, c', hrun, hdisk⟩ := ih he.ok fun o ho => hops o (mem_cons_of_mem _ ho)
    refine ⟨_ :: os, c', by rw [runOps, hstep]; dsimp only; rw [hrun], fun s => ?_⟩
    rcases hdisk s with hs | ⟨k, hs⟩
    · rw [hs, he.disk]
      exact (writeBacks_at ws).imp_right fun h => ⟨0, h⟩
    · rw [he.view] at hs
      exact .inr ⟨k + 1, hs⟩

/-- **A CRASH LOSES NOTHING FLUSHED**: after any run, a `cache_flush` and another run, every sector
    on disk is one that the bare array held since the flush. -/
theorem crash_since_flush (c0 : BufferCache) (ops ops' : List CacheOp)
    (h : ∀ op ∈ ops, op.Accepted) (h' : ∀ op ∈ ops', op.Accepted) :
    ∃ os c os' c', runOps cacheStep (cacheInit c0) ops = some (os, c) ∧
      runOps cacheStep (cacheFlush c) ops' = some (os', c') ∧ ∀ s, ∃ k,
        c'.disk s = (runAll arrayStep (runAll arrayStep c0.disk ops).2 (ops'.take k)).2 s := by
  obtain ⟨c, hrun, hok, hview⟩ := runOps_simulates cacheStep_simulates ops (cacheInit c0) c0.disk
    (cacheInit_ok c0) h
  obtain ⟨ws, he, hdisk, -⟩ := cacheFlush_spec hok
  obtain ⟨os', c', hrun', hs⟩ := run_disk ops' he.ok h'
  rw [he.view, hdisk, hview] at hs
  exact ⟨_, c, os', c', hrun, hrun', fun s => (hs s).elim (fun e => ⟨0, e⟩) id⟩

/-- A byte that was written and flushed is on disk. -/
theorem crash_since_flush_once :
    ∃ os c os' c', runOps cacheStep (cacheInit blankCache) [.write 70 0 [1]] = some (os, c) ∧
      runOps cacheStep (cacheFlush c) [.prefetch 70] = some (os', c') ∧ c'.disk 70 0 = 1 := by
  obtain ⟨os, c, os', c', h, h', hdisk⟩ := crash_since_flush blankCache [.write 70 0 [1]]
    [.prefetch 70] (by simp [CacheOp.Accepted, RangeOk]) (by simp [CacheOp.Accepted])
  obtain ⟨k, hk⟩ := hdisk 70
  refine ⟨os, c, os', c', h, h', ?_⟩
  rw [hk]
  cases k with
  | zero => rfl
  | succ k =>
    rw [take_succ_cons, take_nil]
    rfl

/-! ## The victim of the clock -/

/-- **CLOCK**: with a valid slot somewhere `evict_clock` returns one, before its
    `PANIC`. It is the first valid slot from the hand that is not accessed, or
    the first valid one after a whole lap if all are; the hand stops behind it
    and the valid slots passed on the way, and no others, lose their bit. -/
theorem evictClock_victim (c : BufferCache) (hvalid : ∃ i, (c.cache i).state = .valid) :
    ∃ v k, evictClock c = some (v, { c with clockHand := v + 1, cache := passed c k }) ∧
      (c.cache v).state = .valid ∧
      ((k = (v - c.clockHand).val ∧ (c.cache v).accessed = false ∧
          ∀ i, i - c.clockHand < v - c.clockHand → (c.cache i).state = .valid →
            (c.cache i).accessed = true) ∨
        (k = 64 + (v - c.clockHand).val ∧
          (∀ i, (c.cache i).state = .valid → (c.cache i).accessed = true) ∧
          ∀ i, i - c.clockHand < v - c.clockHand → (c.cache i).state ≠ .valid)) := by
  obtain ⟨u, hu⟩ := hvalid
  obtain ⟨v, k, hr, hk, hd, hv, hstop, hpass⟩ := evictClock_some hu
  refine ⟨v, k, hr, hv, ?_⟩
  by_cases hlap : k < 64
  · refine .inl ⟨by omega, Bool.eq_false_iff.mpr fun ha => hstop ⟨ha, hlap⟩, fun i hi hvi => ?_⟩
    exact (hpass (i - c.clockHand).val (by omega) i (by omega) hvi).1
  · refine .inr ⟨by omega, fun i hvi => ?_, fun i hi hvi => ?_⟩
    · exact (hpass (i - c.clockHand).val (by omega) i (by omega) hvi).1
    · -- the second lap would have stopped at this slot
      have := (hpass (64 + (i - c.clockHand).val) (by omega) i (by omega) hvi).2
      omega

/-- One valid slot, and it is accessed: the clock comes back to it. -/
theorem evictClock_victim_lap :
    ∃ c', evictClock (blankCache.setEntry 3 ⟨70, .valid, false, true, fun _ => 0⟩)
      = some (3, c') := by
  obtain ⟨v, k, hr, hv, -⟩ := evictClock_victim
    (blankCache.setEntry 3 ⟨70, .valid, false, true, fun _ => 0⟩) ⟨3, rfl⟩
  have h3 : v = 3 := by
    by_contra hne
    rw [setEntry_cache_other hne] at hv
    exact nomatch hv
  rw [h3] at hr
  exact ⟨_, hr⟩

end MavCache
