import Maverick.VmProofs

/-! # Mapped regions

What `mmap_create` and `mmap_create_anon` leave in the supplemental page table and in the list of
regions. The number of pages is computed in 32 bits: the last 4095 lengths round up to no page at
all, and are mapped without complaint. -/

namespace MavVm

open List

/-- `t` is `s` with new entries for the pages from `lo` to `hi` of process `p`. -/
structure Added (s t : Vm) (p lo hi : Nat) : Prop where
  regions : t.regions = s.regions
  isOpen : t.isOpen = s.isOpen
  fresh : ∀ u, lo ≤ u → u < hi → s.spt p u = none ∧
    ∃ e, t.spt p u = some e ∧ (e.status = .zero ∨ e.status = .file)
  others : ∀ q u, ¬(q = p ∧ lo ≤ u ∧ u < hi) → t.spt q u = s.spt q u

/-- The address space and the regions are those of `s`. -/
def Kept (s t : Vm) : Prop := t.spt = s.spt ∧ t.regions = s.regions

/-- The pages of a region. -/
def Region.Has (r : Region) (u : Nat) : Prop := r.start ≤ u ∧ u < r.start + r.pageCount

/-- The pages of every region have entries, and no two regions share one. -/
def Tidy (s : Vm) (p : Nat) : Prop :=
  (∀ r ∈ s.regions p, ∀ u, r.Has u → s.spt p u ≠ none) ∧
    (s.regions p).Pairwise fun r r' => ∀ u, r.Has u → ¬r'.Has u

/-- What a mapping of `length` bytes at `addr`, or anywhere, should do. -/
def Geometry (s : Vm) (p addr length : Nat) : Except Stop (Bool × Vm) → Prop
  | .error _ => False
  | .ok (false, t) => Kept s t
  | .ok (true, t) => (Tidy s p → Tidy t p) ∧
      ∃ r, t.regions = Function.update s.regions p (s.regions p ++ [r]) ∧
        (addr ≠ 0 → r.start * PGSIZE = addr) ∧
        r.pageCount = (length + PGSIZE - 1) / PGSIZE ∧ 1 ≤ r.pageCount ∧
        (r.start + r.pageCount) * PGSIZE ≤ PHYS_BASE - VM_STACK_MAX ∧
        (∀ u, r.Has u → s.spt p u = none ∧ t.spt p u ≠ none) ∧
        ∀ q u, ¬(q = p ∧ r.Has u) → t.spt q u = s.spt q u

section Loop

variable {s t : Vm} {p lo hi : Nat}

theorem malloc_frame (s : Vm) : (malloc s).2.spt = s.spt ∧ (malloc s).2.regions = s.regions ∧
    (malloc s).2.isOpen = s.isOpen ∧ (malloc s).2.inodeOf = s.inodeOf := by
  unfold malloc
  split <;> exact ⟨rfl, rfl, rfl, rfl⟩

theorem added_nothing (s : Vm) (p lo : Nat) : Added s s p lo lo :=
  ⟨rfl, rfl, fun _ h h' => absurd h' (Nat.not_lt.mpr h), fun _ _ _ => rfl⟩

theorem Added.kept (h : Added s t p lo lo) : Kept s t := by
  refine ⟨?_, h.regions⟩
  funext q u
  exact h.others q u fun hu => by omega

theorem Added.malloc (h : Added s t p lo hi) : Added s (malloc t).2 p lo hi := by
  obtain ⟨hspt, hreg, hopen, -⟩ := malloc_frame t
  exact ⟨hreg.trans h.regions, hopen.trans h.isOpen, hspt ▸ h.fresh, hspt ▸ h.others⟩

theorem mapEntry_status (file : Option Nat) (offset length i : Nat) :
    (mapEntry file offset length i).status = .zero ∨
      (mapEntry file offset length i).status = .file := by
  cases file with
  | none => exact .inl rfl
  | some h => exact .inr rfl

theorem Added.insert (h : Added s t p lo hi) {e : Entry} (hle : lo ≤ hi)
    (he : e.status = .zero ∨ e.status = .file) (hnone : s.spt p hi = none) :
    Added s (sptInsert t p hi e) p lo (hi + 1) where
  regions := h.regions
  isOpen := h.isOpen
  fresh u hlo hhi := by
    by_cases hu : u = hi
    · rw [hu]
      exact ⟨hnone, e, if_pos ⟨rfl, rfl⟩, he⟩
    · obtain ⟨hs, e', ht, he'⟩ := h.fresh u hlo (by omega)
      exact ⟨hs, e', (if_neg fun hq => hu hq.2).trans ht, he'⟩
  others q u hq := (if_neg fun hu => hq (by omega)).trans (h.others q u fun hu => hq (by omega))

theorem Added.remove (h : Added s t p lo hi) (hlt : lo < hi) :
    ∃ t', sptRemove t p lo = .ok t' ∧ Added s t' p (lo + 1) hi := by
  obtain ⟨hnone, e, hspt, he⟩ := h.fresh lo (Nat.le_refl lo) hlt
  refine ⟨sptDelete t p lo, ?_, h.regions, h.isOpen, ?_, ?_⟩
  · rw [sptRemove, hspt]
    rcases he with he | he <;> simp only [he]
  · intro u hlo hhi
    obtain ⟨hs, e', ht, he'⟩ := h.fresh u (by omega) hhi
    exact ⟨hs, e', (if_neg fun hq => by omega).trans ht, he'⟩
  · intro q u hq
    by_cases hu : q = p ∧ u = lo
    · rw [hu.1, hu.2, hnone]
      exact if_pos ⟨rfl, rfl⟩
    · exact (if_neg hu).trans (h.others q u fun hu' => by omega)

/-- The rollback takes the pages away from the lower end. -/
theorem Added.removeAll (h : Added s t p lo hi) : ∀ n, lo + n ≤ hi →
    ∃ t', sptRemoveAll p lo n t = .ok t' ∧ Added s t' p (lo + n) hi := by
  intro n
  induction n with
  | zero => exact fun _ => ⟨t, rfl, h⟩
  | succ n ih =>
    intro hle
    obtain ⟨t1, ht1, h1⟩ := ih (by omega)
    obtain ⟨t2, ht2, h2⟩ := h1.remove (by omega)
    exact ⟨t2, by rw [sptRemoveAll, ht1]; exact ht2, h2⟩

/-- The loop adds all its pages, each with its entry, or none. -/
theorem mapPages_ok (start : Nat) (file : Option Nat) (offset length : Nat) :
    ∀ n i (t : Vm), Added s t p start (start + i) →
      (∀ u, start + i ≤ u → u < start + i + n → s.spt p u = none) →
      ∃ ok t', mapPages p start file offset length i n t = .ok (ok, t') ∧
        Added s t' p (if ok then start else start + i + n) (start + i + n) ∧
        (ok = true → t'.inodeOf = t.inodeOf ∧ (∀ u < start + i, t'.spt p u = t.spt p u) ∧
          ∀ j < n, t'.spt p (start + (i + j)) = some (mapEntry file offset length (i + j))) := by
  intro n
  induction n with
  | zero => exact fun i t h _ => ⟨true, t, rfl, h, fun _ => ⟨rfl, fun _ _ => rfl, nofun⟩⟩
  | succ n ih =>
    intro i t h hfree
    have hm := h.malloc
    obtain ⟨hspt, -, -, hinode⟩ := malloc_frame t
    rw [mapPages]
    rcases hmal : malloc t with ⟨ok, t'⟩
    rw [hmal] at hm hspt hinode
    cases ok with
    | false =>
      obtain ⟨t1, ht1, h1⟩ := hm.removeAll i (Nat.le_refl _)
      refine ⟨false, t1, by simp only [ht1]; rfl, ?_, nofun⟩
      exact ⟨h1.regions, h1.isOpen, fun _ hlo hhi => absurd hhi (Nat.not_lt.mpr hlo),
        fun q u _ => h1.others q u fun hu => by omega⟩
    | true =>
      have hin := hm.insert (Nat.le_add_right start i)
        (mapEntry_status file offset length i) (hfree _ (Nat.le_refl _) (by omega))
      obtain ⟨ok, t1, ht1, h1, hmade⟩ :=
        ih (i + 1) _ hin fun u hlo hhi => hfree u (by omega) (by omega)
      refine ⟨ok, t1, ht1, ?_, fun hok => ?_⟩
      · rw [show start + i + (n + 1) = start + (i + 1) + n by omega]
        exact h1
      · obtain ⟨hino, hold, hnew⟩ := hmade hok
        refine ⟨hino.trans hinode, fun u hu => ?_, fun j hj => ?_⟩
        · rw [hold u (by omega), ← hspt]
          exact if_neg (by omega)
        · cases j with
          | zero => exact (hold (start + i) (by omega)).trans (if_pos ⟨rfl, rfl⟩)
          | succ j =>
            rw [show i + (j + 1) = i + 1 + j by omega]
            exact hnew j (by omega)

end Loop

variable {pages start length : Nat}

theorem of_mmapRangeAvailable {s : Vm} {p : Nat} (h : mmapRangeAvailable s p start pages = true) :
    (start + pages) * PGSIZE ≤ PHYS_BASE - VM_STACK_MAX ∧
      ∀ u, start ≤ u → u < start + pages → s.spt p u = none := by
  unfold mmapRangeAvailable at h
  rw [Bool.and_eq_true, Bool.and_eq_true, Bool.not_eq_true', decide_eq_false_iff_not,
    all_eq_true] at h
  refine ⟨Nat.not_lt.mp h.2, ?_⟩
  intro u hlo hhi
  rw [← Nat.add_sub_cancel' hlo]
  exact Option.isNone_iff_eq_none.mp (h.1.2 _ (mem_range.mpr (by omega)))

/-- The search for an address only returns a free range. -/
theorem findFreeAddress_available {s : Vm} {p : Nat} : ∀ n first,
    findFreeAddress s p pages first n = some start → mmapRangeAvailable s p start pages = true := by
  intro n
  induction n with
  | zero => exact nofun
  | succ n ih =>
    intro first h
    rw [findFreeAddress] at h
    split at h
    · exact nomatch h
    · split at h
      · exact Option.some.inj h ▸ ‹_›
      · exact ih _ h

theorem anonStart_available {s : Vm} {p addr : Nat}
    (h : anonStart s p addr pages = some start) : mmapRangeAvailable s p start pages = true ∧
      (addr ≠ 0 → start = addr / PGSIZE) := by
  unfold anonStart at h
  split at h
  · exact ⟨findFreeAddress_available _ _ h, fun hne => absurd ‹_› hne⟩
  · split at h
    · exact Option.some.inj h ▸ ⟨‹_›, fun _ => rfl⟩
    · exact nomatch h

/-- Lengths that do not wrap are rounded up, to at least one page. -/
theorem pagesOf_eq (h0 : length ≠ 0) (hlen : length ≤ 2 ^ 32 - PGSIZE) :
    pagesOf length = (length + PGSIZE - 1) / PGSIZE ∧ 1 ≤ pagesOf length := by
  unfold pagesOf PGSIZE at *
  omega

section Create

variable {s t : Vm} {p addr : Nat}

/-- A new region on new pages. -/
theorem Tidy.add (hs : Tidy s p) {r : Region}
    (hreg : t.regions p = s.regions p ++ [r])
    (hfresh : ∀ u, r.Has u → s.spt p u = none ∧ t.spt p u ≠ none)
    (hothers : ∀ u, ¬r.Has u → t.spt p u = s.spt p u) : Tidy t p := by
  have hold : ∀ r' ∈ s.regions p, ∀ u, r'.Has u → ¬r.Has u := fun r' hr' u hu hru =>
    hs.1 r' hr' u hu (hfresh u hru).1
  unfold Tidy
  rw [hreg]
  constructor
  · intro r' hr' u hu
    rcases mem_append.mp hr' with hr' | hr'
    · rw [hothers u (hold r' hr' u hu)]
      exact hs.1 r' hr' u hu
    · rw [mem_singleton.mp hr'] at hu
      exact (hfresh u hu).2
  · refine pairwise_append.mpr ⟨hs.2, pairwise_singleton .., ?_⟩
    intro r' hr' r'' hr''
    rw [mem_singleton.mp hr'']
    exact hold r' hr'

/-- The region of a loop that added all its pages. -/
theorem Added.geometry {file : Option Nat} {offset : Nat} (h0 : length ≠ 0)
    (hlen : length ≤ 2 ^ 32 - PGSIZE) (haddr : addr ≠ 0 → start * PGSIZE = addr)
    (hav : mmapRangeAvailable s p start (pagesOf length) = true)
    (h : Added s t p start (start + pagesOf length)) :
    Geometry s p addr length
      (.ok (true, addRegion t p ⟨start, pagesOf length, length, file, offset⟩)) := by
  obtain ⟨hceil, hpos⟩ := pagesOf_eq h0 hlen
  have hfresh : ∀ u, Region.Has ⟨start, pagesOf length, length, file, offset⟩ u →
      s.spt p u = none ∧ t.spt p u ≠ none := by
    rintro u ⟨hlo, hhi⟩
    obtain ⟨hs, e, he, -⟩ := h.fresh u hlo hhi
    exact ⟨hs, he ▸ nofun⟩
  refine ⟨fun hs => hs.add ?_ hfresh fun u hu => h.others p u fun hq => hu hq.2,
    ⟨start, pagesOf length, length, file, offset⟩, ?_, haddr, hceil, hpos,
    (of_mmapRangeAvailable hav).1, hfresh, h.others⟩
  · rw [addRegion, h.regions]
    exact Function.update_self ..
  · rw [addRegion, h.regions]

theorem mmapCreateAnon_geometry (s : Vm) (p addr : Nat) (hlen : length ≤ 2 ^ 32 - PGSIZE) :
    Geometry s p addr length (mmapCreateAnon s p addr length) := by
  unfold mmapCreateAnon
  split
  · exact ⟨rfl, rfl⟩
  cases hst : anonStart s p addr (pagesOf length) with
  | none => exact ⟨rfl, rfl⟩
  | some start =>
    obtain ⟨hav, hat⟩ := anonStart_available hst
    have hm := (added_nothing s p start).malloc
    rcases hmal : malloc s with ⟨ok, t⟩
    rw [hmal] at hm
    cases ok with
    | false => exact hm.kept
    | true =>
      obtain ⟨ok, t', ht', h', -⟩ := mapPages_ok start none 0 length (pagesOf length) 0 t hm
        (of_mmapRangeAvailable hav).2
      simp only [ht']
      cases ok with
      | false => exact h'.kept
      | true =>
        refine Added.geometry (by omega) hlen ?_ hav h'
        intro hne
        rw [hat hne]
        exact Nat.div_mul_cancel (Nat.dvd_of_mod_eq_zero (by omega))

theorem Kept.trans {u : Vm} (h : Kept s t) (h' : Kept t u) : Kept s u :=
  ⟨h'.1.trans h.1, h'.2.trans h.2⟩

/-- Only the address space and the regions matter. -/
theorem Kept.geometry (hk : Kept s t) {x : Except Stop (Bool × Vm)}
    (h : Geometry t p addr length x) : Geometry s p addr length x := by
  unfold Geometry Tidy Kept at *
  rwa [hk.1, hk.2] at h

theorem fileOpen_kept (s : Vm) (inode : Nat) : Kept s (fileOpen s inode).2 ∧
    ∀ h, (fileOpen s inode).1 = some h → (fileOpen s inode).2.isOpen h = true ∧
      (fileOpen s inode).2.inodeOf h = inode := by
  obtain ⟨hspt, hreg, -⟩ := malloc_frame s
  unfold fileOpen
  rcases hm : malloc s with ⟨ok, t⟩
  rw [hm] at hspt hreg
  cases ok with
  | false => exact ⟨⟨hspt, hreg⟩, nofun⟩
  | true =>
    refine ⟨⟨hspt, hreg⟩, ?_⟩
    intro h hh
    rw [← Option.some.inj hh]
    exact ⟨Function.update_self .., Function.update_self ..⟩

/-- A mapping that failed closes its file. -/
theorem Added.close {h : Nat} (ha : Added s t p start start) (hopen : s.isOpen h = true) :
    ∃ t', fileClose t h = .ok t' ∧ Kept s t' := by
  unfold fileClose
  rw [ha.isOpen, hopen]
  exact ⟨_, rfl, ha.kept⟩

/-- What `mmap_create` leaves when it succeeds. -/
structure Created (s t : Vm) (p addr length inode offset h : Nat) (s1 t1 : Vm) : Prop where
  length_ne : length ≠ 0
  aligned : addr % PGSIZE = 0
  kept : Kept s s1
  free : mmapRangeAvailable s1 p (addr / PGSIZE) (pagesOf length) = true
  added : Added s1 t1 p (addr / PGSIZE) (addr / PGSIZE + pagesOf length)
  isOpen : t.isOpen h = true
  inodeOf : t.inodeOf h = inode
  entries : ∀ i < pagesOf length,
    t.spt p (addr / PGSIZE + i) = some (mapEntry (some h) offset length i)
  result : t = addRegion t1 p ⟨addr / PGSIZE, pagesOf length, length, some h, offset⟩

theorem mmapCreate_spec (s : Vm) (p addr length inode offset : Nat) :
    ∃ ok t, mmapCreate s p addr length inode offset = .ok (ok, t) ∧ (ok = false → Kept s t) ∧
      (ok = true → ∃ h s1 t1, Created s t p addr length inode offset h s1 t1) := by
  unfold mmapCreate
  split
  · exact ⟨false, s, rfl, fun _ => ⟨rfl, rfl⟩, nofun⟩
  split
  · exact ⟨false, s, rfl, fun _ => ⟨rfl, rfl⟩, nofun⟩
  rename_i hav
  rw [Bool.not_eq_true', Bool.not_eq_false] at hav
  obtain ⟨hk, hopen⟩ := fileOpen_kept s inode
  rcases hfile : fileOpen s inode with ⟨found, s1⟩
  rw [hfile] at hk hopen
  cases found with
  | none => exact ⟨false, s1, rfl, fun _ => hk, nofun⟩
  | some h =>
    obtain ⟨hopen, hinode⟩ := hopen h rfl
    have hm := (added_nothing s1 p (addr / PGSIZE)).malloc
    have hmi := (malloc_frame s1).2.2.2
    rcases hmal : malloc s1 with ⟨ok, t⟩
    rw [hmal] at hm hmi
    cases ok with
    | false =>
      obtain ⟨t', ht', h'⟩ := hm.close hopen
      simp only [hmal, ht']
      exact ⟨false, t', rfl, fun _ => hk.trans h', nofun⟩
    | true =>
      have hav' : mmapRangeAvailable s1 p (addr / PGSIZE) (pagesOf length) = true := by
        rw [mmapRangeAvailable, hk.1]
        exact hav
      obtain ⟨ok, t', ht', h', hmade⟩ := mapPages_ok (addr / PGSIZE) (some h) offset length
        (pagesOf length) 0 t hm (of_mmapRangeAvailable hav').2
      simp only [hmal, ht']
      cases ok with
      | false =>
        obtain ⟨t'', ht'', h''⟩ := Added.close h' hopen
        refine ⟨false, t'', ?_, fun _ => hk.trans h'', nofun⟩
        show (fileClose t' h).bind _ = _
        rw [ht'']
        rfl
      | true =>
        obtain ⟨hino, -, hnew⟩ := hmade rfl
        simp only [Nat.zero_add] at hnew
        exact ⟨true, _, rfl, nofun, fun _ => ⟨h, s1, t', by omega, by omega, hk, hav', h',
          h'.isOpen ▸ hopen, (congrFun (hino.trans hmi) h).trans hinode, hnew, rfl⟩⟩

theorem mmapCreate_geometry (s : Vm) (p addr inode offset : Nat)
    (hlen : length ≤ 2 ^ 32 - PGSIZE) :
    Geometry s p addr length (mmapCreate s p addr length inode offset) := by
  obtain ⟨ok, t, ht, hfail, hmade⟩ := mmapCreate_spec s p addr length inode offset
  rw [ht]
  cases ok with
  | false => exact hfail rfl
  | true =>
    obtain ⟨h, s1, t1, c⟩ := hmade rfl
    obtain rfl := c.result
    exact c.kept.geometry (c.added.geometry c.length_ne hlen
      (fun _ => Nat.div_mul_cancel (Nat.dvd_of_mod_eq_zero c.aligned)) c.free)

end Create

/-- A process without regions, all memory free. -/
def empty : Vm := boot ⟨id, fun l => .refl l⟩ 8 8 (fun _ _ => 0) (fun _ => 1) fun _ => 1

/-- A length that wraps is mapped, with no page. -/
theorem mmapCreateAnon_wraps (hlt : length < 2 ^ 32) (hlen : 2 ^ 32 - PGSIZE < length) :
    mmapCreateAnon empty 0 0 length =
      .ok (true, addRegion empty 0 ⟨MMAP_BASE / PGSIZE, 0, length, none, 0⟩) := by
  have hp : pagesOf length = 0 := by
    unfold pagesOf PGSIZE at *
    omega
  have h0 : ¬(length = 0 ∨ 0 % PGSIZE ≠ 0) := by
    unfold PGSIZE at *
    omega
  rw [mmapCreateAnon, if_neg h0, hp]
  rfl

theorem wrapped_not_geometry (hlt : length < 2 ^ 32) (hlen : 2 ^ 32 - PGSIZE < length) :
    ¬Geometry empty 0 0 length (mmapCreateAnon empty 0 0 length) := by
  rw [mmapCreateAnon_wraps hlt hlen]
  rintro ⟨-, r, hreg, -, -, hpos, -⟩
  have hr : [_] = [r] := congrFun hreg 0
  rw [← (cons.inj hr).1] at hpos
  exact absurd hpos (Nat.not_succ_le_zero 0)

/-- **MAPPING GEOMETRY.**  A mapping has the pages its length asks for, all new
    and below the stack, and a failed one changes nothing: for exactly the
    lengths that are rounded up without wrapping. -/
theorem mapping_geometry_iff (length : Nat) (hlt : length < 2 ^ 32) :
    (∀ s p addr inode offset,
      Geometry s p addr length (mmapCreate s p addr length inode offset) ∧
      Geometry s p addr length (mmapCreateAnon s p addr length)) ↔ length ≤ 2 ^ 32 - PGSIZE := by
  constructor
  · intro h
    refine Nat.not_lt.mp ?_
    intro hlen
    exact wrapped_not_geometry hlt hlen (h empty 0 0 0 0).2
  · intro hlen s p addr inode offset
    exact ⟨mmapCreate_geometry s p addr inode offset hlen, mmapCreateAnon_geometry s p addr hlen⟩

theorem mapping_geometry_two_pages :
    8192 < 2 ^ 32 ∧ Geometry empty 0 4096 8192 (mmapCreate empty 0 4096 8192 0 0) :=
  ⟨by decide, ((mapping_geometry_iff 8192 (by decide)).mpr (by decide) empty 0 4096 0 0).1⟩

/-- The longest mapping succeeds and has no page. -/
theorem longest_mapping_is_empty :
    mmapCreateAnon empty 0 0 (2 ^ 32 - 1) =
        .ok (true, addRegion empty 0 ⟨MMAP_BASE / PGSIZE, 0, 2 ^ 32 - 1, none, 0⟩) ∧
      ¬Geometry empty 0 0 (2 ^ 32 - 1) (mmapCreateAnon empty 0 0 (2 ^ 32 - 1)) :=
  ⟨mmapCreateAnon_wraps (by decide) (by decide), wrapped_not_geometry (by decide) (by decide)⟩

/-! ## What a mapping shows -/

/-- Page `u` can be loaded into every frame, which then holds the next `count` bytes
    of the file from `start` on as far as there are any, and zeros. -/
def Shows (t : Vm) (p u inode start count : Nat) : Prop :=
  ∃ e, t.spt p u = some e ∧ ∀ k, ∃ t', fillFrame t e k = .ok (true, t') ∧ ∀ j < PGSIZE,
    t'.mem k j = if j < count ∧ start + j < t.length inode then t.data inode (start + j) else 0

section Shows

variable {s t : Vm} {p addr inode offset : Nat}

/-- A page is loaded if all the bytes its entry asks for are in the file. -/
theorem shows_iff {u i h : Nat} (hopen : t.isOpen h = true) (hinode : t.inodeOf h = inode)
    (he : t.spt p u = some (mapEntry (some h) offset length i)) (hi : i * PGSIZE < length) :
    Shows t p u inode (offset + i * PGSIZE) (length - i * PGSIZE) ↔
      offset + i * PGSIZE + min PGSIZE (length - i * PGSIZE) ≤ t.length inode := by
  have hread : min PGSIZE (length - i * PGSIZE) ≠ 0 := by
    unfold PGSIZE at *
    omega
  have hfill : ∀ k, fillFrame t (mapEntry (some h) offset length i) k =
      if offset + i * PGSIZE + min PGSIZE (length - i * PGSIZE) ≤ t.length inode then
        .ok (true, setMem t k (filePage t inode (offset + i * PGSIZE)
          (min PGSIZE (length - i * PGSIZE))))
      else .ok (false, t) := by
    intro k
    simp only [fillFrame, mapEntry, fileEntry, hopen, hinode, hread, or_false]
    rfl
  constructor
  · rintro ⟨e, hspt, hload⟩
    obtain rfl := Option.some.inj (he.symm.trans hspt)
    obtain ⟨t', hok, -⟩ := hload 0
    rw [hfill] at hok
    by_contra hno
    rw [if_neg hno] at hok
    cases hok
  · intro hin
    refine ⟨_, he, fun k => ⟨_, by rw [hfill, if_pos hin], fun j hj => ?_⟩⟩
    show Function.update t.mem k _ k j = _
    rw [Function.update_self, filePage]
    exact if_congr (by omega) rfl rfl

/-- A length that wraps adds no page to the process. -/
theorem Created.no_page {h : Nat} {s1 t1 : Vm} (c : Created s t p addr length inode offset h s1 t1)
    (hp : pagesOf length = 0) (u : Nat) : t.spt p u = s.spt p u := by
  rw [c.result, ← c.kept.1]
  exact c.added.others p u fun hu => by omega

/-- **MAPPED BYTES**: every page of a mapping that holds bytes of the file is new and shows them,
    for exactly the lengths that are rounded up without wrapping and, of these, the mappings that
    end in the file and the files that end with a page. -/
theorem mapping_shows_file_iff (hlt : length < 2 ^ 32)
    (h : mmapCreate s p addr length inode offset = .ok (true, t)) :
    (∀ i < (length + PGSIZE - 1) / PGSIZE, offset + i * PGSIZE < t.length inode →
      s.spt p (addr / PGSIZE + i) = none ∧
        Shows t p (addr / PGSIZE + i) inode (offset + i * PGSIZE) (length - i * PGSIZE)) ↔
    t.length inode ≤ offset ∨ length ≤ 2 ^ 32 - PGSIZE ∧
      (offset + length ≤ t.length inode ∨ (t.length inode - offset) % PGSIZE = 0) := by
  obtain ⟨ok, t', ht, -, hmade⟩ := mmapCreate_spec s p addr length inode offset
  obtain ⟨⟩ := ht.symm.trans h
  obtain ⟨f, s1, t1, c⟩ := hmade rfl
  have h0 := c.length_ne
  by_cases hlen : length ≤ 2 ^ 32 - PGSIZE
  · have hpage : ∀ i < (length + PGSIZE - 1) / PGSIZE, i * PGSIZE < length ∧
        s.spt p (addr / PGSIZE + i) = none ∧
        (Shows t p (addr / PGSIZE + i) inode (offset + i * PGSIZE) (length - i * PGSIZE) ↔
          offset + i * PGSIZE + min PGSIZE (length - i * PGSIZE) ≤ t.length inode) := by
      intro i hi
      have hi' : i * PGSIZE < length := by
        unfold PGSIZE at *
        omega
      rw [← (pagesOf_eq h0 hlen).1] at hi
      rw [← c.kept.1]
      exact ⟨hi', (of_mmapRangeAvailable c.free).2 _ (by omega) (by omega),
        shows_iff c.isOpen c.inodeOf (c.entries i hi) hi'⟩
    constructor
    · intro hall
      by_contra hno
      -- the page in which the file ends
      have hi : (t.length inode - offset) / PGSIZE < (length + PGSIZE - 1) / PGSIZE := by
        unfold PGSIZE at *
        omega
      have hload := (hpage _ hi).2.2.mp (hall _ hi (by unfold PGSIZE at *; omega)).2
      unfold PGSIZE at *
      omega
    · intro hc i hi hin
      obtain ⟨hi', hnew, hshow⟩ := hpage i hi
      refine ⟨hnew, hshow.mpr ?_⟩
      unfold PGSIZE at *
      omega
  · constructor
    · intro hall
      refine .inl (Nat.not_lt.mp fun hin => ?_)
      -- the first page would be new, and no page is
      obtain ⟨hnew, e, he, -⟩ := hall 0 (by unfold PGSIZE; omega) (by omega)
      rw [c.no_page (by unfold pagesOf PGSIZE at *; omega), hnew] at he
      exact nomatch he
    · intro hc i _ hin
      omega

end Shows

/-- Every file has one byte, 7. -/
def oneByte : Vm := boot ⟨id, fun l => .refl l⟩ 8 8 (fun _ _ => 7) (fun _ => 1) fun _ => 1

theorem mapping_shows_one_byte : ∃ t, mmapCreate oneByte 0 4096 1 0 0 = .ok (true, t) ∧
    ∀ i < 1, 0 + i * PGSIZE < t.length 0 → oneByte.spt 0 (1 + i) = none ∧
      Shows t 0 (1 + i) 0 (0 + i * PGSIZE) (1 - i * PGSIZE) := by
  have h : mmapCreate oneByte 0 4096 1 0 0 = .ok (true, _) := rfl
  exact ⟨_, h, (mapping_shows_file_iff (by decide) h).mpr (.inr (by decide))⟩

/-- A page of the file mapped instead: the byte cannot be read. -/
theorem mapping_hides_one_byte : ∃ t, mmapCreate oneByte 0 4096 4096 0 0 = .ok (true, t) ∧
    t.length 0 = 1 ∧ ∃ t', sptLoadPage t 0 1 = .ok (none, t') :=
  ⟨_, rfl, rfl, _, rfl⟩

end MavVm
