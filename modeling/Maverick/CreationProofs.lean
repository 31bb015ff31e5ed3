import Maverick.CapacityProofs

/-! # Creations that fail

`inode_create_internal` that runs out of sectors has taken all the free ones, in their order on the
device, and gives back what the index blocks on the device name. An index block under construction
is only in memory: what was taken for it is lost, and what its sector held before is released.

So the free map is restored exactly if no index block was under construction, or the words that its
sector held before name the sectors that were taken for it. -/

namespace MavInode

open MavBlock MavField List
open Function (update update_self update_of_ne)

section Failed

variable {s s' s'' st : Store} {x y q : Sector} {n : InodeDisk} {length : Nat} {type : InodeType}
  {L L' : List Sector} {ok : Bool}

/-! ## Sectors in the order of their allocation -/

/-- The free sectors, as `free_map_allocate_one` finds them. -/
def freeSectors (s : Store) : List Sector := (List.range s.size).filter fun y => !s.used y

theorem nodup_freeSectors (s : Store) : (freeSectors s).Nodup := nodup_range.filter _

theorem mem_freeSectors : y ∈ freeSectors s ↔ y < s.size ∧ s.used y = false := by
  rw [freeSectors, mem_filter, mem_range, Bool.not_eq_true']

/-- The first free sectors were taken, and no other sector was written. -/
structure Took (s : Store) (L : List Sector) (s' : Store) : Prop where
  free : freeSectors s = L ++ freeSectors s'
  disk : ∀ y ∉ L, s'.disk y = s.disk y

theorem Took.trans (h : Took s L s') (h' : Took s' L' s'') : Took s (L ++ L') s'' where
  free := by rw [h.free, h'.free, append_assoc]
  disk y hy := by
    rw [mem_append, not_or] at hy
    rw [h'.disk y hy.2, h.disk y hy.1]

/-- What holds for the free sectors holds for those taken and those left. -/
theorem Took.all (h : Took s L s') {P : Sector → Prop} (hP : ∀ y ∈ freeSectors s, P y) :
    (∀ y ∈ L, P y) ∧ ∀ y ∈ freeSectors s', P y := by
  rw [h.free] at hP
  exact forall_mem_append.mp hP

theorem Took.nodup (h : Took s L s') : L.Nodup := by
  have hnd := nodup_freeSectors s
  rw [h.free] at hnd
  exact hnd.of_append_left

/-- A sector that is left was not taken. -/
theorem Took.left (h : Took s L s') (hy : y ∈ freeSectors s') : y ∉ L := by
  have hnd := nodup_freeSectors s
  rw [h.free] at hnd
  exact fun hL => disjoint_of_nodup_append hnd hL hy

theorem allocateOne_none (h : allocateOne s = none) : freeSectors s = [] := by
  have hnone := find?_eq_none.mp (Option.map_eq_none_iff.mp h)
  exact filter_eq_nil_iff.mpr hnone

theorem allocateOne_took (h : allocateOne s = some (y, s')) : Took s [y] s' ∧ s'.disk = s.disk := by
  obtain ⟨z, hz, heq⟩ := Option.map_eq_some_iff.mp h
  obtain ⟨rfl, rfl⟩ := Prod.mk.inj heq
  obtain ⟨hfree, before, after, hrange, hbefore⟩ := find?_eq_some_iff_append.mp hz
  have hnd : (before ++ z :: after).Nodup := hrange ▸ nodup_range
  have hafter : ∀ y ∈ after, y ≠ z := fun y hy he =>
    (nodup_cons.mp hnd.of_append_right).1 (he ▸ hy)
  refine ⟨⟨?_, fun _ _ => rfl⟩, rfl⟩
  have hgone : before.filter (fun y => !s.used y) = [] :=
    filter_eq_nil_iff.mpr fun y hy => by simpa using hbefore y hy
  have hgone' : before.filter (fun y => !update s.used z true y) = [] :=
    filter_eq_nil_iff.mpr fun y hy => by
      have hne : y ≠ z := fun he => disjoint_of_nodup_append hnd hy (he ▸ mem_cons_self)
      rw [update_of_ne hne]
      simpa using hbefore y hy
  have hkeep : after.filter (fun y => !update s.used z true y) =
      after.filter (fun y => !s.used y) :=
    filter_congr fun y hy => by rw [update_of_ne (hafter y hy)]
  show (List.range s.size).filter _ = [z] ++ (List.range s.size).filter _
  rw [hrange, filter_append, filter_append, hgone, hgone', nil_append, nil_append,
    filter_cons_of_pos (p := fun y => !s.used y) hfree,
    filter_cons_of_neg (p := fun y => !update s.used z true y)
      (by rw [update_self]; decide), hkeep]
  rfl

/-! ## Arrays of pointers -/

theorem slots_length_le (k cnt : Nat) : (slots k 0 cnt).length ≤ k :=
  (length_filter_le ..).trans_eq length_finRange

theorem slots_length {k cnt : Nat} (h : k ≤ cnt) : (slots k 0 cnt).length = k := by
  have hall : slots k 0 cnt = List.finRange k := filter_eq_self.mpr fun i _ => by
    have := i.isLt
    simp
    omega
  rw [hall, length_finRange]

/-- Only the places that were filled count. -/
theorem nonzero_slots {k cnt : Nat} {a : Fin k → Nat} (h : ∀ i ∉ slots k 0 cnt, a i = 0) :
    nonzero a = ((slots k 0 cnt).map a).filter (· ≠ 0) := by
  unfold nonzero
  rw [filter_map, filter_map]
  refine congrArg (List.map a) ?_
  conv_rhs => rw [slots, filter_filter]
  refine filter_congr fun i _ => ?_
  by_cases hi : i ∈ slots k 0 cnt
  · have hp := (mem_filter.mp hi).2
    simp only [hp, Bool.and_true]
  · simp [h i hi]

theorem zero_update {k : Nat} {i : Fin k} {is : List (Fin k)} {a : Fin k → Nat} {y : Nat}
    (hi : i ∉ is) (h : ∀ j ∈ i :: is, a j = 0) : ∀ j ∈ is, update a i y j = 0 := by
  intro j hj
  rw [update_of_ne fun he : j = i => hi (he ▸ hj)]
  exact h j (mem_cons_of_mem _ hj)

/-- **AN ARRAY** is filled with the first free sectors, zeroed, until there are none left. -/
theorem fillSlots_took {k : Nat} (keep : Bool) (is : List (Fin k)) (s : Store) (a : Fin k → Nat)
    {a' : Fin k → Nat} (hsec : ∀ y ∈ freeSectors s, y ≠ 0) :
    is.Nodup → (∀ i ∈ is, a i = 0) → fillSlots keep is s a = (ok, s', a') →
    ∃ L, Took s L s' ∧ (∀ y ∈ L, s'.disk y = zeroBlock) ∧ (is.map a').filter (· ≠ 0) = L ∧
      (∀ i ∉ is, a' i = a i) ∧ (ok = true → L.length = is.length) ∧
      (ok = false → freeSectors s' = [] ∧ L.length < is.length) := by
  induction is generalizing s a with
  | nil =>
    intro _ _ h
    simp only [fillSlots, Prod.mk.injEq] at h
    obtain ⟨rfl, rfl, rfl⟩ := h
    exact ⟨[], ⟨rfl, fun _ _ => rfl⟩, nofun, rfl, fun _ _ => rfl, fun _ => rfl, nofun⟩
  | cons i is ih =>
    intro hnd hzero h
    obtain ⟨hi, hnd⟩ := nodup_cons.mp hnd
    have hzi := hzero i mem_cons_self
    rw [fillSlots, if_neg (fun hk => hk.2 hzi)] at h
    cases hal : allocateOne s with
    | none =>
      simp only [hal, Prod.mk.injEq] at h
      obtain ⟨rfl, rfl, rfl⟩ := h
      refine ⟨[], ⟨rfl, fun _ _ => rfl⟩, nofun, ?_, fun _ _ => rfl, nofun,
        fun _ => ⟨allocateOne_none hal, Nat.zero_lt_succ _⟩⟩
      refine filter_eq_nil_iff.mpr fun z hz => ?_
      obtain ⟨j, hj, rfl⟩ := mem_map.mp hz
      simp [hzero j hj]
    | some r =>
      obtain ⟨y, s1⟩ := r
      rw [hal] at h
      obtain ⟨htook, hdisk⟩ := allocateOne_took hal
      have hfirst : Took s [y] (s1.write y zeroBlock) :=
        ⟨htook.free, fun z hz => (blockWrite_other fun he => hz (mem_singleton.mpr he)).trans
          (congrFun hdisk z)⟩
      obtain ⟨hy0, hsec⟩ := hfirst.all hsec
      obtain ⟨L, hL, hblank, hval, hother, hfull, hout⟩ := ih _ (update a i y) hsec hnd
        (zero_update hi hzero) h
      have hall := hfirst.trans hL
      refine ⟨y :: L, hall, forall_mem_cons.mpr ⟨?_, hblank⟩, ?_, fun j hj => ?_, fun hok => ?_,
        fun hno => ⟨(hout hno).1, Nat.succ_lt_succ (hout hno).2⟩⟩
      · rw [hL.disk y (nodup_cons.mp hall.nodup).1]
        exact blockWrite_same ..
      · rw [map_cons, hother i hi, update_self,
          filter_cons_of_pos (by simpa using hy0 y mem_cons_self), hval]
      · rw [mem_cons, not_or] at hj
        rw [hother j hj.2, update_of_ne hj.1]
      · rw [length_cons, length_cons, hfull hok]

theorem nonzero_zeroBlock : nonzero (words zeroBlock) = [] := by decide +kernel

/-- **A NEW INDEX BLOCK** takes a sector for itself and the next ones for its data. It is written
    when it is full, and otherwise its sector holds what it held. -/
theorem fillIndex_took {cnt : Nat} (hsec : ∀ y ∈ freeSectors s, y ≠ 0 ∧ y < 2 ^ 32)
    (h : fillIndex 0 cnt s 0 = (ok, s', q)) :
    (ok = false ∧ q = 0 ∧ s' = s ∧ freeSectors s = []) ∨
    ∃ L, q ≠ 0 ∧ Took s (q :: L) s' ∧ (∀ y ∈ L, s'.disk y = zeroBlock) ∧
      (ok = true → L.length = (slots 128 0 cnt).length ∧ nonzero (words (s'.disk q)) = L) ∧
      (ok = false → freeSectors s' = [] ∧ L.length < 128 ∧ s'.disk q = s.disk q) := by
  rw [fillIndex, openIndex, if_pos rfl] at h
  cases hal : allocateOne s with
  | none =>
    simp only [hal, Option.map_none, Prod.mk.injEq] at h
    obtain ⟨rfl, rfl, rfl⟩ := h
    exact .inl ⟨rfl, rfl, rfl, allocateOne_none hal⟩
  | some r =>
    obtain ⟨z, s1⟩ := r
    rw [hal] at h
    simp only [Option.map_some] at h
    obtain ⟨htook, hdisk⟩ := allocateOne_took hal
    rcases hf : fillSlots true (slots 128 0 cnt) s1 (fun _ => 0) with ⟨full, s2, a⟩
    obtain ⟨L, hL, hblank, hval, hother, hfull, hout⟩ := fillSlots_took true _ s1 _
      (fun y hy => ((htook.all hsec).2 y hy).1) (slots_nodup ..) (fun _ _ => rfl) hf
    have hall := htook.trans hL
    have hz : z ∉ L := (nodup_cons.mp hall.nodup).1
    obtain ⟨⟨hz0, -⟩, hword⟩ := forall_mem_cons.mp (hall.all hsec).1
    rw [hf] at h
    refine .inr ⟨L, ?_⟩
    cases full with
    | false =>
      simp only [Prod.mk.injEq] at h
      obtain ⟨rfl, rfl, rfl⟩ := h
      obtain ⟨hnone, hlt⟩ := hout rfl
      exact ⟨hz0, hall, hblank, nofun, fun _ => ⟨hnone, hlt.trans_le (slots_length_le ..),
        (hL.disk z hz).trans (congrFun hdisk z)⟩⟩
    | true =>
      simp only [Prod.mk.injEq] at h
      obtain ⟨rfl, rfl, rfl⟩ := h
      have hne : ∀ y ∈ L, y ≠ z := fun y hy he => hz (he ▸ hy)
      have hnonzero : nonzero a = L := (nonzero_slots hother).trans hval
      have hfits : ∀ i, a i < 2 ^ 32 := by
        intro i
        by_cases hi : a i = 0
        · rw [hi]; decide
        · exact (hword _ (hnonzero ▸ mem_filter.mpr
            ⟨mem_map_of_mem (mem_finRange i), by simpa using hi⟩)).2
      refine ⟨hz0, ⟨hall.free, fun y hy => ?_⟩, fun y hy => ?_, fun _ => ⟨hfull rfl, ?_⟩, nofun⟩
      · exact (blockWrite_other fun he : y = z => hy (he ▸ mem_cons_self)).trans (hall.disk y hy)
      · exact (blockWrite_other (hne y hy)).trans (hblank y hy)
      · show nonzero (words (blockWrite s2.disk z (ofWords a) z)) = L
        rw [blockWrite_same, words_ofWords hfits, hnonzero]

/-! ## The second level -/

/-- The sectors that a sector of `L` names as an index block, when the sectors of `L` were taken for
    the second level and ran out: the first of every 129 is the index block of the others. The last
    of these that is not full was not written. -/
def namedBy (d : Disk) (L : List Sector) (p : Sector) : List Sector :=
  if L.idxOf p % 129 ≠ 0 then []
  else if L.idxOf p + 129 ≤ L.length then (L.drop (L.idxOf p + 1)).take 128
  else nonzero (words (d p))

theorem namedBy_append {B R : List Sector} {d : Disk} {p : Sector} (hB : B.length = 129) (hp : p ∉ B) :
    namedBy d (B ++ R) p = namedBy d R p := by
  have hdrop : (B ++ R).drop (129 + (R.idxOf p + 1)) = R.drop (R.idxOf p + 1) := by
    rw [← hB, drop_length_add_append]
  rw [namedBy, namedBy, idxOf_append_of_notMem hp, length_append, hB, Nat.add_mod_left,
    Nat.add_assoc, Nat.add_assoc, hdrop]
  simp only [Nat.add_le_add_iff_left]

/-- **THE SECOND LEVEL** that runs out of sectors has taken them all. -/
theorem fillDouble_failed (is : List (Fin 128)) (cnt : Nat) (s : Store) (a : Fin 128 → Nat)
    {a' : Fin 128 → Nat} (hsec : ∀ y ∈ freeSectors s, y ≠ 0 ∧ y < 2 ^ 32) :
    is.Nodup → (∀ i ∈ is, a i = 0) → fillDouble is 0 cnt s a = (false, s', a') →
    freeSectors s' = [] ∧ (∀ y ∉ freeSectors s, s'.disk y = s.disk y) ∧
      ∀ p ∈ freeSectors s, nonzero (words (s'.disk p)) = namedBy s.disk (freeSectors s) p := by
  induction is generalizing cnt s a with
  | nil => intro _ _ h; exact nomatch (Prod.mk.inj h).1
  | cons i is ih =>
    intro hnd hzero h
    obtain ⟨hi, hnd⟩ := nodup_cons.mp hnd
    rw [fillDouble] at h
    split at h
    · exact nomatch (Prod.mk.inj h).1
    rw [hzero i mem_cons_self] at h
    rcases hf : fillIndex 0 (min (128 - 0) cnt) s 0 with ⟨full, s1, q⟩
    rw [hf] at h
    have hcases := fillIndex_took hsec hf
    cases full with
    | false =>
      obtain ⟨-, h⟩ := Prod.mk.inj h
      obtain ⟨rfl, -⟩ := Prod.mk.inj h
      rcases hcases with ⟨-, -, rfl, hnone⟩ | ⟨L, -, hL, hblank, -, hout⟩
      · rw [hnone]
        exact ⟨rfl, fun _ _ => rfl, nofun⟩
      obtain ⟨hnone, hlt, hkept⟩ := hout rfl
      have hfree : freeSectors s = q :: L := by rw [hL.free, hnone, append_nil]
      rw [hfree]
      refine ⟨hnone, hL.disk, ?_⟩
      refine forall_mem_cons.mpr ⟨?_, fun p hp => ?_⟩
      · rw [namedBy, idxOf_cons_self, if_neg (by decide), if_neg (by rw [length_cons]; omega), hkept]
      · have hne : q ≠ p := fun he => (nodup_cons.mp hL.nodup).1 (he ▸ hp)
        have hlt' := idxOf_lt_length_of_mem hp
        rw [hblank p hp, nonzero_zeroBlock, namedBy, idxOf_cons_ne _ hne, if_pos (by omega)]
    | true =>
      dsimp only at h
      obtain ⟨hc, -⟩ | ⟨L, -, hL, hblank, hfull, -⟩ := hcases
      · exact nomatch hc
      obtain ⟨hlen, hheld⟩ := hfull rfl
      obtain ⟨hnone, hdisk, hnamed⟩ := ih _ s1 _ (hL.all hsec).2 hnd (zero_update hi hzero) h
      -- the loop goes on, so this block is full
      have h128 : L.length = 128 := by
        rw [hlen]
        refine slots_length ?_
        by_contra hlt
        rw [show cnt - min (128 - 0) cnt = 0 by omega] at h
        cases is with
        | nil => exact nomatch (Prod.mk.inj h).1
        | cons i is => rw [fillDouble, if_pos rfl] at h; exact nomatch (Prod.mk.inj h).1
      rw [hL.free]
      refine ⟨hnone, fun y hy => ?_, fun p hp => ?_⟩
      · rw [mem_append, not_or] at hy
        rw [hdisk y hy.2, hL.disk y hy.1]
      rcases mem_append.mp hp with hp | hp
      · rw [hdisk p fun hR => hL.left hR hp]
        rcases mem_cons.mp hp with rfl | hp
        · rw [namedBy, cons_append, idxOf_cons_self, if_neg (by decide),
            if_pos (by rw [length_cons, length_append]; omega), hheld]
          simp [← h128]
        · have hne : q ≠ p := fun he => (nodup_cons.mp hL.nodup).1 (he ▸ hp)
          have hlt := idxOf_lt_length_of_mem hp
          rw [hblank p hp, nonzero_zeroBlock, namedBy, cons_append, idxOf_cons_ne _ hne,
            idxOf_append_of_mem hp, if_pos (by omega)]
      · rw [hnamed p hp, namedBy_append (congrArg (· + 1) h128) (hL.left hp), namedBy, namedBy,
          hL.disk p (hL.left hp)]

theorem growDouble_failed {new : Nat} (hsec : ∀ y ∈ freeSectors s, y ≠ 0 ∧ y < 2 ^ 32)
    (h : growDouble 0 new s 0 = (false, s', q)) : (q = 0 ∧ s' = s ∧ freeSectors s = []) ∨
    ∃ L, q ≠ 0 ∧ freeSectors s = q :: L ∧ freeSectors s' = [] ∧
      (∀ y ∉ L, s'.disk y = s.disk y) ∧
      ∀ p ∈ L, nonzero (words (s'.disk p)) = namedBy s.disk L p := by
  rw [growDouble, openIndex, if_pos rfl] at h
  cases hal : allocateOne s with
  | none =>
    simp only [hal, Option.map_none, Prod.mk.injEq] at h
    obtain ⟨-, rfl, rfl⟩ := h
    exact .inl ⟨rfl, rfl, allocateOne_none hal⟩
  | some r =>
    obtain ⟨z, s1⟩ := r
    obtain ⟨htook, hd⟩ := allocateOne_took hal
    rw [hal] at h
    simp only [Option.map_some] at h
    rcases hf : fillDouble ((List.finRange 128).drop ((0 - 140) / 128)) ((0 - 140) % 128)
      (new - max 0 140) s1 (fun _ => 0) with ⟨full, s2, a⟩
    rw [hf] at h
    cases full with
    | true => exact nomatch (Prod.mk.inj h).1
    | false =>
      simp only [Prod.mk.injEq] at h
      obtain ⟨-, rfl, rfl⟩ := h
      obtain ⟨hnone, hdisk, hnamed⟩ := fillDouble_failed _ _ s1 _
        (htook.all hsec).2 ((nodup_finRange 128).sublist (drop_sublist ..)) (fun _ _ => rfl) hf
      rw [hd] at hdisk hnamed
      exact .inr ⟨freeSectors s1, ((htook.all hsec).1 z mem_cons_self).1, htook.free, hnone, hdisk,
        hnamed⟩

/-! ## What a failed creation gives back -/

/-- The condition on the free sectors `F` and the words on the device. The first 12 are data blocks,
    the next is the index block of 128 more and the 142nd that of the second level: a creation
    stopped outside an index block, or the words of the open index blocks name what was taken. -/
def Recoverable (d : Disk) (F : List Sector) : Prop :=
  F.length ≤ 12 ∨ F.length = 141 ∨
  (F.length < 141 ∧ nonzero (words (d (F.getD 12 0))) ~ F.drop 13) ∨
  (141 < F.length ∧ (nonzero (words (d (F.getD 141 0)))).flatMap
    (fun p => namedBy d (F.drop 142) p ++ [p]) ~ F.drop 142)

/-- A list of index blocks that names the sectors of `L` has its index blocks in `L`. -/
theorem flatMap_perm_iff {f g : Sector → List Sector} {A L : List Sector}
    (h : ∀ p ∈ L, f p = g p) :
    A.flatMap (fun p => f p ++ [p]) ~ L ↔ A.flatMap (fun p => g p ++ [p]) ~ L := by
  have hsub : ∀ {e : Sector → List Sector}, A.flatMap (fun p => e p ++ [p]) ~ L → ∀ p ∈ A, p ∈ L :=
    fun hp p hA => hp.subset (mem_flatMap.mpr ⟨p, hA, mem_append_right _ mem_cons_self⟩)
  have hsame : (∀ p ∈ A, p ∈ L) →
      A.flatMap (fun p => f p ++ [p]) = A.flatMap (fun p => g p ++ [p]) :=
    fun hA => flatMap_congr fun p hp => by rw [h p (hA p hp)]
  exact ⟨fun hp => hsame (hsub hp) ▸ hp, fun hp => hsame (hsub hp) ▸ hp⟩

theorem perm_snoc_iff {A B : List Sector} : A ++ [q] ~ q :: B ↔ A ~ B :=
  ⟨fun h => ((perm_append_singleton q A).symm.trans h).cons_inv,
    fun h => (perm_append_singleton q A).trans (h.cons q)⟩

theorem at_split {A B : List Sector} {k : Nat} (h : A.length = k) :
    (A ++ q :: B).getD k 0 = q ∧ (A ++ q :: B).drop (k + 1) = B := by
  subst h
  simp

/-- Stopped below the index block of the first level. -/
theorem recoverable_single {d : Disk} {A B : List Sector} (hA : A.length = 12)
    (hB : B.length < 128) : Recoverable d (A ++ q :: B) ↔ nonzero (words (d q)) ~ B := by
  have hlen : (A ++ q :: B).length = 13 + B.length := by
    rw [length_append, length_cons]
    omega
  rw [Recoverable, (at_split hA).1, (at_split hA).2]
  refine ⟨?_, fun hp => .inr (.inr (.inl ⟨by omega, hp⟩))⟩
  rintro (h | h | ⟨-, hp⟩ | ⟨h, -⟩)
  · omega
  · omega
  · exact hp
  · omega

/-- Stopped below that of the second level. -/
theorem recoverable_double {d : Disk} {A B : List Sector} (hA : A.length = 141) :
    Recoverable d (A ++ q :: B) ↔
      (nonzero (words (d q))).flatMap (fun p => namedBy d B p ++ [p]) ~ B := by
  have hlen : (A ++ q :: B).length = 142 + B.length := by
    rw [length_append, length_cons]
    omega
  rw [Recoverable, (at_split hA).1, (at_split hA).2]
  refine ⟨?_, fun hp => .inr (.inr (.inr ⟨by omega, hp⟩))⟩
  rintro (h | h | ⟨h, -⟩ | ⟨-, hp⟩)
  · omega
  · omega
  · omega
  · exact hp

/-- The sectors released are those taken, all the free ones, exactly under that condition. -/
theorem blockList_perm_iff (hm : MapOk s) {new : Nat}
    (hr : growBlocks 0 new s (blankInode length type) = (false, st, n)) :
    freeSectors st = [] ∧
      (blockList st.disk n ~ freeSectors s ↔ Recoverable s.disk (freeSectors s)) := by
  have hsec : ∀ y ∈ freeSectors s, y ≠ 0 ∧ y < 2 ^ 32 := by
    intro y hy
    obtain ⟨hlt, hfree⟩ := mem_freeSectors.mp hy
    exact ⟨hm.ne_zero hfree, hlt.trans_le hm.size⟩
  rw [growBlocks] at hr
  rcases hd : fillSlots false (slots 12 0 (new - 0)) s (blankInode length type).direct with
    ⟨full, s1, d⟩
  obtain ⟨L, hL, -, hval, hother, hfull, hout⟩ := fillSlots_took false _ s _
    (fun y hy => (hsec y hy).1) (slots_nodup ..) (fun _ _ => rfl) hd
  have hdirect : nonzero d = L := (nonzero_slots hother).trans hval
  rw [hd] at hr
  cases full with
  | false =>
    simp only [Prod.mk.injEq] at hr
    obtain ⟨-, rfl, rfl⟩ := hr
    obtain ⟨hnone, hlt⟩ := hout rfl
    have hlen := slots_length_le 12 (new - 0)
    rw [hL.free, hnone, append_nil, ← hdirect]
    refine ⟨rfl, iff_of_true ?_ (.inl (by rw [hdirect]; omega))⟩
    simp [blockList, blankInode]
  | true =>
  dsimp only at hr
  split at hr
  · exact nomatch (Prod.mk.inj hr).1
  have h12 : L.length = 12 := (hfull rfl).trans (slots_length (by omega))
  have hsec1 := (hL.all hsec).2
  rcases hi : fillIndex (0 - 12) (new - max 0 12) s1 (blankInode length type).indirect with
    ⟨full, s2, q⟩
  have hindex := fillIndex_took hsec1 hi
  rw [hi] at hr
  cases full with
  | false =>
    simp only [Prod.mk.injEq] at hr
    obtain ⟨-, rfl, rfl⟩ := hr
    rcases hindex with ⟨-, rfl, rfl, hnone⟩ | ⟨L2, hq, hI, -, -, hout⟩
    · rw [hL.free, hnone, append_nil, ← hdirect]
      refine ⟨rfl, iff_of_true ?_ (.inl (by rw [hdirect]; omega))⟩
      simp [blockList, blankInode]
    obtain ⟨hnone, hlt, hkept⟩ := hout rfl
    have hqL : q ∉ L := hL.left (by rw [hI.free]; exact mem_cons_self)
    have hlist : blockList s2.disk { blankInode length type with direct := d, indirect := q } =
        L ++ (nonzero (words (s.disk q)) ++ [q]) := by
      rw [blockList, if_neg hq, hdirect, hkept, hL.disk q hqL]
      exact append_nil _
    rw [hlist, hL.free, hI.free, hnone, append_nil, perm_append_left_iff, perm_snoc_iff,
      recoverable_single h12 hlt]
    exact ⟨rfl, Iff.rfl⟩
  | true =>
  dsimp only at hr
  split at hr
  · exact nomatch (Prod.mk.inj hr).1
  obtain ⟨hc, -⟩ | ⟨L2, hq, hI, -, hfull2, -⟩ := hindex
  · exact nomatch hc
  obtain ⟨hlen2, hheld⟩ := hfull2 rfl
  have hall := hL.trans hI
  have h141 : (L ++ q :: L2).length = 141 := by
    rw [length_append, length_cons, h12, hlen2, slots_length (by omega)]
  rcases hg : growDouble 0 new s2 (blankInode length type).doublyIndirect with ⟨ok, s3, q'⟩
  simp only [hg, Prod.mk.injEq] at hr
  obtain ⟨rfl, rfl, rfl⟩ := hr
  rcases growDouble_failed (hI.all hsec1).2 hg with ⟨rfl, rfl, hnone⟩ | ⟨L3, hq', hfree, hnone, hdisk, hnamed⟩
  · rw [hall.free, hnone, append_nil]
    refine ⟨rfl, iff_of_true ?_ (.inr (.inl h141))⟩
    rw [blockList, if_neg hq, if_pos rfl, hheld, hdirect, append_nil, perm_append_left_iff]
    exact perm_snoc_iff.mpr (.refl _)
  have hleft : ∀ y ∈ q' :: L3, y ∉ L ++ q :: L2 := fun y hy => hall.left (hfree ▸ hy)
  have hqL3 : q ∉ L3 := fun h => hleft q (mem_cons_of_mem _ h) (mem_append_right _ mem_cons_self)
  have hqL3' : q' ∉ L3 := (nodup_cons.mp (hfree ▸ nodup_freeSectors s2)).1
  have hlist : blockList s3.disk { blankInode length type with
      direct := d, indirect := q, doublyIndirect := q' } = L ++ (L2 ++ [q]) ++
      ((nonzero (words (s.disk q'))).flatMap (fun p => nonzero (words (s3.disk p)) ++ [p]) ++
        [q']) := by
    rw [blockList, if_neg hq, if_neg hq', hdirect, hdisk q hqL3, hheld, hdisk q' hqL3',
      hall.disk q' (hleft q' mem_cons_self)]
  have hperm : L ++ (L2 ++ [q]) ~ L ++ q :: L2 := (perm_snoc_iff.mpr (.refl _)).append_left L
  rw [hlist, hall.free, hfree, recoverable_double h141]
  have hsame : ∀ p ∈ L3, nonzero (words (s3.disk p)) = namedBy s.disk L3 p := by
    intro p hp
    rw [hnamed p hp, namedBy, namedBy, hall.disk p (hleft p (mem_cons_of_mem _ hp))]
  rw [(hperm.append_right _).congr_left, perm_append_left_iff, perm_snoc_iff, flatMap_perm_iff hsame]
  exact ⟨hnone, Iff.rfl⟩

/-- A release that does not panic finds every sector in use, once. -/
theorem releaseAll_nodup : ∀ {L : List Sector} {st st' : Store}, releaseAll st L = some st' →
    L.Nodup ∧ ∀ y ∈ L, st.used y := by
  intro L
  induction L with
  | nil => exact fun _ => ⟨nodup_nil, nofun⟩
  | cons y ys ih =>
    intro st st' h
    obtain ⟨st1, h1, h2⟩ := Option.bind_eq_some_iff.mp h
    obtain ⟨hy, h1⟩ := Option.ite_none_right_eq_some.mp h1
    obtain ⟨hnd, hu⟩ := ih h2
    rw [← Option.some.inj h1] at hu
    have hu : ∀ z ∈ ys, update st.used y false z = true := hu
    have hne : ∀ z ∈ ys, z ≠ y := by
      rintro z hz rfl
      exact absurd (hu z hz) (by rw [update_self]; decide)
    refine ⟨nodup_cons.mpr ⟨fun hmem => hne y hmem rfl, hnd⟩, fun z hz => ?_⟩
    rcases mem_cons.mp hz with rfl | hz
    · exact hy.2
    · have hz' := hu z hz
      rw [update_of_ne (hne z hz)] at hz'
      exact hz'

/-- **A FAILED CREATION** restores the free map without a panic exactly under that condition on the
    free sectors and their words before the call. -/
theorem failed_creation_restores_iff (hm : MapOk s)
    (hfail : ∀ st, inodeCreateInternal s x length type ≠ some (true, st)) :
    (∃ st, inodeCreateInternal s x length type = some (false, st) ∧ st.used = s.used) ↔
      Recoverable s.disk (freeSectors s) := by
  obtain ⟨o', G⟩ := growBlocks_spec 0 (bytesToSectors length) hm
    (blankInode_ok (fun _ => none) s x length type)
  unfold inodeCreateInternal at hfail ⊢
  rcases hr : growBlocks 0 (bytesToSectors length) s (blankInode length type) with ⟨ok, st, n⟩
  rw [hr] at G hfail
  cases ok with
  | true => exact absurd rfl (hfail _)
  | false =>
  obtain ⟨hnone, hiff⟩ := blockList_perm_iff hm hr
  have hmap : MapOk st := G.grows.mapOk hm
  rw [← hiff]
  -- all the free sectors were taken
  have htaken : ∀ y, y ∈ freeSectors s ↔ st.used y ∧ ¬s.used y := by
    intro y
    rw [mem_freeSectors, ← Bool.not_eq_true]
    refine and_congr_left fun hfree => ⟨fun hlt => ?_, fun hu => G.grows.size ▸ hmap.range y hu⟩
    by_contra hc
    have hmem : y ∈ freeSectors st :=
      mem_freeSectors.mpr ⟨G.grows.size.symm ▸ hlt, Bool.not_eq_true _ ▸ hc⟩
    rw [hnone] at hmem
    exact not_mem_nil hmem
  constructor
  · rintro ⟨st', h, hu⟩
    obtain ⟨st1, hrel, h⟩ := Option.map_eq_some_iff.mp h
    obtain ⟨-, rfl⟩ := Prod.mk.inj h
    obtain ⟨hnd, hin⟩ := releaseAll_nodup hrel
    have hout := (releaseAll_some hrel).2.2
    rw [hu] at hout
    refine (perm_ext_iff_of_nodup hnd (nodup_freeSectors s)).mpr fun y => ?_
    rw [htaken]
    refine ⟨fun hy => ⟨hin y hy, fun h => ((hout y).mp h).2 hy⟩, fun hy => ?_⟩
    by_contra hmem
    exact hy.2 ((hout y).mpr ⟨hy.1, hmem⟩)
  · intro hp
    have hmem : ∀ y, y ∈ blockList st.disk n ↔ st.used y ∧ ¬s.used y :=
      fun y => hp.mem_iff.trans (htaken y)
    obtain ⟨st', hrel⟩ := releaseAll_isSome (hp.nodup_iff.mpr (nodup_freeSectors s)) fun y hy =>
      ⟨hmap.range y ((hmem y).mp hy).1, ((hmem y).mp hy).1⟩
    refine ⟨st', congrArg (Option.map _) hrel, funext fun y => ?_⟩
    have hy := (releaseAll_some hrel).2.2 y
    have hmono := G.grows.used y
    rw [hmem] at hy
    cases h1 : s.used y <;> cases h2 : st.used y <;> cases h3 : st'.used y <;> simp_all

/-- With 13 sectors left the index block gets the last one; its words are zero. -/
theorem failed_creation_restores_thirteen :
    ∃ st, inodeCreateInternal (emptyStore 80) 1 6656 .file = some (false, st) ∧
      st.used = (emptyStore 80).used := by
  have hfail : (inodeCreateInternal (emptyStore 80) 1 6656 .file).map Prod.fst = some false := by
    decide +kernel
  refine (failed_creation_restores_iff (emptyStore_ok (by decide) (by decide)) fun st h => ?_).mpr
    (.inr (.inr (.inl ⟨by decide +kernel, by decide +kernel⟩)))
  rw [h] at hfail
  exact nomatch hfail

/-- **A CREATION THAT FAILS LOSES A SECTOR**: the second block below the index
    block finds no sector, the first is not given back. If the sector of the
    index block held other words before, the release of what they name panics. -/
theorem failed_creation_leaks :
    (inodeCreateInternal (emptyStore 81) 1 7168 .file).map (fun r => (r.1, r.2.used 80)) =
        some (false, true) ∧ (emptyStore 81).used 80 = false ∧
      (inodeCreateInternal (booted (fun _ => ofWords fun _ => 70) 81).store 1 7168 .file).isNone := by
  refine ⟨?_, ?_, ?_⟩ <;> decide +kernel

end Failed

end MavInode
