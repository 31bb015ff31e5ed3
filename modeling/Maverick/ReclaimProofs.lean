import Maverick.FilesProofs

/-! # Giving an inode back

The last close of a removed inode without links releases its sector and its blocks. In a sound
table that release never panics, and it gives back the inode's sectors, all of them, each once. -/

namespace MavInode

open MavBlock MavField MavRun List

/-- The places of an inode in the order in which `inode_deallocate` visits them. -/
def blockSlots : List Slot :=
  (List.finRange 12).map .direct ++
  ((List.finRange 128).map .single ++ [.indirect]) ++
  ((List.finRange 128).flatMap (fun i => (List.finRange 128).map (.leaf i) ++ [.index i]) ++
    [.doubly])

theorem mem_blockSlots {a : Slot} (h : a ≠ .self) : a ∈ blockSlots := by
  unfold blockSlots
  cases a with
  | self => exact absurd rfl h
  | direct i | indirect | single i | doubly | index i | leaf i j => simp

theorem self_not_mem_blockSlots : Slot.self ∉ blockSlots := by
  unfold blockSlots
  simp

theorem nodup_map_snoc {β : Type} {k : Nat} {f : Fin k → β} {b : β} (hf : Function.Injective f)
    (hb : ∀ i, f i ≠ b) : ((List.finRange k).map f ++ [b]).Nodup := by
  refine List.Nodup.append ((nodup_finRange k).map hf) (nodup_singleton b) ?_
  intro c hc hcb
  obtain ⟨i, -, rfl⟩ := mem_map.mp hc
  exact hb i (mem_singleton.mp hcb)

/-- No place is visited twice. -/
theorem nodup_blockSlots : blockSlots.Nodup := by
  have hleaf : ((List.finRange 128).flatMap fun i =>
      (List.finRange 128).map (Slot.leaf i) ++ [Slot.index i]).Nodup := by
    refine nodup_flatMap.mpr ⟨fun i _ => ?_, ?_⟩
    · exact nodup_map_snoc (fun j k e => (Slot.leaf.inj e).2) nofun
    refine (nodup_finRange 128).imp fun {i j} hij c hi hj => ?_
    simp only [mem_append, mem_map, mem_finRange, true_and, mem_singleton] at hi hj
    rcases hi with ⟨k, rfl⟩ | rfl <;> rcases hj with ⟨l, e⟩ | e
    · exact hij (Slot.leaf.inj e).1.symm
    · exact nomatch e
    · exact nomatch e
    · exact hij (Slot.index.inj e)
  refine List.Nodup.append (List.Nodup.append ((nodup_finRange 12).map ?_)
    (nodup_map_snoc (fun i j e => Slot.single.inj e) nofun) ?_)
    (List.Nodup.append hleaf (nodup_singleton _) ?_) ?_
  · exact fun i j e => Slot.direct.inj e
  all_goals
    intro c hc hc'
    cases c <;> simp at hc hc'

section Reclaim

variable {o o' : Owner} {s s' : Fs} {st st' : Store} {x y : Sector} {m : MemInode}
  {n : InodeDisk}

theorem nonzero_zeros {k : Nat} : nonzero (fun _ : Fin k => 0) = [] := by
  refine filter_eq_nil_iff.mpr fun y hy => ?_
  obtain ⟨i, -, rfl⟩ := mem_map.mp hy
  decide

/-- What an index block contributes: what hangs below its pointers, then its own sector. -/
theorem block_of_index (d : Disk) (p : Sector) {f : (Fin 128 → Nat) → List Sector}
    (hf : f (fun _ => 0) = []) :
    (if p = 0 then [] else f (words (d p)) ++ [p]) = f (ptrsAt d p) ++ [p].filter (· ≠ 0) := by
  by_cases hp : p = 0
  · subst hp
    rw [if_pos rfl, ptrsAt_zero, hf]
    rfl
  · rw [if_neg hp, ptrsAt_of_ne d hp, filter_cons_of_pos (by simpa using hp), filter_nil]

theorem flatMap_nonzero {k : Nat} (a : Fin k → Nat) (g : Nat → List Sector) :
    (nonzero a).flatMap g = (List.finRange k).flatMap fun i => if a i = 0 then [] else g (a i) := by
  unfold nonzero
  induction List.finRange k with
  | nil => rfl
  | cons i L ih =>
    rw [map_cons, flatMap_cons, ← ih]
    split
    · rename_i hi
      rw [filter_cons_of_neg (by simpa using hi), nil_append]
    · rename_i hi
      rw [filter_cons_of_pos (by simpa using hi), flatMap_cons]

/-- The places of an array, released. -/
theorem nonzero_map {k : Nat} (d : Disk) (x : Sector) (n : InodeDisk) (g : Fin k → Slot) :
    (((List.finRange k).map g).map (ptr d x n)).filter (· ≠ 0) =
      nonzero fun i => ptr d x n (g i) := by
  rw [map_map]
  rfl

/-- `inode_deallocate` visits every place and releases what is not zero. -/
theorem blockList_eq (d : Disk) (x : Sector) (n : InodeDisk) :
    blockList d n = (blockSlots.map (ptr d x n)).filter (· ≠ 0) := by
  have hleaf : (nonzero (ptrsAt d n.doublyIndirect)).flatMap
        (fun p => nonzero (words (d p)) ++ [p]) =
      (((List.finRange 128).flatMap fun i =>
        (List.finRange 128).map (Slot.leaf i) ++ [Slot.index i]).map (ptr d x n)).filter (· ≠ 0) := by
    rw [map_flatMap, filter_flatMap, flatMap_nonzero]
    -- a leaf index that is zero is skipped, and so are the places below it
    refine congrArg (List.finRange 128).flatMap (funext fun i => ?_)
    rw [block_of_index d _ (f := nonzero) nonzero_zeros, map_append, filter_append, nonzero_map]
    rfl
  unfold blockList blockSlots
  rw [block_of_index d _ (f := nonzero) nonzero_zeros, block_of_index d _
    (f := fun a => (nonzero a).flatMap fun p => nonzero (words (d p)) ++ [p])
    (by rw [nonzero_zeros]; rfl), hleaf]
  simp only [map_append, filter_append, nonzero_map]
  rfl

theorem InodeOk.nodup_blockList (h : InodeOk o st x n) : (blockList st.disk n).Nodup := by
  rw [blockList_eq _ x, filter_map]
  refine List.Nodup.map_on ?_ (nodup_blockSlots.filter _)
  intro a ha b hb e
  obtain ⟨ha, hza⟩ := mem_filter.mp ha
  obtain ⟨hb, hzb⟩ := mem_filter.mp hb
  have hsa : a ≠ .self := fun e => self_not_mem_blockSlots (e ▸ ha)
  have hsb : b ≠ .self := fun e => self_not_mem_blockSlots (e ▸ hb)
  exact h.slot_inj hsa hsb (of_decide_eq_true hza) e

theorem mem_blockList_iff {d : Disk} (x : Sector) :
    y ∈ blockList d n ↔ y ≠ 0 ∧ ∃ a, a ≠ .self ∧ ptr d x n a = y := by
  refine ⟨mem_blockList, ?_⟩
  rintro ⟨hy, a, ha, rfl⟩
  rw [blockList_eq d x]
  exact mem_filter.mpr ⟨mem_map_of_mem (mem_blockSlots ha), decide_eq_true hy⟩

/-- Releasing distinct sectors in use does not panic. -/
theorem releaseAll_isSome : ∀ {L : List Sector} {st : Store}, L.Nodup →
    (∀ y ∈ L, y < st.size ∧ st.used y) → ∃ st', releaseAll st L = some st' := by
  intro L
  induction L with
  | nil => exact fun _ _ => ⟨_, rfl⟩
  | cons y ys ih =>
    intro st hL hu
    obtain ⟨hy, hys⟩ := nodup_cons.mp hL
    unfold releaseAll freeMapRelease
    rw [if_pos (hu y mem_cons_self)]
    refine ih hys fun z hz => ?_
    have hzy : z ≠ y := by
      rintro rfl
      exact hy hz
    obtain ⟨h1, h2⟩ := hu z (mem_cons_of_mem y hz)
    exact ⟨h1, (congrArg (· = true) (Function.update_of_ne hzy ..)).mpr h2⟩

/-- **CLOSE GIVES BACK**: closing an open inode does not panic. The close that
    ends the inode gives back its sector and all its blocks, any other none. -/
theorem Sound.close_used (h : Sound o s) (hm : s.opens x = some m) :
    ∃ s', MavInode.inodeClose s x = some s' ∧ s'.store.disk = s.store.disk ∧
      s'.store.size = s.store.size ∧
      ∀ y, s'.store.used y ↔ s.store.used y ∧
        ¬ (m.lastClose ∧ y ≠ 0 ∧ ∃ a, ptr s.store.disk x m.data a = y) := by
  have H := h.mem x m hm
  obtain ⟨hu, ho⟩ := h.self x H.live
  rw [inodeClose_eq hm]
  split
  · next hlast =>
      have hx0 : x ≠ 0 := (Nat.zero_lt_two.trans_le (H.removed hlast.2.1)).ne'
      have hL : (x :: blockList s.store.disk m.data).Nodup := by
        refine nodup_cons.mpr ⟨fun hx => ?_, H.inode.nodup_blockList⟩
        obtain ⟨hnz, a, ha, hxa⟩ := mem_blockList (x := x) hx
        have hoa := (H.inode.place ha (hxa.symm ▸ hnz)).2
        rw [hxa, ho] at hoa
        exact ha (pair_inj hoa).2.symm
      have hused : ∀ y ∈ x :: blockList s.store.disk m.data, y < s.store.size ∧ s.store.used y := by
        intro y hy
        rcases mem_cons.mp hy with rfl | hy
        · exact ⟨h.map.range _ hu, hu⟩
        · obtain ⟨hnz, a, ha, rfl⟩ := mem_blockList (x := x) hy
          have hua := (H.inode.place ha hnz).1
          exact ⟨h.map.range _ hua, hua⟩
      obtain ⟨st', hst'⟩ := releaseAll_isSome hL hused
      obtain ⟨hd, hsize, hrel⟩ := releaseAll_some hst'
      rw [hst']
      refine ⟨_, rfl, hd, hsize, fun y => (hrel y).trans (and_congr_right fun hy => not_congr ?_)⟩
      rw [mem_cons, mem_blockList_iff x]
      constructor
      · rintro (rfl | ⟨hnz, a, -, ha⟩)
        · exact ⟨hlast, hx0, .self, rfl⟩
        · exact ⟨hlast, hnz, a, ha⟩
      · rintro ⟨-, hnz, a, ha⟩
        by_cases hself : a = .self
        · subst hself
          exact Or.inl ha.symm
        · exact Or.inr ⟨hnz, a, hself, ha⟩
  · next hno =>
      refine ⟨_, rfl, ?_⟩
      split <;> exact ⟨rfl, rfl, fun y => ⟨fun hy => ⟨hy, fun hc => hno hc.1⟩, fun hy => hy.1⟩⟩

/-- What a close does to the inodes in memory. -/
theorem inodeClose_opens (hm : s.opens x = some m) (hr : inodeClose s x = some s') :
    s'.opens = if m.openCnt - 1 = 0 then (s.dropMem x).opens
      else (s.setMem x { m with openCnt := m.openCnt - 1 }).opens := by
  rw [inodeClose_eq hm] at hr
  split at hr
  · next hlast =>
      obtain ⟨st', -, rfl⟩ := Option.map_eq_some_iff.mp hr
      rw [if_pos hlast.1]
  · rw [← Option.some.inj hr]
    split <;> rfl

end Reclaim

end MavInode
