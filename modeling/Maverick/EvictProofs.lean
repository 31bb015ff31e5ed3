import Maverick.VmProofs

/-! # Eviction

The clock of `frame_evict` goes round the frame table. A frame it leaves behind is pinned, shared,
recently accessed, or could not be saved; nothing else changes while it searches. It stops after
two laps, and also when a frame that could not be saved was the last one before the start: frames
that got their second chance in the first lap are then missed. -/

namespace MavVm

open List
open Function (update_self)

variable {s s' t : Vm} {p u k : Nat}

theorem ok_inj {α β : Type} {a a' : α} {b b' : β}
    (h : (.ok (a, b) : Except Stop (α × β)) = .ok (a', b')) : a = a' ∧ b = b' :=
  Prod.mk.inj (Except.ok.inj h)

theorem of_bind_ok {α β : Type} {x : Except Stop α} {f : α → Except Stop β} {b : β}
    (h : x.bind f = .ok b) : ∃ a, x = .ok a ∧ f a = .ok b := by
  cases x with
  | error _ => exact nomatch h
  | ok a => exact ⟨a, rfl, h⟩

/-! ## What a search leaves alone -/

/-- What the contents of pages are made of. -/
def Vm.source (s : Vm) :=
  (s.spt, s.swapUsed, s.swapData, s.data, s.length, s.isOpen, s.inodeOf)

/-- The frame table, the pool, and what else an eviction looks at. -/
def Vm.frames (s : Vm) := (s.order, s.frame, s.pool, s.alive, s.deny, s.room, s.swapSize)

/-- Nothing but page tables and bits has changed, and bits were only cleared. -/
structure Same (s t : Vm) : Prop where
  source : t.source = s.source
  frames : t.frames = s.frames
  rest : (t.mem, t.hand) = (s.mem, s.hand)
  dirty : ∀ q v, t.dirty q v = true → s.dirty q v = true
  accessed : ∀ q v, t.accessed q v = true → s.accessed q v = true

theorem same_of (h : (t.source, t.frames, t.mem, t.hand, t.dirty, t.accessed) =
    (s.source, s.frames, s.mem, s.hand, s.dirty, s.accessed)) : Same s t := by
  simp only [Prod.mk.injEq] at h
  obtain ⟨hsrc, hfr, hmem, hhand, hdirty, hacc⟩ := h
  exact ⟨hsrc, hfr, by rw [hmem, hhand], fun _ _ => hdirty ▸ id, fun _ _ => hacc ▸ id⟩

theorem Same.trans (h : Same s s') (h' : Same s' t) : Same s t :=
  ⟨h'.source.trans h.source, h'.frames.trans h.frames, h'.rest.trans h.rest,
    fun q v hv => h.dirty q v (h'.dirty q v hv), fun q v hv => h.accessed q v (h'.accessed q v hv)⟩

theorem Same.spt (h : Same s t) : t.spt = s.spt := congrArg Prod.fst h.source

theorem of_set2_false {f : Nat → Nat → Bool} {q v : Nat} (h : set2 f p u false q v = true) :
    f q v = true := by
  unfold set2 at h
  split at h
  · exact nomatch h
  · exact h

theorem malloc_same (s : Vm) : Same s (malloc s).2 := by
  unfold malloc
  split <;> exact same_of rfl

theorem lookupPage_same (s : Vm) (p u : Nat) : Same s (lookupPage s p u).2 := by
  have htp : Same s (tablePage s).2 := by
    unfold tablePage
    split <;> exact same_of rfl
  unfold lookupPage
  split
  · exact same_of rfl
  · rcases ht : tablePage s with ⟨ok, s1⟩
    rw [ht] at htp
    cases ok <;> exact htp.trans (same_of rfl)

theorem pagedirSetPage_same {w b : Bool} (h : pagedirSetPage s p u k w = .ok (b, t)) :
    Same s t := by
  have hl := lookupPage_same s p u
  unfold pagedirSetPage at h
  rcases hp : lookupPage s p u with ⟨ok, s1⟩
  rw [hp] at h hl
  cases ok with
  | false => exact (ok_inj h).2 ▸ hl
  | true =>
    simp only at h
    split at h
    · exact nomatch h
    · refine (ok_inj h).2 ▸ hl.trans ⟨rfl, rfl, rfl, ?_, ?_⟩ <;>
      exact fun q v => of_set2_false

/-! ## Saving a frame -/

/-- A swap slot is free. -/
def SwapRoom (s : Vm) : Prop := ∃ slot, slot < s.swapSize ∧ s.swapUsed slot = false

/-- The contents of a frame do not need swap: the page is clean and read-only,
    or it is mapped from a file that takes the write. -/
def Spared (s : Vm) (k : Nat) : Prop :=
  match s.spt (s.frame k).owner (s.frame k).upage with
  | none => s.dirty (s.frame k).owner (s.frame k).upage = false
  | some e =>
    (s.dirty (s.frame k).owner (s.frame k).upage || e.pinnedDirty || e.writable) = false ∨
    (e.writable && e.isMmap) = true ∧
      ∃ f, e.file = some f ∧ (s.takes (s.inodeOf f) (e.fileOffset + e.readBytes) ∨ e.readBytes = 0)

theorem Same.swapRoom (h : Same s t) : SwapRoom t ↔ SwapRoom s := by
  have hsrc := h.source
  have hfr := h.frames
  simp only [Vm.source, Vm.frames, Prod.mk.injEq] at hsrc hfr
  unfold SwapRoom
  rw [hsrc.2.1, hfr.2.2.2.2.2.2]

theorem Same.spared (h : Same s t) (hs : Spared s k) : Spared t k := by
  have hsrc := h.source
  have hfr := h.frames
  simp only [Vm.source, Vm.frames, Prod.mk.injEq] at hsrc hfr
  have hclean : ∀ q v, s.dirty q v = false → t.dirty q v = false := by
    intro q v hd
    exact Bool.eq_false_iff.mpr fun ht => nomatch hd.symm.trans (h.dirty q v ht)
  unfold Spared Vm.takes at *
  rw [hsrc.1, hsrc.2.2.2.2.1, hsrc.2.2.2.2.2.2, hfr.2.1, hfr.2.2.2.2.1, hfr.2.2.2.2.2.1]
  split at hs
  · exact hclean _ _ hs
  · refine hs.imp_left fun hs => ?_
    simp only [Bool.or_eq_false_iff] at hs ⊢
    exact ⟨⟨hclean _ _ hs.1.1, hs.1.2⟩, hs.2⟩

/-- The page table entry of a victim is written again, with its bits clear. -/
def restore (s : Vm) (k : Nat) : Except Stop (Bool × Vm) :=
  let p := (s.frame k).owner
  let u := (s.frame k).upage
  pagedirSetPage { pagedirClearPage s p u with shortage := true } p u k
    (((s.spt p u).map (·.writable)).getD true)

theorem evictToSwap_spec {b : Bool}
    (h : evictToSwap (pagedirClearPage s (s.frame k).owner (s.frame k).upage) k = .ok (b, t)) :
    t.frames = s.frames ∧ (b = true → SwapRoom s) ∧
      (b = false → ¬SwapRoom s ∧ ∃ w, restore s k = .ok (w, t)) := by
  cases hfind : (range s.swapSize).find? (fun slot => !s.swapUsed slot) with
  | none =>
    simp only [evictToSwap, swapOut, pagedirClearPage, hfind] at h
    obtain ⟨⟨w, s1⟩, hset, h⟩ := of_bind_ok h
    obtain ⟨rfl, rfl⟩ := ok_inj h
    refine ⟨(pagedirSetPage_same hset).frames, nofun, fun _ => ⟨?_, w, hset⟩⟩
    rintro ⟨slot, hlt, hfree⟩
    have hnone := find?_eq_none.mp hfind slot (mem_range.mpr hlt)
    rw [hfree] at hnone
    exact hnone rfl
  | some slot =>
    have hroom : SwapRoom s := by
      refine ⟨slot, mem_range.mp (mem_of_find?_eq_some hfind), ?_⟩
      simpa using find?_some hfind
    simp only [evictToSwap, swapOut, pagedirClearPage, hfind] at h
    split at h <;>
    · obtain ⟨rfl, rfl⟩ := ok_inj h
      exact ⟨rfl, fun _ => hroom, nofun⟩

theorem fileWriteAt_spec {page : Page} {f size offset n : Nat}
    (h : fileWriteAt s f page size offset = .ok (n, t)) : t.frames = s.frames ∧
      (n = size → s.takes (s.inodeOf f) (offset + size) ∨ size = 0) ∧
      (n ≠ size → t = s ∧ ¬(s.takes (s.inodeOf f) (offset + size) ∨ size = 0)) := by
  unfold fileWriteAt at h
  split at h
  · exact nomatch h
  · split at h
    · rename_i htakes
      obtain ⟨rfl, rfl⟩ := ok_inj h
      exact ⟨rfl, fun _ => .inl htakes, fun hne => absurd rfl hne⟩
    · rename_i htakes
      obtain ⟨rfl, rfl⟩ := ok_inj h
      exact ⟨rfl, fun h0 => .inr h0.symm,
        fun hne => ⟨rfl, fun hor => hor.elim htakes fun h0 => hne h0.symm⟩⟩

/-- A victim is saved exactly if there is a place for its contents. -/
theorem evictPage_spec {b : Bool} (h : evictPage s k = .ok (b, t)) :
    t.frames = s.frames ∧ (b = true → SwapRoom s ∨ Spared s k) ∧
      (b = false → ¬SwapRoom s ∧ ¬Spared s k ∧ ∃ w, restore s k = .ok (w, t)) := by
  have hswap : evictToSwap (pagedirClearPage s (s.frame k).owner (s.frame k).upage) k = .ok (b, t) →
      ¬Spared s k → t.frames = s.frames ∧ (b = true → SwapRoom s ∨ Spared s k) ∧
      (b = false → ¬SwapRoom s ∧ ¬Spared s k ∧ ∃ w, restore s k = .ok (w, t)) := by
    intro h hsp
    obtain ⟨hfr, hroom, hfull⟩ := evictToSwap_spec h
    exact ⟨hfr, fun hb => .inl (hroom hb), fun hb => ⟨(hfull hb).1, hsp, (hfull hb).2⟩⟩
  have hclean : ∀ {s' : Vm}, (.ok (true, s') : Except Stop _) = .ok (b, t) → s'.frames = s.frames →
      Spared s k → t.frames = s.frames ∧ (b = true → SwapRoom s ∨ Spared s k) ∧
      (b = false → ¬SwapRoom s ∧ ¬Spared s k ∧ ∃ w, restore s k = .ok (w, t)) := by
    intro s' h hfr hsp
    obtain ⟨rfl, rfl⟩ := ok_inj h
    exact ⟨hfr, fun _ => .inr hsp, nofun⟩
  simp only [evictPage] at h
  split at h
  · rename_i he
    have he : s.spt (s.frame k).owner (s.frame k).upage = none := he
    have hsp : Spared s k ↔ s.dirty (s.frame k).owner (s.frame k).upage = false := by
      simp only [Spared, he]
    split at h
    · rename_i hd
      exact hswap h fun hs => nomatch (hsp.mp hs).symm.trans hd
    · exact hclean h rfl (hsp.mpr (Bool.eq_false_iff.mpr ‹_›))
  rename_i e he
  have he : s.spt (s.frame k).owner (s.frame k).upage = some e := he
  split at h
  · rename_i hd
    have hsp : Spared s k ↔ (e.writable && e.isMmap) = true ∧
        ∃ f, e.file = some f ∧
          (s.takes (s.inodeOf f) (e.fileOffset + e.readBytes) ∨ e.readBytes = 0) := by
      simp only [Spared, he]
      exact or_iff_right fun hclear => nomatch hclear.symm.trans hd
    split at h
    · rename_i f hf
      split at h
      · rename_i hmap
        obtain ⟨⟨n, s1⟩, hw, h⟩ := of_bind_ok h
        obtain ⟨hfr, hok, hkeep⟩ := fileWriteAt_spec hw
        split at h
        · exact hclean h hfr (hsp.mpr ⟨hmap, f, hf, hok ‹_›⟩)
        · obtain ⟨rfl, hno⟩ := hkeep ‹_›
          refine hswap h fun hs => ?_
          obtain ⟨-, f', hf', hyes⟩ := hsp.mp hs
          obtain rfl := Option.some.inj (hf.symm.trans hf')
          exact hno hyes
      · exact hswap h fun hs => absurd (hsp.mp hs).1 ‹_›
    · rename_i hf
      refine hswap h fun hs => ?_
      obtain ⟨-, _, hf', -⟩ := hsp.mp hs
      exact nomatch hf.symm.trans hf'
  · rename_i hd
    refine hclean h rfl ?_
    simp only [Spared, he]
    exact .inl (Bool.eq_false_iff.mpr hd)

/-! ## The clock -/

theorem dropWhile_getElem? (l : List Nat) (i : Nat) : l.Nodup → l[i]? = some k →
    l.dropWhile (fun k' => k' ≠ k) = l.drop i := by
  induction l generalizing i with
  | nil => intro _ h; exact nomatch h
  | cons a l ih =>
    intro hnd h
    obtain ⟨ha, hnd⟩ := nodup_cons.mp hnd
    cases i with
    | zero =>
      obtain rfl := Option.some.inj h
      simp
    | succ i =>
      have hne : a ≠ k := fun heq => ha (heq ▸ mem_of_getElem? h)
      rw [dropWhile_cons_of_pos (by simpa using hne)]
      exact ih i hnd h

theorem clockAdvance_getElem? {l : List Nat} (hnd : l.Nodup) {i : Nat} (h : l[i]? = some k) :
    l[(i + 1) % l.length]? = some (clockAdvance l k) := by
  obtain ⟨hi, rfl⟩ := List.getElem?_eq_some_iff.mp h
  unfold clockAdvance
  rw [dropWhile_getElem? l i hnd h, drop_eq_getElem_cons hi]
  by_cases hlast : i + 1 < l.length
  · rw [drop_eq_getElem_cons hlast, Nat.mod_eq_of_lt hlast]
    exact getElem?_eq_getElem hlast
  · rw [drop_of_length_le (by omega), show i + 1 = l.length by omega, Nat.mod_self]
    cases l with
    | nil => exact nomatch hi
    | cons _ _ => rfl

/-- The clock after `j` steps. -/
def visit (s : Vm) (k j : Nat) : Nat := (clockAdvance s.order)^[j] k

theorem visit_getElem? (hnd : s.order.Nodup) {i : Nat} (h : s.order[i]? = some k) (j : Nat) :
    s.order[(i + j) % s.order.length]? = some (visit s k j) := by
  induction j with
  | zero =>
    rw [Nat.add_zero, Nat.mod_eq_of_lt (List.getElem?_eq_some_iff.mp h).1]
    exact h
  | succ j ih =>
    have hnext := clockAdvance_getElem? hnd ih
    rw [Nat.mod_add_mod] at hnext
    rw [visit, Function.iterate_succ_apply']
    exact hnext

/-- One lap goes past every frame, and so does the next. -/
theorem visit_reaches (hnd : s.order.Nodup) {k' : Nat} (hk : k ∈ s.order) (hk' : k' ∈ s.order) :
    ∃ j < s.order.length, visit s k j = k' ∧ visit s k (s.order.length + j) = k' := by
  obtain ⟨i, hi⟩ := mem_iff_getElem?.mp hk
  obtain ⟨i', hi'⟩ := mem_iff_getElem?.mp hk'
  have hlt := (List.getElem?_eq_some_iff.mp hi).1
  have hlt' := (List.getElem?_eq_some_iff.mp hi').1
  obtain ⟨j, hj, hmod⟩ : ∃ j < s.order.length, (i + j) % s.order.length = i' := by
    by_cases hle : i ≤ i'
    · exact ⟨i' - i, by omega, by rw [show i + (i' - i) = i' by omega, Nat.mod_eq_of_lt hlt']⟩
    · refine ⟨i' + s.order.length - i, by omega, ?_⟩
      rw [show i + (i' + s.order.length - i) = i' + s.order.length by omega, Nat.add_mod_right,
        Nat.mod_eq_of_lt hlt']
  refine ⟨j, hj, Option.some.inj ?_, Option.some.inj ?_⟩
  · rw [← visit_getElem? hnd hi, hmod, hi']
  · rw [← visit_getElem? hnd hi, Nat.add_left_comm, Nat.add_mod_left, hmod, hi']

/-- The clock is back after whole laps only. -/
theorem visit_eq_self_iff (hnd : s.order.Nodup) (hk : k ∈ s.order) (m : Nat) :
    visit s k m = k ↔ s.order.length ∣ m := by
  obtain ⟨i, hi⟩ := mem_iff_getElem?.mp hk
  have hlt := (List.getElem?_eq_some_iff.mp hi).1
  have hm := visit_getElem? hnd hi m
  rw [← Nat.modEq_zero_iff_dvd]
  constructor
  · intro hback
    rw [hback, ← hi] at hm
    have hmod := (getElem?_inj (Nat.mod_lt _ (by omega)) hnd).mp hm
    exact Nat.ModEq.add_left_cancel' i (hmod.trans (Nat.mod_eq_of_lt hlt).symm)
  · intro hmod
    rw [(hmod.add_left i : _ % _ = _ % _), Nat.add_zero, Nat.mod_eq_of_lt hlt, hi] at hm
    exact (Option.some.inj hm).symm

/-! ## The search -/

/-- Neither pinned nor shared. -/
def Candidate (s : Vm) (k : Nat) : Prop := (s.frame k).pinned = false ∧ (s.frame k).refCount ≤ 1
deriving Decidable

/-- What the clock makes of a frame it leaves behind: a page in use loses its accessed bit, and one
    that could not be saved gets its page table entry back. -/
def leave (s : Vm) (k : Nat) : Vm :=
  if Candidate s k then
    if s.accessed (s.frame k).owner (s.frame k).upage then
      { s with accessed := set2 s.accessed (s.frame k).owner (s.frame k).upage false }
    else
      match restore s k with
      | .ok (_, t) => t
      | .error _ => s
  else s

/-- One step of the clock that leaves a frame behind. -/
def tick (c : Vm × Nat) : Vm × Nat := (leave c.1 c.2, clockAdvance c.1.order c.2)

/-- The frame under the clock is left behind: it is pinned or shared, or its owner is there and it
    is in use or cannot be saved. -/
def Passes (c : Vm × Nat) : Prop :=
  Candidate c.1 c.2 → c.1.alive (c.1.frame c.2).owner = true ∧
    (c.1.accessed (c.1.frame c.2).owner (c.1.frame c.2).upage = true ∨
      ¬SwapRoom c.1 ∧ ¬Spared c.1 c.2)

/-- The frame under the clock is not in use and cannot be saved. -/
def Fails (c : Vm × Nat) : Prop :=
  Candidate c.1 c.2 ∧ c.1.accessed (c.1.frame c.2).owner (c.1.frame c.2).upage = false ∧
    ¬SwapRoom c.1 ∧ ¬Spared c.1 c.2

theorem leave_same (s : Vm) (k : Nat) : Same s (leave s k) := by
  unfold leave
  split
  · split
    · exact ⟨rfl, rfl, rfl, fun _ _ => id, fun _ _ => of_set2_false⟩
    · split
      · rename_i t hr
        have hs := pagedirSetPage_same hr
        exact { hs with }
      · exact same_of rfl
  · exact same_of rfl

/-- A candidate that was left behind is not in use. -/
theorem leave_accessed (hc : Candidate s k) :
    (leave s k).accessed (s.frame k).owner (s.frame k).upage = false := by
  by_cases ha : s.accessed (s.frame k).owner (s.frame k).upage = true
  · rw [leave, if_pos hc, if_pos ha]
    exact if_pos ⟨rfl, rfl⟩
  · exact Bool.eq_false_iff.mpr fun h => ha ((leave_same s k).accessed _ _ h)

/-- A lap changes bits only, and the clock goes on by one frame a step. -/
theorem tick_iterate (s : Vm) (k j : Nat) :
    Same s (tick^[j] (s, k)).1 ∧ (tick^[j] (s, k)).2 = visit s k j := by
  induction j with
  | zero => exact ⟨same_of rfl, rfl⟩
  | succ j ih =>
    rw [Function.iterate_succ_apply', visit, Function.iterate_succ_apply', ← visit, ← ih.2]
    refine ⟨ih.1.trans (leave_same ..), ?_⟩
    show clockAdvance (tick^[j] (s, k)).1.order _ = _
    rw [(Prod.mk.inj ih.1.frames).1]

theorem tick_frame (s : Vm) (k j : Nat) :
    (tick^[j] (s, k)).1.frame = s.frame ∧ (tick^[j] (s, k)).1.alive = s.alive := by
  have hfr := (tick_iterate s k j).1.frames
  simp only [Vm.frames, Prod.mk.injEq] at hfr
  exact ⟨hfr.2.1, hfr.2.2.2.1⟩

/-- What `n` steps of the clock come to: a frame that is not left behind, or none when they are
    used up or the last frame before `start` cannot be saved. -/
def Ran (start : Nat) (c : Vm × Nat) (n : Nat) (t : Vm) : Option Nat → Prop
  | some v => ∃ j, (∀ i < j, Passes (tick^[i] c) ∧
        ¬(Fails (tick^[i] c) ∧ (tick^[i + 1] c).2 = start)) ∧
      ¬Passes (tick^[j] c) ∧ v = (tick^[j] c).2 ∧
      t.order = c.1.order.erase v ∧ t.hand = handPast c.1 v
  | none => Same c.1 t ∧ ∃ m ≤ n, (∀ i < m, Passes (tick^[i] c)) ∧
      (m = n ∨ ∃ i, m = i + 1 ∧ Fails (tick^[i] c) ∧ (tick^[m] c).2 = start)

theorem Ran.step {start n : Nat} {r : Option Nat} {c : Vm × Nat} (hp : Passes c)
    (hgo : ¬(Fails c ∧ (tick c).2 = start)) (h : Ran start (tick c) n t r) :
    Ran start c (n + 1) t r := by
  have hs : Same c.1 (tick c).1 := leave_same ..
  cases r with
  | some v =>
    obtain ⟨j, hall, hj, hv, ho, hh⟩ := h
    rw [handPast, (Prod.mk.inj hs.frames).1] at hh
    rw [(Prod.mk.inj hs.frames).1] at ho
    refine ⟨j + 1, fun i hi => ?_, hj, hv, ho, hh⟩
    cases i with
    | zero => exact ⟨hp, hgo⟩
    | succ i => exact hall i (by omega)
  | none =>
    obtain ⟨hsame, m, hm, hall, hend⟩ := h
    refine ⟨hs.trans hsame, m + 1, by omega, fun i hi => ?_, ?_⟩
    · cases i with
      | zero => exact hp
      | succ i => exact hall i (by omega)
    · rcases hend with rfl | ⟨i, rfl, hi⟩
      · exact .inl rfl
      · exact .inr ⟨i + 1, rfl, hi⟩

theorem evictLoop_spec (start : Nat) (n k : Nat) (s : Vm) (r : Option Nat) :
    evictLoop start n k s = .ok (r, t) → Ran start (s, k) n t r := by
  induction n generalizing k s r with
  | zero =>
    intro h
    obtain ⟨rfl, rfl⟩ := ok_inj h
    exact ⟨same_of rfl, 0, Nat.le_refl 0, nofun, .inl rfl⟩
  | succ n ih =>
    intro h
    simp only [evictLoop] at h
    split at h
    · rename_i hskip
      have hno : ¬Candidate s k := by
        unfold Candidate
        simp at hskip
        grind
      refine Ran.step (fun hc => absurd hc hno) (fun hf => hno hf.1.1) ?_
      rw [tick, leave, if_neg hno]
      exact ih _ s r h
    rename_i hcand
    have hc : Candidate s k := by simpa [Candidate] using hcand
    split at h
    · rename_i hdead
      have hdead : ¬s.alive (s.frame k).owner = true := by simpa using hdead
      obtain ⟨rfl, rfl⟩ := ok_inj h
      exact ⟨0, nofun, fun hp => hdead (hp hc).1, rfl, rfl, rfl⟩
    rename_i halive
    have hal : s.alive (s.frame k).owner = true := by simpa using halive
    split at h
    · rename_i hacc
      refine Ran.step (fun _ => ⟨hal, .inl hacc⟩) (fun hf => nomatch hf.1.2.1.symm.trans hacc) ?_
      rw [tick, leave, if_pos hc, if_pos hacc]
      exact ih _ _ r h
    rename_i hacc
    obtain ⟨⟨saved, s1⟩, hev, h⟩ := of_bind_ok h
    obtain ⟨hfr, hsaved, hfail⟩ := evictPage_spec hev
    have horder : s1.order = s.order := (Prod.mk.inj hfr).1
    cases saved with
    | true =>
      obtain ⟨rfl, rfl⟩ := ok_inj h
      refine ⟨0, nofun, fun hp => ?_, rfl, ?_, ?_⟩
      · exact (hp hc).2.elim hacc fun hno => (hsaved rfl).elim hno.1 hno.2
      all_goals simp only [listRemove, handPast, horder]
    | false =>
      obtain ⟨hroom, hsp, w, hr⟩ := hfail rfl
      have hleave : leave s k = s1 := by rw [leave, if_pos hc, if_neg hacc, hr]
      simp only [Bool.false_eq_true, if_false] at h
      split at h
      · rename_i hstart
        rw [horder] at hstart
        obtain ⟨rfl, rfl⟩ := ok_inj h
        refine ⟨hleave ▸ (leave_same s k).trans (same_of rfl), 1, by omega, fun i hi => ?_,
          .inr ⟨0, rfl, ⟨hc, Bool.eq_false_iff.mpr hacc, hroom, hsp⟩, hstart⟩⟩
        obtain rfl : i = 0 := by omega
        exact fun _ => ⟨hal, .inr ⟨hroom, hsp⟩⟩
      · rename_i hstart
        rw [horder] at hstart
        refine Ran.step (fun _ => ⟨hal, .inr ⟨hroom, hsp⟩⟩) (fun hf => hstart hf.2) ?_
        have hrest := ih _ s1 r h
        rw [horder] at hrest
        rw [tick, hleave]
        exact hrest

/-- The contents of the frame are no longer needed, or there is a place for them. -/
def Disposable (s : Vm) (k : Nat) : Prop :=
  s.alive (s.frame k).owner = false ∨ SwapRoom s ∨ Spared s k

/-- The clock of `frame_evict` before its first step. -/
def scan (s : Vm) : Vm × Nat :=
  ({ s with hand := some (s.hand.getD (s.order.headD 0)) }, s.hand.getD (s.order.headD 0))

/-- The first lap leaves every frame behind, and the last of them cannot be saved. -/
def Premature (s : Vm) : Prop :=
  ∃ n, s.order.length = n + 1 ∧ (∀ j ≤ n, Passes (tick^[j] (scan s))) ∧ Fails (tick^[n] (scan s))

/-- A frame that can go is left behind once at most. -/
theorem not_passes_again (hnd : s.order.Nodup) (hk : k ∈ s.order) {v : Nat} (hv : v ∈ s.order)
    (hc : Candidate s v) (hd : Disposable s v) :
    ¬∀ j < 2 * s.order.length, Passes (tick^[j] (s, k)) := by
  intro hall
  obtain ⟨j, hj, hvj, hv'⟩ := visit_reaches hnd hk hv
  -- the accessed bit went when the clock came by first
  have hclear : (tick^[s.order.length + j] (s, k)).1.accessed (s.frame v).owner (s.frame v).upage =
      false := by
    have hsplit : tick^[s.order.length + j] (s, k) =
        tick^[s.order.length - 1] (tick (tick^[j] (s, k))) := by
      rw [← Function.iterate_succ_apply' tick, ← Function.iterate_add_apply,
        show s.order.length - 1 + j.succ = s.order.length + j by omega]
    have hgone := leave_accessed (s := (tick^[j] (s, k)).1) (k := v)
      (by unfold Candidate; rw [(tick_frame ..).1]; exact hc)
    rw [(tick_frame ..).1] at hgone
    rw [hsplit]
    refine Bool.eq_false_iff.mpr fun ha => ?_
    have ha := (tick_iterate _ _ _).1.accessed _ _ ha
    rw [(tick_iterate s k j).2, hvj] at ha
    exact nomatch hgone.symm.trans ha
  have hp := hall (s.order.length + j) (by omega)
  have hs := (tick_iterate s k (s.order.length + j)).1
  unfold Passes Candidate at hp
  rw [(tick_iterate s k _).2, hv', (tick_frame ..).1, (tick_frame ..).2] at hp
  obtain ⟨hal, hacc | ⟨hroom, hsp⟩⟩ := hp hc
  · exact nomatch hclear.symm.trans hacc
  · rcases hd with hgone | hfree | hspared
    · exact nomatch hgone.symm.trans hal
    · exact hroom (hs.swapRoom.mpr hfree)
    · exact hsp (hs.spared hspared)

/-- **EVICTION.**  A victim is neither pinned nor shared, and the hand stays in the table. A frame
    that could have gone is missed exactly if the search ends with the first lap. -/
theorem eviction_complete (s : Vm) (hnodup : s.order.Nodup)
    (hhand : ∀ k, s.hand = some k → k ∈ s.order) (r : Option Nat) (t : Vm)
    (h : frameEvict s = .ok (r, t)) :
    (∀ v, r = some v → v ∈ s.order ∧ Candidate s v) ∧
    (∀ k, t.hand = some k → k ∈ t.order) ∧
    ((∃ k ∈ s.order, Candidate s k ∧ Disposable s k) → (r = none ↔ Premature s)) := by
  unfold frameEvict at h
  split at h
  · rename_i hnil
    obtain ⟨rfl, rfl⟩ := ok_inj h
    refine ⟨nofun, hhand, fun ⟨k, hk, _⟩ => ?_⟩
    rw [hnil] at hk
    exact nomatch hk
  rename_i first rest hcons
  have hscan : scan s = ({ s with hand := some (s.hand.getD first) }, s.hand.getD first) := by
    rw [scan, hcons, headD_cons]
  have hstart : s.hand.getD first ∈ s.order := by
    cases hh : s.hand with
    | none   => rw [hcons]; exact mem_cons_self
    | some k => exact hhand k hh
  have hran := evictLoop_spec _ _ _ _ _ h
  unfold Premature
  rw [hscan]
  generalize s.hand.getD first = start at hstart hran
  have hvisit : ∀ j, (tick^[j] ({ s with hand := some start }, start)).2 = visit s start j :=
    fun j => (tick_iterate { s with hand := some start } start j).2
  cases r with
  | some v =>
    obtain ⟨j, hall, hno, rfl, horder, hh⟩ := hran
    obtain ⟨i, hi⟩ := mem_iff_getElem?.mp hstart
    have hmem : ∀ j, visit s start j ∈ s.order := fun j =>
      mem_of_getElem? (visit_getElem? hnodup hi j)
    rw [hvisit] at horder hh
    refine ⟨fun x hx => ?_, fun k hk => ?_, fun _ => iff_of_false nofun ?_⟩
    · obtain rfl := Option.some.inj hx
      have hc := (Classical.not_imp.mp hno).1
      unfold Candidate at hc ⊢
      rw [(tick_frame ..).1, hvisit] at hc
      rw [hvisit]
      exact ⟨hmem j, hc⟩
    · rw [hh, handPast] at hk
      obtain ⟨hne, hk⟩ := Option.ite_none_left_eq_some.mp hk
      obtain rfl := Option.some.inj hk
      rw [horder]
      have hnext := hmem (j + 1)
      rw [visit, Function.iterate_succ_apply'] at hnext
      exact (mem_erase_of_ne hne).mpr hnext
    · rintro ⟨n, hn, hpass, hfail⟩
      by_cases hj : j ≤ n
      · exact hno (hpass j hj)
      · refine (hall n (by omega)).2 ⟨hfail, ?_⟩
        rw [hvisit, visit_eq_self_iff hnodup hstart, hn]
  | none =>
    obtain ⟨hs, m, hle, hall, hend⟩ := hran
    refine ⟨nofun, fun k hk => ?_, fun ⟨k, hk, hc, hd⟩ => iff_of_true rfl ?_⟩
    · rw [(Prod.mk.inj hs.rest).2] at hk
      rw [(Prod.mk.inj hs.frames).1]
      exact Option.some.inj hk ▸ hstart
    have hshort : m < 2 * s.order.length := by
      refine Nat.lt_of_not_le fun hm => ?_
      exact not_passes_again (s := { s with hand := some start }) hnodup hstart hk hc hd
        fun j hj => hall j (Nat.lt_of_lt_of_le hj hm)
    rcases hend with rfl | ⟨i, rfl, hfail, hback⟩
    · omega
    -- less than two laps and back at the start is one lap
    rw [hvisit, visit_eq_self_iff hnodup hstart] at hback
    obtain ⟨q, hq⟩ := hback
    obtain rfl : q = 1 := by
      rcases q with _ | _ | q
      · omega
      · rfl
      · rw [hq, Nat.mul_comm] at hshort
        have := Nat.lt_of_mul_lt_mul_right hshort
        omega
    exact ⟨i, by omega, fun j hj => hall j (by omega), hfail⟩

/-- Two frames of process 0, a read-only page and a writable one; swap has no slots. -/
def twoFrames (used : Bool) : Vm :=
  { boot ⟨id, fun l => .refl l⟩ 2 0 (fun _ _ => 0) (fun _ => 1) fun _ => 1 with
    order := [0, 1]
    frame := fun k => ⟨k, 0, 1, false⟩
    alive := fun _ => true
    spt := fun _ u => some (zeroEntry (u = 1) false)
    accessed := fun _ u => used && u = 0 }

/-- Unused, the read-only page goes. -/
theorem eviction_takes_clean_page :
    ∃ t, frameEvict (twoFrames false) = .ok (some 0, t) ∧ ∀ k, t.hand = some k → k ∈ t.order :=
  ⟨_, rfl, (eviction_complete (twoFrames false) (by decide) nofun (some 0) _ rfl).2.1⟩

/-- In use, the read-only page gets its second chance and loses it: the other
    frame is the last of the lap and cannot be saved. -/
theorem eviction_misses_clean_page :
    ∃ t, frameEvict (twoFrames true) = .ok (none, t) ∧ 0 ∈ (twoFrames true).order ∧
      Candidate (twoFrames true) 0 ∧ Disposable (twoFrames true) 0 ∧
      ∃ t', frameEvict t = .ok (some 0, t') :=
  ⟨_, rfl, by decide, ⟨rfl, Nat.le_refl 1⟩, .inr (.inr (.inl rfl)), _, rfl⟩

end MavVm
