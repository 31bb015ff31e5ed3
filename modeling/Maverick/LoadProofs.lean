import Maverick.EvictProofs

/-! # Failed page loads

`spt_load_page` can fail after it took a frame. The frame goes back, and the entry is left as it
was; whether it still says where the contents are depends on where they came from, because `swap_in`
frees the slot it reads. -/

namespace MavVm

open Function (update_self)

variable {s t : Vm} {p u k : Nat} {e : Entry}

/-- The contents an entry describes, if it describes any. -/
def contents (s : Vm) (e : Entry) : Option Page :=
  match e.status with
  | .zero => some zeros
  | .file => e.file.bind fun h =>
    if s.isOpen h ∧ (e.fileOffset + e.readBytes ≤ s.length (s.inodeOf h) ∨ e.readBytes = 0) then
      some (filePage s (s.inodeOf h) e.fileOffset e.readBytes)
    else none
  | .swap => if s.swapUsed e.swapSlot then some (s.swapData e.swapSlot) else none
  | .frame | .cow => none

theorem contents_congr (h : t.source = s.source) (e : Entry) : contents t e = contents s e := by
  simp only [Vm.source, Prod.mk.injEq] at h
  obtain ⟨-, hused, hdata, hbytes, hlength, hopen, hinode⟩ := h
  unfold contents filePage
  rw [hused, hdata, hbytes, hlength, hopen, hinode]

/-! ## The calls of a load -/

theorem setMem_mem (s : Vm) (k : Nat) (page : Page) : (setMem s k page).mem k = page :=
  update_self ..

/-- What is read is what the entry describes, and only a slot is used up. -/
theorem fillFrame_spec {b : Bool} (h : fillFrame s e k = .ok (b, t)) : t.frames = s.frames ∧
    (b = true → contents s e = some (t.mem k)) ∧ (e.status ≠ .swap → t.source = s.source) ∧
    (e.status = .swap → t.spt = s.spt ∧ b = true ∧ t.swapUsed e.swapSlot = false) := by
  unfold fillFrame at h
  unfold contents
  cases hst : e.status with
  | zero =>
    rw [hst] at h
    obtain ⟨rfl, rfl⟩ := ok_inj h
    exact ⟨rfl, fun _ => congrArg some (setMem_mem ..).symm, fun _ => rfl, by simp⟩
  | file =>
    simp only [hst] at h
    cases hf : e.file with
    | none =>
      rw [hf] at h
      obtain ⟨rfl, rfl⟩ := ok_inj h
      exact ⟨rfl, by simp, fun _ => rfl, by simp⟩
    | some f =>
      simp only [hf] at h
      split at h
      · cases h
      rename_i hopen
      split at h
      · rename_i hin
        obtain ⟨rfl, rfl⟩ := ok_inj h
        refine ⟨rfl, fun _ => ?_, fun _ => rfl, by simp⟩
        rw [Option.bind_some, if_pos ⟨by simpa using hopen, hin⟩, setMem_mem]
      · obtain ⟨rfl, rfl⟩ := ok_inj h
        exact ⟨rfl, by simp, fun _ => rfl, by simp⟩
  | swap =>
    simp only [hst] at h
    obtain ⟨s1, hin, h⟩ := of_bind_ok h
    obtain ⟨rfl, rfl⟩ := ok_inj h
    unfold swapIn at hin
    split at hin
    · rename_i hused
      obtain rfl := Except.ok.inj hin
      refine ⟨rfl, fun _ => ?_, fun hne => absurd rfl hne, fun _ => ⟨rfl, rfl, update_self ..⟩⟩
      rw [if_pos hused]
      exact congrArg some (setMem_mem ..).symm
    · cases hin
  | frame | cow =>
    simp only [hst] at h
    obtain ⟨rfl, rfl⟩ := ok_inj h
    exact ⟨rfl, by simp, fun _ => rfl, by simp⟩

theorem frameFree_source (s : Vm) (k : Nat) : (frameFree s k).source = s.source := by
  unfold frameFree
  repeat' split
  all_goals rfl

theorem frameEvict_none (h : frameEvict s = .ok (none, t)) :
    t.source = s.source ∧ t.frames = s.frames := by
  unfold frameEvict at h
  split at h
  · obtain ⟨-, rfl⟩ := ok_inj h
    exact ⟨rfl, rfl⟩
  · have hs := (evictLoop_spec _ _ _ _ _ h).1
    exact ⟨hs.source, hs.frames⟩

/-! ## Loading -/

/-- Without a frame nothing changes; a frame that is found is in the table. -/
theorem frameAlloc_spec {r : Option Nat} (h : frameAlloc s p u = .ok (r, t)) :
    (r = none → t.source = s.source ∧ t.frames = s.frames) ∧
      ∀ k, r = some k → k ∈ t.order ∧ (t.frame k).refCount = 1 := by
  have hmsrc := (malloc_same s).source
  have hmfr := (malloc_same s).frames
  have henter : ∀ {s' : Vm} {k : Nat}, (.ok (some k, enterFrame s' p u k) : Except Stop _) =
      .ok (r, t) → (r = none → t.source = s.source ∧ t.frames = s.frames) ∧
        ∀ k, r = some k → k ∈ t.order ∧ (t.frame k).refCount = 1 := by
    intro s' k h
    obtain ⟨rfl, rfl⟩ := ok_inj h
    refine ⟨nofun, ?_⟩
    intro x hx
    obtain rfl := Option.some.inj hx
    exact ⟨List.mem_append_right _ (List.mem_singleton.mpr rfl), by simp [enterFrame]⟩
  unfold frameAlloc at h
  rcases hm : malloc s with ⟨ok, s1⟩
  rw [hm] at h hmsrc hmfr
  cases ok with
  | false =>
    obtain ⟨rfl, rfl⟩ := ok_inj h
    exact ⟨fun _ => ⟨hmsrc, hmfr⟩, nofun⟩
  | true =>
    cases hfree : freePage s1 with
    | some k =>
      simp only [hfree] at h
      exact henter h
    | none =>
      simp only [hfree] at h
      obtain ⟨⟨found, s2⟩, hev, h⟩ := of_bind_ok h
      cases found with
      | none =>
        obtain ⟨rfl, rfl⟩ := ok_inj h
        obtain ⟨hsrc, hfr⟩ := frameEvict_none hev
        exact ⟨fun _ => ⟨hsrc.trans hmsrc, hfr.trans hmfr⟩, nofun⟩
      | some k => exact henter h

/-- What a load into frame `k` does, seen from the state `s1` in which the frame
    was allocated. If it fails, the frame goes back, the entry stays, and with
    it the contents it describes unless they were in swap. -/
def Loaded (s1 : Vm) (p u k : Nat) (t : Vm) : Option Nat → Prop
  | some k' => k' = k ∧ ∃ e, s1.spt p u = some e ∧ contents s1 e = some (t.mem k)
  | none => t.order = s1.order.erase k ∧ t.pool = Function.update s1.pool k false ∧
      t.spt = s1.spt ∧
      ∃ e, s1.spt p u = some e ∧ (contents t e = contents s1 e ↔ e.status ≠ .swap)

theorem loaded_none {s1 s2 s3 : Vm} {filled : Bool} (hmem : k ∈ s1.order)
    (hone : (s1.frame k).refCount = 1) (he : s1.spt p u = some e)
    (hfill : fillFrame s1 e k = .ok (filled, s2)) (hs : Same s2 s3) :
    Loaded s1 p u k (frameFree s3 k) none := by
  obtain ⟨hfr, hread, hkeep, hswap⟩ := fillFrame_spec hfill
  have hsrc : (frameFree s3 k).source = s2.source := (frameFree_source s3 k).trans hs.source
  have hfr3 : s3.frames = s1.frames := hs.frames.trans hfr
  simp only [Vm.frames, Prod.mk.injEq] at hfr3
  obtain ⟨horder, hframe, hpool, -⟩ := hfr3
  rw [← horder] at hmem
  rw [← hframe] at hone
  have hfree : (frameFree s3 k).order = s3.order.erase k ∧
      (frameFree s3 k).pool = Function.update s3.pool k false := by
    rw [frameFree, if_pos hmem, if_neg (by omega)]
    exact ⟨rfl, rfl⟩
  rw [horder, hpool] at hfree
  by_cases hst : e.status = .swap
  · obtain ⟨hspt, hfilled, hused⟩ := hswap hst
    refine ⟨hfree.1, hfree.2, (Prod.mk.inj hsrc).1.trans hspt, e, he, fun heq => ?_,
      fun hne => absurd hst hne⟩
    rw [contents_congr hsrc, hread hfilled, contents, hst] at heq
    simp only [hused] at heq
    cases heq
  · have hsame := hsrc.trans (hkeep hst)
    exact ⟨hfree.1, hfree.2, (Prod.mk.inj hsame).1, e, he, fun _ => hst,
      fun _ => contents_congr hsame e⟩

/-- **FAILED LOADS.**  Without a frame a load changes nothing, and with one it
    keeps everything exactly when the page was not in swap. -/
theorem failed_load_keeps_iff (s : Vm) (p u : Nat) (r : Option Nat) (t : Vm)
    (h : sptLoadPage s p u = .ok (r, t)) : ∃ found s1, frameAlloc s p u = .ok (found, s1) ∧
      (found = none → r = none ∧ t.frames = s.frames ∧ t.spt = s.spt ∧
        ∀ e, contents t e = contents s e) ∧
      ∀ k, found = some k → Loaded s1 p u k t r := by
  obtain ⟨⟨found, s1⟩, halloc, h⟩ := of_bind_ok h
  obtain ⟨hnone, hfound⟩ := frameAlloc_spec halloc
  refine ⟨found, s1, halloc, ?_, ?_⟩
  · rintro rfl
    obtain ⟨rfl, rfl⟩ := ok_inj h
    obtain ⟨hsrc, hfr⟩ := hnone rfl
    exact ⟨rfl, hfr, (Prod.mk.inj hsrc).1, contents_congr hsrc⟩
  rintro k rfl
  obtain ⟨hmem, hone⟩ := hfound k rfl
  simp only at h
  cases he : s1.spt p u with
  | none => rw [he] at h; exact nomatch h
  | some e =>
    simp only [he] at h
    obtain ⟨⟨filled, s2⟩, hfill, h⟩ := of_bind_ok h
    cases filled with
    | false =>
      obtain ⟨rfl, rfl⟩ := ok_inj h
      exact loaded_none hmem hone he hfill (same_of rfl)
    | true =>
      obtain ⟨⟨installed, s3⟩, hset, h⟩ := of_bind_ok h
      have hs := pagedirSetPage_same hset
      cases installed with
      | false =>
        obtain ⟨rfl, rfl⟩ := ok_inj h
        exact loaded_none hmem hone he hfill hs
      | true =>
        obtain ⟨rfl, rfl⟩ := ok_inj h
        refine ⟨rfl, e, he, ((fillFrame_spec hfill).2.1 rfl).trans ?_⟩
        rw [← (Prod.mk.inj hs.rest).1]
        split <;> rfl

/-- Page 0 of process 0, with a frame free for it but no page for its table. -/
def withoutTable (e : Entry) : Vm :=
  { boot ⟨id, fun l => .refl l⟩ 8 8 (fun _ _ => 0) (fun _ => 1) fun _ => 1 with
    spt := set2 (fun _ _ => none) 0 0 (some e)
    swapUsed := fun slot => slot = 3
    tablePages := [false] }

theorem failed_load_zero_page : ∃ t s1,
    sptLoadPage (withoutTable (zeroEntry true false)) 0 0 = .ok (none, t) ∧
      Loaded s1 0 0 0 t none := by
  obtain ⟨_, s1, halloc, -, hl⟩ :=
    failed_load_keeps_iff (withoutTable (zeroEntry true false)) 0 0 none _ rfl
  exact ⟨_, s1, rfl, hl 0 (ok_inj halloc).1.symm⟩

/-- The page in swap slot 3 fails to load: its entry still names the slot, which
    is free, and the next load stops at the assertion of `swap_in`. -/
theorem failed_load_loses_page :
    ∃ t e, sptLoadPage (withoutTable ⟨.swap, true, none, 0, 0, false, true, none, 3⟩) 0 0 =
        .ok (none, t) ∧ t.spt 0 0 = some e ∧
      contents (withoutTable e) e = some zeros ∧ contents t e = none ∧
      sptLoadPage t 0 0 = .error ⟨.swapAssert, true⟩ :=
  ⟨_, _, rfl, rfl, rfl, rfl, rfl⟩

end MavVm
