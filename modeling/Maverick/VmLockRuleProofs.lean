import Maverick.LoadProofs
import Maverick.VmLockProofs

/-! # The locks of the virtual memory — every function against the rules

`may` says which lock the code of `vm/` asks for with which lock in hand, and `Keeps` what an
`spt_lock` protects. Each function is checked against them once (`*_takes`), whatever the data and
whatever the other threads do meanwhile.

One check depends on the data. `spt_clone` looks whether a page is in swap and gives the `spt_lock`
back for such a page, because cloning it allocates a frame and so may evict. `spt_clone_entry`
looks at the page again. Between the two looks the page cannot have gone to swap, since eviction
writes an entry only under its `spt_lock` (`sptCloneEntry_held`). -/

namespace MavVmLock

open MavLock MavLock.Prog List Option
open MavVm (Vm Entry Region Segment PGSIZE PHYS_BASE ok_inj)

/-- A lock and the function that took it. -/
abbrev Grip := Lock × Site

/-- The functions that call the frame table with the `spt_lock` in hand. -/
def walks : Site → Bool
  | .sptClone | .sptDestroy | .mmapCreate | .mmapCreateAnon => true
  | _ => false

/-- Which locks are asked for with which locks in hand. -/
def may : Grip → Grip → Bool
  | (.mmap _, _), (.mmap _, _) => false
  | (.mmap _, _), _ => true
  | (.frame, _), (.spt _, c) => c = .frameEvict
  | (.frame, _), (.swap, _) => true
  | (.spt _, c), (.frame, _) => walks c
  | (.spt _, _), (.swap, _) => true
  | _, _ => false

/-- A page with an entry that is not in swap. -/
def Unswapped (s : Vm) (p u : Nat) : Prop := ∃ e, s.spt p u = some e ∧ e.status ≠ .swap

/-- What an `spt_lock` protects: without it no page of the process goes to swap or away. -/
def Keeps : Lock → Vm → Vm → Prop
  | .spt p, s, s' => ∀ u, Unswapped s p u → Unswapped s' p u
  | _, _, _ => True

/-- No grips but on `mmap_lock`s. -/
def OnlyMaps (H : List Grip) : Prop := ∀ h ∈ H, ∃ p, h.1 = .mmap p

theorem may_ne {h g : Grip} (hm : may h g = true) : h.1 ≠ g.1 := by
  obtain ⟨l, c⟩ := h
  obtain ⟨l', c'⟩ := g
  cases l <;> cases l' <;> simp_all [may]

/-- The rules of `vm/`. -/
def rules : Rules Vm Lock Site Cleanup where
  May h g := may h g = true
  Keeps := Keeps
  Callable _ := OnlyMaps
  may_ne := may_ne
  keeps_refl := by
    intro l s
    cases l with
    | spt p => exact fun _ h => h
    | frame => exact trivial
    | mmap p => exact trivial
    | swap => exact trivial
  keeps_trans := by
    intro l s s' s'' h h'
    cases l with
    | spt p => exact fun u hu => h' u (h u hu)
    | frame => exact trivial
    | mmap p => exact trivial
    | swap => exact trivial

variable {H G : List Grip} {s s' : Vm} {p u k : Nat}

/-! ## Grips -/

/-- The grips from which `frame_lock` may be asked for. -/
def FrameOk (H : List Grip) : Prop := ∀ h ∈ H, ∀ c, may h (.frame, c) = true

/-- The grips from which `swap_lock` may be asked for. -/
def SwapOk (H : List Grip) : Prop := ∀ h ∈ H, ∀ c, may h (.swap, c) = true

theorem onlyMaps_nil : OnlyMaps [] := fun _ h => absurd h not_mem_nil

theorem OnlyMaps.cons (hH : OnlyMaps H) (p : Nat) (c : Site) : OnlyMaps ((.mmap p, c) :: H) := by
  exact forall_mem_cons.mpr ⟨⟨p, rfl⟩, hH⟩

theorem OnlyMaps.frameOk (hH : OnlyMaps H) : FrameOk H := by
  intro ⟨l, c⟩ hh c'
  obtain ⟨p, rfl⟩ := hH _ hh
  rfl

theorem OnlyMaps.swapOk (hH : OnlyMaps H) : SwapOk H := by
  intro ⟨l, c⟩ hh c'
  obtain ⟨p, rfl⟩ := hH _ hh
  rfl

theorem OnlyMaps.spt (hH : OnlyMaps H) (p : Nat) (c : Site) : ∀ h ∈ H, may h (.spt p, c) = true := by
  intro ⟨l, c⟩ hh
  obtain ⟨p, rfl⟩ := hH _ hh
  rfl

variable {c : Site} {q h : Nat} {α : Type} {e : Entry} {a : Unit}

theorem FrameOk.spt (hH : FrameOk H) (hc : walks c = true) : FrameOk ((.spt p, c) :: H) := by
  exact forall_mem_cons.mpr ⟨fun _ => hc, hH⟩

theorem SwapOk.spt (hH : SwapOk H) (p : Nat) (c : Site) : SwapOk ((.spt p, c) :: H) := by
  exact forall_mem_cons.mpr ⟨fun _ => rfl, hH⟩

theorem SwapOk.frame (hH : SwapOk H) (c : Site) : SwapOk ((.frame, c) :: H) := by
  exact forall_mem_cons.mpr ⟨fun _ => rfl, hH⟩

theorem OnlyMaps.sptEvict (hH : OnlyMaps H) (p : Nat) :
    ∀ h ∈ ((.frame, .frameEvict) :: H : List Grip), may h (.spt p, .frameEvict) = true := by
  exact forall_mem_cons.mpr ⟨rfl, hH.spt p _⟩

/-! ## Changes of the data that need no lock -/

/-- Every page that is not in swap stays so. -/
def Steady (s s' : Vm) : Prop := ∀ p u, Unswapped s p u → Unswapped s' p u

theorem Steady.guar (h : Steady s s') : rules.Guar H s s' := by
  intro l _
  cases l with
  | spt p => exact h p
  | frame | mmap p | swap => exact trivial

theorem steady_of_spt (h : s'.spt = s.spt) : Steady s s' := by
  intro p u hu
  unfold Unswapped
  rw [h]
  exact hu

theorem guar_of_spt (h : s'.spt = s.spt) : rules.Guar H s s' := (steady_of_spt h).guar

theorem Steady.trans {s'' : Vm} (h : Steady s s') (h' : Steady s' s'') : Steady s s'' :=
  fun p u hu => h' p u (h p u hu)

/-- A change of one process's table is for the holder of its `spt_lock`. -/
theorem guar_of_other (hp : ∃ c, (.spt p, c) ∈ H) (h : ∀ q, q ≠ p → s'.spt q = s.spt q) :
    rules.Guar H s s' := by
  intro l hl
  cases l with
  | spt q =>
    obtain ⟨c, hc⟩ := hp
    have hq : q ≠ p := fun e => hl _ hc (by rw [e])
    intro u hu
    unfold Unswapped
    rw [h q hq]
    exact hu
  | frame | mmap q | swap => exact trivial

theorem set2_row (f : Nat → Nat → α) (p u : Nat) (x : α) (hq : q ≠ p) :
    MavVm.set2 f p u x q = f q := by
  funext v
  exact if_neg fun h => hq h.1

/-- An entry that is written stays out of swap if it was. -/
theorem steady_setEntry {e' : Entry} (he : s.spt p u = some e)
    (hst : e.status ≠ .swap → e'.status ≠ .swap) : Steady s (MavVm.setEntry s p u e') := by
  rintro q v ⟨x, hx, hxs⟩
  by_cases hqv : q = p ∧ v = u
  · obtain ⟨rfl, rfl⟩ := hqv
    rw [he] at hx
    cases hx
    exact ⟨e', if_pos ⟨rfl, rfl⟩, hst hxs⟩
  · exact ⟨x, (if_neg hqv).trans hx, hxs⟩

theorem status_file_ne : MavVm.Status.file ≠ .swap := by decide

theorem status_frame_ne : MavVm.Status.frame ≠ .swap := by decide

theorem steady_edit {f : Entry → Entry} (hf : ∀ e, e.status ≠ .swap → (f e).status ≠ .swap) (s : Vm) :
    Steady s (edit p u f s) := by
  cases he : s.spt p u with
  | none =>
    rw [show edit p u f s = s by unfold edit; rw [he]]
    exact steady_of_spt rfl
  | some e =>
    rw [show edit p u f s = MavVm.setEntry s p u (f e) by unfold edit; rw [he]]
    exact steady_setEntry he (hf e)

theorem steady_editThrough {f : Entry → Entry} (hf : ∀ e, e.status ≠ .swap → (f e).status ≠ .swap)
    (h : editThrough p u f s = some (a, s')) : Steady s s' := by
  obtain ⟨e, he, hs⟩ := map_eq_some_iff.mp h
  rw [← (Prod.mk.inj hs).2]
  exact steady_setEntry he (hf e)

/-- A new entry does not touch the others. -/
theorem steady_sptInsert (e : Entry) (hnone : s.spt p u = none) :
    Steady s (MavVm.sptInsert s p u e) := by
  rintro q v ⟨x, hx, hxs⟩
  have hqv : ¬ (q = p ∧ v = u) := by
    rintro ⟨rfl, rfl⟩
    rw [hnone] at hx
    exact nomatch hx
  exact ⟨x, (if_neg hqv).trans hx, hxs⟩

theorem toOption_eq_some {ε : Type} {x : Except ε α} {a : α} (h : x.toOption = some a) :
    x = .ok a := by
  cases x with
  | error e => exact nomatch h
  | ok b => rw [some.inj h]

/-- A function that only answers with a new state. -/
theorem toOption_map_eq_some {ε : Type} {x : Except ε Vm}
    (h : x.toOption.map ((), ·) = some (a, s')) : x = .ok s' := by
  obtain ⟨s1, hs, he⟩ := map_eq_some_iff.mp h
  rw [toOption_eq_some hs, (Prod.mk.inj he).2]

section Data

variable {b : Bool}

theorem malloc_spt (s : Vm) : (MavVm.malloc s).2.spt = s.spt := (MavVm.malloc_same s).spt

theorem swapOut_spt (s : Vm) (k : Nat) : (MavVm.swapOut s k).2.spt = s.spt := by
  unfold MavVm.swapOut
  split <;> rfl

theorem swapFree_spt {slot : Nat} (h : MavVm.swapFree s slot = .ok s') : s'.spt = s.spt := by
  unfold MavVm.swapFree at h
  split at h
  · rw [← Except.ok.inj h]; rfl
  · exact nomatch h

theorem swapIn_spt {slot : Nat} (h : MavVm.swapIn s slot k = .ok s') : s'.spt = s.spt := by
  unfold MavVm.swapIn at h
  split at h
  · rw [← Except.ok.inj h]; rfl
  · exact nomatch h

theorem setPinned_spt (s : Vm) (k : Option Nat) (b : Bool) : (setPinned k b s).spt = s.spt := by
  cases k with
  | none => rfl
  | some k =>
    show (MavVm.setPinned s k b).spt = s.spt
    unfold MavVm.setPinned
    split <;> rfl

theorem frameShare_spt (s : Vm) (k : Nat) : (MavVm.frameShare s k).spt = s.spt := by
  unfold MavVm.frameShare
  split <;> rfl

theorem dropReference_spt (s : Vm) (k : Nat) : (dropReference k s).2.spt = s.spt := by
  unfold dropReference
  split
  · split <;> rfl
  · rfl

theorem pagedirSetPage_spt {w : Bool} (h : MavVm.pagedirSetPage s p u k w = .ok (b, s')) :
    s'.spt = s.spt :=
  (MavVm.pagedirSetPage_same h).spt

theorem fileWriteAt_spt {n size offset : Nat} {page : MavVm.Page}
    (hw : MavVm.fileWriteAt s h page size offset = .ok (n, s')) : s'.spt = s.spt := by
  unfold MavVm.fileWriteAt at hw
  split at hw
  · exact nomatch hw
  · split at hw
    · rw [← (ok_inj hw).2]; rfl
    · rw [← (ok_inj hw).2]

theorem fileClose_spt (hc : MavVm.fileClose s h = .ok s') : s'.spt = s.spt := by
  unfold MavVm.fileClose at hc
  split at hc
  · exact nomatch hc
  · rw [← Except.ok.inj hc]

theorem fileOpen_spt (s : Vm) (inode : Nat) : (MavVm.fileOpen s inode).2.spt = s.spt := by
  have hm := malloc_spt s
  unfold MavVm.fileOpen
  generalize MavVm.malloc s = r at hm
  obtain ⟨ok, s1⟩ := r
  cases ok <;> exact hm

theorem fileDenyWrite_spt (hd : MavVm.fileDenyWrite s h = .ok s') : s'.spt = s.spt := by
  unfold MavVm.fileDenyWrite at hd
  split at hd
  · exact nomatch hd
  · split at hd
    · rw [← Except.ok.inj hd]
    · rw [← Except.ok.inj hd]

theorem fillFrame_spt (h : MavVm.fillFrame s e k = .ok (b, s')) : s'.spt = s.spt := by
  obtain ⟨-, -, hkeep, hswap⟩ := MavVm.fillFrame_spec h
  by_cases hst : e.status = .swap
  · exact (hswap hst).1
  · exact (Prod.mk.inj (hkeep hst)).1

theorem examine_spt (s : Vm) (k : Nat) : (examine k s).2.spt = s.spt := by
  unfold examine
  dsimp only
  split
  · rfl
  · split
    · rfl
    · split <;> rfl

theorem scanFrom_spt (s : Vm) : (scanFrom s).2.spt = s.spt := by
  unfold scanFrom
  split <;> rfl

theorem pallocGetPage_spt (s : Vm) : (pallocGetPage s).2.spt = s.spt := by
  unfold pallocGetPage
  split <;> rfl

theorem popRegion_spt (s : Vm) (p : Nat) : (popRegion p s).2.spt = s.spt := by
  unfold popRegion
  split <;> rfl

theorem touch_spt (s : Vm) (p addr : Nat) (w : Bool) : (touch p addr w s).2.spt = s.spt := by
  unfold touch
  split
  · rfl
  · split <;> rfl

theorem pagedirSetWritable_spt (s : Vm) (p u : Nat) (w : Bool) :
    (MavVm.pagedirSetWritable s p u w).spt = s.spt := by
  unfold MavVm.pagedirSetWritable
  split <;> rfl

end Data

/-! ## Swap and the frame table -/

theorem swapOut_takes (hS : SwapOk H) (k : Nat) : Takes rules H (swapOut k) H :=
  .holding (fun h hh => hS h hh _) (takes_atomically fun s => guar_of_spt (swapOut_spt s k))

theorem swapIn_takes (hS : SwapOk H) (slot k : Nat) : Takes rules H (swapIn slot k) H :=
  .holding (fun h hh => hS h hh _) (takes_attempt fun _ _ _ h =>
    guar_of_spt (swapIn_spt (toOption_map_eq_some h)))

theorem swapFree_takes (hS : SwapOk H) (slot : Nat) : Takes rules H (swapFree slot) H :=
  .holding (fun h hh => hS h hh _) (takes_attempt fun _ _ _ h =>
    guar_of_spt (swapFree_spt (toOption_map_eq_some h)))

theorem frameShare_takes (hF : FrameOk H) (k : Option Nat) : Takes rules H (frameShare k) H := by
  cases k with
  | none => exact takes_pure ()
  | some k =>
    exact .holding (fun h hh => hF h hh _) (takes_update fun s => guar_of_spt (frameShare_spt s k))

theorem framePin_takes (hF : FrameOk H) (k : Option Nat) : Takes rules H (framePin k) H :=
  .holding (fun h hh => hF h hh _) (takes_update fun s => guar_of_spt (setPinned_spt s k _))

theorem frameUnpin_takes (hF : FrameOk H) (k : Option Nat) : Takes rules H (frameUnpin k) H :=
  .holding (fun h hh => hF h hh _) (takes_update fun s => guar_of_spt (setPinned_spt s k _))

theorem framePinIfPresent_takes (hF : FrameOk H) (k : Option Nat) :
    Takes rules H (framePinIfPresent k) H := by
  cases k with
  | none => exact takes_pure false
  | some k =>
    exact .holding (fun h hh => hF h hh _)
      (takes_atomically fun s => guar_of_spt (setPinned_spt s (some k) true))

theorem frameFree_takes (hF : FrameOk H) (k : Option Nat) : Takes rules H (frameFree k) H := by
  cases k with
  | none => exact takes_pure ()
  | some k =>
    refine .bindBool (.holding (fun h hh => hF h hh _)
      (takes_atomically fun s => guar_of_spt (dropReference_spt s k))) (takes_pure ()) ?_
    exact takes_update fun s => guar_of_spt rfl

/-! ## Eviction -/

section Evict

variable {found : Bool} (hG : OnlyMaps G)
include hG

/-- The grips under which `frame_evict` handles its victim. -/
def evictGrips (p : Nat) (found : Bool) (G : List Grip) : List Grip :=
  if found then (.spt p, .frameEvict) :: (.frame, .frameEvict) :: G else (.frame, .frameEvict) :: G

omit hG in
theorem swapOk_evictGrips (hS : SwapOk G) : SwapOk (evictGrips p found G) := by
  unfold evictGrips
  split
  · exact (hS.frame _).spt p _
  · exact hS.frame _

omit hG in
/-- The victim's entry is written only under its owner's lock. -/
theorem guar_evict (hsame : found = false → s'.spt = s.spt)
    (hother : ∀ q, q ≠ p → s'.spt q = s.spt q) : rules.Guar (evictGrips p found G) s s' := by
  cases found with
  | false => exact guar_of_spt (hsame rfl)
  | true => exact guar_of_other ⟨_, mem_cons_self ..⟩ hother

omit hG in
theorem unmapVictim_other (s : Vm) (hq : q ≠ p) : (unmapVictim p u found s).2.spt q = s.spt q := by
  unfold unmapVictim
  dsimp only
  split
  · rfl
  · split
    · split <;> rfl
    · exact set2_row s.spt p u _ hq

theorem saveToSwap_takes (k p u : Nat) (found : Bool) :
    Takes rules (evictGrips p found G) (saveToSwap k p u found) (evictGrips p found G) := by
  have hS : SwapOk (evictGrips p found G) := swapOk_evictGrips hG.swapOk
  refine .bind (swapOut_takes hS k) fun slot => ?_
  cases slot with
  | none =>
    exact .bind (takes_attempt fun _ _ _ h =>
      guar_of_spt (pagedirSetPage_spt (toOption_eq_some h))) fun _ => takes_pure false
  | some slot =>
    refine .bind (takes_update fun s => guar_evict ?_ fun q hq => ?_) fun _ => takes_pure true
    · intro hf
      rw [hf]
      rfl
    cases found with
    | false => rfl
    | true =>
      show (edit p u (toSwap slot) s).spt q = s.spt q
      unfold edit
      split
      · rfl
      · exact set2_row s.spt p u _ hq

theorem evictPage_takes (k p u : Nat) (found : Bool) :
    Takes rules (evictGrips p found G) (evictPage k p u found) (evictGrips p found G) := by
  refine .bind (takes_atomically fun s => guar_evict ?_ fun q hq => unmapVictim_other s hq)
    fun fate => ?_
  · intro hf
    rw [hf]
    rfl
  cases fate with
  | dropped => exact takes_pure true
  | toSwap => exact saveToSwap_takes hG k p u found
  | toFile h bytes offset =>
    refine .bind (takes_attempt fun _ _ _ hw =>
      guar_of_spt (fileWriteAt_spt (toOption_eq_some hw))) fun written => ?_
    split
    · exact .bind (takes_update fun s => (steady_edit (fun _ _ => status_file_ne) s).guar)
        fun _ => takes_pure true
    · exact saveToSwap_takes hG k p u found

theorem evictVictim_takes (k p u : Nat) :
    Takes rules ((.frame, .frameEvict) :: G) (evictVictim k p u) ((.frame, .frameEvict) :: G) := by
  refine .bindBool (takes_inspect _) (evictPage_takes hG k p u false) ?_
  exact .holding (hG.sptEvict p) (evictPage_takes hG k p u true)

/-- The loop of `frame_evict` keeps `frame_lock` through all its turns. -/
theorem evictLoop_takes (start : Nat) :
    ∀ n k, Takes rules ((.frame, .frameEvict) :: G) (evictLoop start n k)
      ((.frame, .frameEvict) :: G) := by
  intro n
  induction n with
  | zero => exact fun k => takes_pure none
  | succ n ih =>
    intro k
    refine .bind (takes_atomically fun s => guar_of_spt (examine_spt s k)) fun look => ?_
    cases look with
    | skip next => exact ih next
    | reclaim => exact takes_pure (some k)
    | victim p u =>
      refine .bind (evictVictim_takes hG k p u) fun saved => ?_
      cases saved with
      | true =>
        exact .bind (takes_update fun s => guar_of_spt rfl) fun _ => takes_pure (some k)
      | false =>
        refine .bind (takes_inspect _) fun next => ?_
        split
        · exact takes_pure none
        · exact ih next

theorem frameEvict_takes : Takes rules G frameEvict G := by
  refine .holding (fun h hh => hG.frameOk h hh _)
    (.bindOption (takes_atomically fun s => guar_of_spt (scanFrom_spt s)) (takes_pure none)
    fun r => ?_)
  exact evictLoop_takes hG r.1 (2 * r.2) r.1

omit hG in
theorem enterFrame_takes (hF : FrameOk G) (p u k : Nat) : Takes rules G (enterFrame p u k) G :=
  .bind (takes_update fun _ => guar_of_spt rfl) fun _ =>
    .bind (.holding (fun h hh => hF h hh _) (takes_update fun _ => guar_of_spt rfl))
      fun _ => takes_pure (some k)

theorem frameAlloc_takes (p u : Nat) : Takes rules G (frameAlloc p u) G := by
  refine .bindBool (takes_atomically fun s => guar_of_spt (malloc_spt s)) (takes_pure none) ?_
  refine .bind (takes_atomically fun s => guar_of_spt (pallocGetPage_spt s)) fun free => ?_
  cases free with
  | some k => exact enterFrame_takes hG.frameOk p u k
  | none =>
    refine .bindOption (frameEvict_takes hG) (takes_pure none) fun k => ?_
    exact enterFrame_takes hG.frameOk p u k

end Evict

/-! ## Page faults -/

theorem takes_malloc : Takes rules H (atomically MavVm.malloc) H :=
  takes_atomically fun s => guar_of_spt (malloc_spt s)

theorem takes_setPage (p u k : Nat) (w : Bool) :
    Takes rules H (attempt fun s => (MavVm.pagedirSetPage s p u k w).toOption) H :=
  takes_attempt fun _ _ _ h => guar_of_spt (pagedirSetPage_spt (toOption_eq_some h))

theorem fillFrame_takes (hS : SwapOk H) (e : Entry) (k : Nat) : Takes rules H (fillFrame e k) H := by
  have hread : Takes rules H (attempt fun s => (MavVm.fillFrame s e k).toOption) H :=
    takes_attempt fun _ _ _ h => guar_of_spt (fillFrame_spt (toOption_eq_some h))
  unfold fillFrame
  cases e.status with
  | swap => exact .bind (swapIn_takes hS e.swapSlot k) fun _ => takes_pure true
  | zero | file | frame | cow => exact hread

theorem steady_finishLoad (h : finishLoad p u k s = some (a, s')) : Steady s s' := by
  obtain ⟨e, he, hs⟩ := map_eq_some_iff.mp h
  rw [← (Prod.mk.inj hs).2]
  split
  · exact (steady_of_spt rfl).trans (steady_setEntry he fun _ => status_frame_ne)
  · exact steady_setEntry he fun _ => status_frame_ne

/-- A failed load gives its frame back. -/
theorem takes_giveUp (hF : FrameOk H) (k : Option Nat) :
    Takes rules H (do frameFree k; return false : Code Bool) H :=
  .bind (frameFree_takes hF k) fun _ => takes_pure false

section Fault

variable (hG : OnlyMaps G)
include hG

theorem sptLoadPage_takes (p u : Nat) : Takes rules G (sptLoadPage p u) G := by
  refine .bindOption (frameAlloc_takes hG p u) (takes_pure false) fun k => ?_
  refine .bindOption (takes_inspect _) takes_halt fun e => ?_
  refine .bindBool (fillFrame_takes hG.swapOk e k) (takes_giveUp hG.frameOk (some k)) ?_
  refine .bindBool (takes_setPage p u k e.writable) (takes_giveUp hG.frameOk (some k)) ?_
  exact .bind (takes_attempt fun _ _ _ h => (steady_finishLoad h).guar) fun _ => takes_pure true

theorem loadFault_takes (p u : Nat) : Takes rules G (loadFault p u) G := by
  refine .bindBool (sptLoadPage_takes hG p u) (takes_pure false) ?_
  exact .bind (takes_inspect _) fun k =>
    .bind (frameUnpin_takes hG.frameOk k) fun _ => takes_pure true

theorem copyFault_takes (p u old : Nat) : Takes rules G (copyFault p u old) G := by
  have hF := hG.frameOk
  refine .bindOption (frameAlloc_takes hG p u)
    (.bind (frameUnpin_takes hF (some old)) fun _ => takes_pure false) fun k => ?_
  refine .bind (takes_update fun _ => guar_of_spt rfl) fun _ =>
    .bind (frameUnpin_takes hF (some old)) fun _ =>
    .bind (takes_update fun _ => guar_of_spt rfl) fun _ =>
    .bindBool (takes_setPage p u k true) (takes_giveUp hF (some k)) ?_
  exact .bind (.holding (hG.spt p _) (takes_attempt fun _ _ _ h =>
      (steady_editThrough (fun _ _ => status_frame_ne) h).guar)) fun _ =>
    .bind (frameFree_takes hF (some old)) fun _ =>
    .bind (frameUnpin_takes hF (some k)) fun _ => takes_pure true

omit hG in
theorem steady_lookUp (s : Vm) (p addr : Nat) (write notPresent : Bool) (esp : Nat) :
    Steady s (lookUp p addr write notPresent esp s).2 := by
  unfold lookUp
  dsimp only
  split
  · split
    · exact steady_of_spt rfl
    · split <;> exact steady_of_spt rfl
  rename_i hnone
  split
  · have hm := malloc_spt s
    generalize MavVm.malloc s = r at hm
    obtain ⟨ok, s1⟩ := r
    cases ok with
    | false => exact steady_of_spt hm
    | true =>
      refine (steady_of_spt hm).trans (steady_sptInsert _ ?_)
      rw [hm]
      exact hnone
  · exact steady_of_spt rfl

theorem handleFault_takes {again : Code Bool} (hagain : Takes rules G again G) (p addr : Nat)
    (write notPresent : Bool) (esp : Nat) :
    Takes rules G (handleFault again p addr write notPresent esp) G := by
  unfold handleFault
  split
  · refine .bind (.holding (hG.spt p _)
      (takes_atomically fun s => (steady_lookUp s p addr write notPresent esp).guar)) fun found => ?_
    cases found with
    | refuse => exact takes_pure false
    | load => exact loadFault_takes hG p _
    | cow old =>
      refine .bindBool (framePinIfPresent_takes hG.frameOk old) hagain ?_
      cases old with
      | none => exact hagain
      | some old => exact copyFault_takes hG p _ old
  · exact takes_pure false

theorem vmHandleFault_takes (p addr : Nat) (write notPresent : Bool) (esp : Nat) :
    Takes rules G (vmHandleFault p addr write notPresent esp) G :=
  handleFault_takes hG (handleFault_takes hG takes_halt p addr write true esp) p addr write
    notPresent esp

end Fault

/-! ## Mapped files -/

theorem sptDelete_other (s : Vm) (p u : Nat) (hq : q ≠ p) :
    (MavVm.sptDelete s p u).spt q = s.spt q :=
  set2_row s.spt p u none hq

theorem phase3_other (s : Vm) (p : Nat) (r : Region) (u : Nat) (snapshot : Option Nat)
    (pinned : Bool) (hq : q ≠ p) :
    (phase3 p r u snapshot pinned s).2.spt q = s.spt q := by
  unfold phase3
  split
  · rfl
  · split
    · split
      · exact sptDelete_other (MavVm.pagedirClearPage s p u) p u hq
      · rfl
    · exact sptDelete_other s p u hq

theorem takeEntry_other (s : Vm) (p u : Nat) (hq : q ≠ p) :
    (takeEntry p u s).2.spt q = s.spt q := by
  unfold takeEntry
  split
  · rfl
  · exact sptDelete_other s p u hq

theorem writeBack_spt {r : Region} {i : Nat} {k : Option Nat} {dirty : Bool}
    (h : writeBack r i e k dirty s = some (a, s')) : s'.spt = s.spt := by
  unfold writeBack at h
  split at h
  · obtain ⟨⟨n, s1⟩, hw, he⟩ := map_eq_some_iff.mp h
    rw [← (Prod.mk.inj he).2]
    exact fileWriteAt_spt (toOption_eq_some hw)
  · rw [← (MavRun.pair_inj h).2]

theorem takes_fileClose (h : Nat) :
    Takes rules H (attempt fun s => (MavVm.fileClose s h).toOption.map ((), ·)) H :=
  takes_attempt fun _ _ _ hc => guar_of_spt (fileClose_spt (toOption_map_eq_some hc))

theorem unpinIf_takes (hF : FrameOk H) (pinned : Bool) (k : Option Nat) :
    Takes rules H (unpinIf pinned k) H := by
  cases pinned with
  | false => exact takes_pure ()
  | true => exact frameUnpin_takes hF k

/-- One turn of the clean-up loop never holds two locks of the three at once. -/
theorem cleanupTurn_takes (hG : OnlyMaps G) (q : Cleanup) : Takes rules G (cleanupTurn q) G := by
  have hF := hG.frameOk
  refine .bindOption (.holding (hG.spt q.pid _) (takes_inspect _)) (takes_pure ()) fun e => ?_
  refine .bind (framePinIfPresent_takes hF _) fun pinned => ?_
  refine .bind (.holding (hG.spt q.pid _) (takes_atomically fun s =>
    guar_of_other ⟨_, mem_cons_self ..⟩ fun _ hq => phase3_other s _ _ _ _ _ hq))
    fun verdict => ?_
  cases verdict with
  | gone => exact unpinIf_takes hF pinned _
  | retry => exact .bind (unpinIf_takes hF pinned _) fun _ => takes_invoke hG
  | remove e' k dirty =>
    refine .bind (takes_attempt fun _ _ _ h => guar_of_spt (writeBack_spt h)) fun _ =>
      .bind (unpinIf_takes hF pinned _) fun _ => .bind (frameFree_takes hF k) fun _ => ?_
    split
    · exact swapFree_takes hG.swapOk e'.swapSlot
    · exact takes_pure ()

section Mmap

variable (hG : OnlyMaps G)
include hG

theorem cleanupPages_takes (p : Nat) (r : Region) :
    ∀ n i, Takes rules G (cleanupPages p r i n) G := by
  intro n
  induction n with
  | zero => exact fun i => takes_pure ()
  | succ n ih => exact fun i => .bind (takes_invoke hG) fun _ => ih (i + 1)

theorem regionClose_takes (p : Nat) (r : Region) : Takes rules G (regionClose p r) G := by
  refine .bind (cleanupPages_takes hG p r r.pageCount 0) fun _ => ?_
  cases r.file with
  | none => exact takes_pure ()
  | some h => exact takes_fileClose h

theorem mmapTakeDown_takes (p : Nat) (r : Region) : Takes rules G (mmapTakeDown p r) G :=
  .bind (regionClose_takes hG p r) fun _ =>
    .bind (takes_update fun _ => guar_of_spt rfl) fun _ => takes_pure true

theorem destroyRegions_takes (p : Nat) : ∀ n, Takes rules G (destroyRegions p n) G := by
  intro n
  induction n with
  | zero => exact takes_pure ()
  | succ n ih =>
    refine .bindOption (takes_atomically fun s => guar_of_spt (popRegion_spt s p)) (takes_pure ())
      fun r => ?_
    exact .bind (regionClose_takes hG p r) fun _ => ih

end Mmap

/-- The `mmap_lock` is the first lock of every mmap call. -/
theorem takes_mmap {x : Code α} (p : Nat) (hx : Takes rules [(.mmap p, c)] x [(.mmap p, c)]) :
    Takes rules [] (holding (.mmap p) c x) [] :=
  .holding (fun _ hh => absurd hh not_mem_nil) hx

theorem mmapDestroy_takes (p addr length : Nat) :
    Takes rules [] (mmapDestroy p addr length) [] := by
  refine takes_mmap p (.bindOption (takes_inspect _) (takes_pure false) fun r => ?_)
  show Takes rules _ (if _ then _ else _) _
  split
  · exact takes_pure false
  · exact mmapTakeDown_takes (onlyMaps_nil.cons p _) p r

theorem mmapFindAndDestroy_takes (p addr : Nat) :
    Takes rules [] (mmapFindAndDestroy p addr) [] := by
  refine takes_mmap p (.bindOption (takes_inspect _) (takes_pure false) fun r => ?_)
  exact mmapTakeDown_takes (onlyMaps_nil.cons p _) p r

theorem mmapDestroyAll_takes (p : Nat) : Takes rules [] (mmapDestroyAll p) [] :=
  takes_mmap p (.bind (takes_inspect _) fun n => destroyRegions_takes (onlyMaps_nil.cons p _) p n)

section Walk

variable (hF : FrameOk H) (hS : SwapOk H)
include hF hS

theorem dropEntry_takes (e : Entry) : Takes rules H (dropEntry e) H := by
  unfold dropEntry
  cases e.status with
  | frame => exact frameFree_takes hF e.kpage
  | swap => exact swapFree_takes hS e.swapSlot
  | zero | file | cow => exact takes_pure ()

theorem dropClone_takes (e : Entry) : Takes rules H (dropClone e) H := by
  unfold dropClone
  cases e.status with
  | frame | cow => exact frameFree_takes hF e.kpage
  | swap => exact swapFree_takes hS e.swapSlot
  | zero | file => exact takes_pure ()

/-- An entry is removed under the `spt_lock`, from which its frame is freed. -/
theorem sptRemove_takes (hp : ∃ c, (.spt p, c) ∈ H) (u : Nat) :
    Takes rules H (sptRemove p u) H := by
  refine .bind (takes_atomically fun s => guar_of_other hp fun _ hq => takeEntry_other s p u hq)
    fun entry => ?_
  cases entry with
  | none => exact takes_pure ()
  | some e => exact dropEntry_takes hF hS e

theorem sptRemoveAll_takes (hp : ∃ c, (.spt p, c) ∈ H) (start : Nat) :
    ∀ n, Takes rules H (sptRemoveAll p start n) H := by
  intro n
  induction n with
  | zero => exact takes_pure ()
  | succ n ih => exact .bind ih fun _ => sptRemove_takes hF hS hp (start + n)

omit hF hS in
theorem steady_createPage (s : Vm) (p u : Nat) (e : Entry) : Steady s (createPage p u e s).2 := by
  have hm := malloc_spt s
  unfold createPage
  generalize MavVm.malloc s = r at hm
  obtain ⟨ok, s1⟩ := r
  cases ok with
  | false => exact steady_of_spt hm
  | true =>
    dsimp only
    split
    · exact steady_of_spt hm
    · rename_i hnone
      exact (steady_of_spt hm).trans (steady_sptInsert e hnone)

theorem mapPages_takes (hp : ∃ c, (.spt p, c) ∈ H) (start : Nat) (file : Option Nat)
    (offset length : Nat) : ∀ n i, Takes rules H (mapPages p start file offset length i n) H := by
  intro n
  induction n with
  | zero => exact fun i => takes_pure true
  | succ n ih =>
    intro i
    refine .bindBool (takes_atomically fun s => (steady_createPage s _ _ _).guar)
      (.bind (sptRemoveAll_takes hF hS hp start i) fun _ => takes_pure false) ?_
    exact ih (i + 1)

end Walk

/-- A section under an `spt_lock` that calls the frame table. -/
theorem takes_walk {x : Code α} (hG : OnlyMaps G) (hc : walks c = true) (p : Nat)
    (hx : ∀ H : List Grip, FrameOk H → SwapOk H → (∃ c, (.spt p, c) ∈ H) → Takes rules H x H) :
    Takes rules G (holding (.spt p) c x) G :=
  .holding (hG.spt p c) (hx _ (hG.frameOk.spt hc) (hG.swapOk.spt p c) ⟨c, mem_cons_self ..⟩)

theorem mmapCreate_takes (p addr length inode offset : Nat) :
    Takes rules [] (mmapCreate p addr length inode offset) [] := by
  refine .bind (takes_inspect _) fun size => ?_
  split
  · exact takes_pure false
  · refine takes_mmap p (.bindBool (takes_inspect _) (takes_pure false) ?_)
    refine .bindOption (takes_atomically fun s => guar_of_spt (fileOpen_spt s inode))
      (takes_pure false) fun h => ?_
    refine .bindBool takes_malloc (.bind (takes_fileClose h) fun _ => takes_pure false) ?_
    refine .bindBool (takes_walk (onlyMaps_nil.cons p _) rfl p fun H hF hS hp =>
      mapPages_takes hF hS hp _ _ _ _ _ 0) (.bind (takes_fileClose h) fun _ => takes_pure false) ?_
    exact .bind (takes_update fun _ => guar_of_spt rfl) fun _ => takes_pure true

theorem mmapCreateAnon_takes (p addr length : Nat) :
    Takes rules [] (mmapCreateAnon p addr length) [] := by
  unfold mmapCreateAnon
  split
  · exact takes_pure false
  · refine takes_mmap p (.bindOption (takes_inspect _) (takes_pure false) fun start => ?_)
    refine .bindBool takes_malloc (takes_pure false) ?_
    refine .bindBool (takes_walk (onlyMaps_nil.cons p _) rfl p fun H hF hS hp =>
      mapPages_takes hF hS hp _ _ _ _ _ 0) (takes_pure false) ?_
    exact .bind (takes_update fun _ => guar_of_spt rfl) fun _ => takes_pure true

/-! ## Fork and exit -/

theorem cloneShared_takes (hF : FrameOk H) (p c u : Nat) (e : Entry) :
    Takes rules H (cloneShared p c u e) H := by
  unfold cloneShared
  cases e.kpage with
  | none => exact takes_halt
  | some k =>
    refine .bindBool (takes_setPage c u k false) (takes_pure none) ?_
    exact .bind (takes_update fun s => guar_of_spt (pagedirSetWritable_spt s p u false)) fun _ =>
      .bind (frameShare_takes hF (some k)) fun _ => takes_pure _

theorem takes_newSlot (p u slot : Nat) :
    Takes rules H (attempt (editThrough p u fun e => { e with swapSlot := slot })) H :=
  takes_attempt fun _ _ _ h =>
    (steady_editThrough (f := fun e => { e with swapSlot := slot }) (fun _ he => he) h).guar

theorem restoreSlot_takes (hS : SwapOk H) (p u k : Nat) : Takes rules H (restoreSlot p u k) H := by
  refine .bindOption (swapOut_takes hS k) (takes_pure ()) fun slot => ?_
  exact takes_newSlot p u slot

theorem cloneSwapped_takes (hG : OnlyMaps G) (p c u : Nat) (e : Entry) :
    Takes rules G (cloneSwapped p c u e) G := by
  have hF := hG.frameOk
  have hS := hG.swapOk
  refine .bindOption (frameAlloc_takes hG c u) (takes_pure none) fun k => ?_
  refine .bindOption (takes_inspect _) takes_halt fun e' => ?_
  refine .bind (swapIn_takes hS e'.swapSlot k) fun _ => .bind (swapOut_takes hS k) fun slot => ?_
  cases slot with
  | none =>
    exact .bind (restoreSlot_takes hS p u k) fun _ =>
      .bind (frameFree_takes hF (some k)) fun _ => takes_pure none
  | some slot =>
    exact .bind (takes_newSlot p u slot) fun _ => .bind (swapOut_takes hS k) fun child =>
      .bind (frameFree_takes hF (some k)) fun _ => takes_pure _

/-- Without the `spt_lock` an entry is cloned from wherever its page is. -/
theorem sptCloneEntry_takes (hG : OnlyMaps G) (p c u : Nat) :
    Takes rules G (sptCloneEntry p c u) G := by
  refine .bindBool takes_malloc (takes_pure none) ?_
  refine .bindOption (takes_inspect _) takes_halt fun e => ?_
  dsimp only
  cases e.status with
  | zero | file => exact takes_pure _
  | frame | cow => exact cloneShared_takes hG.frameOk p c u e
  | swap => exact cloneSwapped_takes hG p c u e

/-- Whoever holds the `spt_lock` finds its pages out of swap where they were. -/
theorem unswapped_of_rely (hr : rules.Rely ((.spt p, c) :: G) s s')
    (hu : Unswapped s p u) : Unswapped s' p u :=
  hr (.spt p, c) (mem_cons_self ..) u hu

/-- With the `spt_lock`, an entry that was not in swap when it was looked at is
    not in swap when it is cloned: eviction would need the lock. So no frame is
    allocated here, and no eviction comes back for the lock. -/
theorem sptCloneEntry_held (hG : OnlyMaps G) (c : Nat) (hu : Unswapped s p u) :
    Safe rules (sptCloneEntry p c u) (fun _ K _ => K = (.spt p, .sptClone) :: G)
      ((.spt p, .sptClone) :: G) s := by
  refine Safe.bind (Q := fun _ K s' => K = (.spt p, .sptClone) :: G ∧ Unswapped s' p u) ?_ ?_
  · intro s' hr
    refine ⟨guar_of_spt (malloc_spt s'), fun s'' hr' => ⟨rfl, unswapped_of_rely hr' ?_⟩⟩
    exact steady_of_spt (malloc_spt s') p u (unswapped_of_rely hr hu)
  rintro ok K s' ⟨rfl, hu'⟩
  cases ok with
  | false => exact takes_pure none s'
  | true =>
    refine Safe.bind (Q := fun entry K _ =>
      K = (.spt p, .sptClone) :: G ∧ ∀ e, entry = some e → e.status ≠ .swap) ?_ ?_
    · refine safe_inspect fun s1 hr s2 _ => ⟨rfl, fun e he => ?_⟩
      obtain ⟨e', he', hst⟩ := unswapped_of_rely hr hu'
      rw [he'] at he
      cases he
      exact hst
    rintro entry K s1 ⟨rfl, hst⟩
    cases entry with
    | none => exact trivial
    | some e =>
      have hF : FrameOk ((.spt p, .sptClone) :: G) := hG.frameOk.spt rfl
      have hne := hst e rfl
      dsimp only
      cases hs : e.status with
      | zero | file => exact takes_pure _ s1
      | frame | cow => exact cloneShared_takes hF p c u e s1
      | swap => exact absurd hs hne

theorem cloneOne_takes (hG : OnlyMaps G) (p c u : Nat) :
    Takes rules ((.spt p, .sptClone) :: G) (cloneOne p c u) ((.spt p, .sptClone) :: G) := by
  intro s
  refine Safe.bind (Q := fun entry K s' => K = (.spt p, .sptClone) :: G ∧
    ∀ e, entry = some e → e.status ≠ .swap → Unswapped s' p u) ?_ ?_
  · exact safe_inspect fun s1 _ s2 hr => ⟨rfl, fun e he hst => unswapped_of_rely hr ⟨e, he, hst⟩⟩
  rintro entry K s' ⟨rfl, hst⟩
  cases entry with
  | none => exact trivial
  | some e =>
    show Safe rules (if e.status = .swap then apart (.spt p) .sptClone (sptCloneEntry p c u)
      else sptCloneEntry p c u) _ _ _
    split
    · exact Takes.apart (hG.spt p _) (sptCloneEntry_takes hG p c u) s'
    · rename_i hne
      exact sptCloneEntry_held hG c (hst e rfl hne)

theorem pinResident_takes (hF : FrameOk H) (e : Entry) : Takes rules H (pinResident e) H := by
  have hpin : Takes rules H (do framePin e.kpage; return e.kpage : Code (Option Nat)) H :=
    .bind (framePin_takes hF e.kpage) fun _ => takes_pure e.kpage
  unfold pinResident
  cases e.status with
  | frame | cow => exact hpin
  | zero | file | swap => exact takes_pure none

theorem unpinResident_takes (hF : FrameOk H) (k : Option Nat) :
    Takes rules H (unpinResident k) H := by
  cases k with
  | none => exact takes_pure ()
  | some k => exact frameUnpin_takes hF (some k)

theorem steady_insertClone (s : Vm) (c u : Nat) (e : Entry) : Steady s (insertClone c u e s).2 := by
  unfold insertClone
  split
  · exact steady_of_spt rfl
  · rename_i hnone
    exact steady_sptInsert e hnone

theorem cloneEntries_takes (hG : OnlyMaps G) (p c : Nat) :
    ∀ us, Takes rules ((.spt p, .sptClone) :: G) (cloneEntries p c us) ((.spt p, .sptClone) :: G) := by
  have hF : FrameOk ((.spt p, .sptClone) :: G) := hG.frameOk.spt rfl
  have hS : SwapOk ((.spt p, .sptClone) :: G) := hG.swapOk.spt p _
  intro us
  induction us with
  | nil => exact takes_pure true
  | cons u us ih =>
    refine .bindOption (takes_inspect _) takes_halt fun e => ?_
    refine .bind (pinResident_takes hF e) fun pinned =>
      .bind (cloneOne_takes hG p c u) fun cloned =>
      .bind (unpinResident_takes hF pinned) fun _ => ?_
    cases cloned with
    | none => exact takes_pure false
    | some e' =>
      refine .bindBool (takes_atomically fun s => (steady_insertClone s c u e').guar)
        (.bind (dropClone_takes hF hS e') fun _ => takes_pure false) ?_
      exact ih

theorem steady_markCow (s : Vm) (p : Nat) : Steady s (MavVm.markCow s p) := by
  rintro q u ⟨e, he, hst⟩
  by_cases hq : q = p
  · subst hq
    refine ⟨if e.status = .frame then { e with status := .cow } else e, ?_, ?_⟩
    · show Function.update s.spt q _ q u = _
      rw [Function.update_self, he]
      rfl
    · split
      · show MavVm.Status.cow ≠ .swap
        decide
      · exact hst
  · refine ⟨e, ?_, hst⟩
    show Function.update s.spt p _ q u = some e
    rw [Function.update_of_ne hq]
    exact he

theorem sptClone_takes (p c : Nat) : Takes rules [] (sptClone p c) [] := by
  refine .holding (fun _ hh => absurd hh not_mem_nil) (.bind (takes_inspect _) fun us =>
    .bindBool (cloneEntries_takes onlyMaps_nil p c us) (takes_pure false) ?_)
  exact .bind (takes_update fun s => (steady_markCow s p).guar) fun _ => takes_pure true

theorem destroyEntries_takes (hF : FrameOk H) (hS : SwapOk H) (hp : ∃ c, (.spt p, c) ∈ H) :
    ∀ us, Takes rules H (destroyEntries p us) H := by
  intro us
  induction us with
  | nil => exact takes_pure ()
  | cons u us ih => exact .bind (sptRemove_takes hF hS hp u) fun _ => ih

theorem sptDestroy_takes (p : Nat) : Takes rules [] (sptDestroy p) [] :=
  takes_walk onlyMaps_nil rfl p fun _ hF hS hp =>
    .bind (takes_inspect _) fun us => destroyEntries_takes hF hS hp us

theorem closeExecutable_spt (h : closeExecutable p s = some (a, s')) : s'.spt = s.spt := by
  unfold closeExecutable at h
  split at h
  · rw [← (MavRun.pair_inj h).2]
  · have hc := fileClose_spt (toOption_map_eq_some h)
    exact hc

theorem processExit_takes (p : Nat) : Takes rules [] (processExit p) [] :=
  .bind (mmapDestroyAll_takes p) fun _ => .bind (sptDestroy_takes p) fun _ =>
    .bind (takes_update fun _ => guar_of_spt rfl) fun _ =>
      takes_attempt fun _ _ _ h => guar_of_spt (closeExecutable_spt h)

theorem forkExecutable_spt {c : Nat} (h : MavVm.forkExecutable s p c = .ok s') :
    s'.spt = s.spt := by
  unfold MavVm.forkExecutable at h
  split at h
  · rw [← Except.ok.inj h]
  rename_i f _
  split at h
  · cases h
  · have ho := fileOpen_spt s (s.inodeOf f)
    generalize MavVm.fileOpen s (s.inodeOf f) = r at h ho
    obtain ⟨handle, s1⟩ := r
    cases handle with
    | none => rw [← Except.ok.inj h]; exact ho
    | some f' => exact (fileDenyWrite_spt h).trans ho

theorem startFork_takes (p c : Nat) : Takes rules [] (startFork p c) [] := by
  refine .bindBool takes_malloc (takes_pure ()) ?_
  exact .bind (takes_update fun _ => guar_of_spt rfl) fun _ => .bind (sptClone_takes p c) fun _ =>
    takes_attempt fun _ _ _ h => guar_of_spt (forkExecutable_spt (toOption_map_eq_some h))

theorem steady_loadSegments {c : Nat} : ∀ {gs : List Segment} {s s' : Vm},
    MavVm.loadSegments c h gs s = .ok s' → Steady s s' := by
  intro gs
  induction gs with
  | nil =>
    intro s s' hl
    rw [← Except.ok.inj hl]
    exact steady_of_spt rfl
  | cons g gs ih =>
    intro s s' hl
    unfold MavVm.loadSegments at hl
    split at hl
    · exact nomatch hl
    · rename_i hsome
      exact (steady_sptInsert _ (not_isSome_iff_eq_none.mp hsome)).trans (ih hl)

theorem steady_execProcess {c inode : Nat} {image : List Segment}
    (h : MavVm.execProcess s c inode image = .ok s') : Steady s s' := by
  have ho := fileOpen_spt (MavVm.startProcess s c) inode
  unfold MavVm.execProcess at h
  generalize MavVm.fileOpen (MavVm.startProcess s c) inode = r at h ho
  obtain ⟨handle, s1⟩ := r
  cases handle with
  | none => exact nomatch h
  | some f =>
    cases hl : MavVm.loadSegments c f image s1 with
    | error e => simp only [hl] at h; exact nomatch h
    | ok s2 =>
      simp only [hl] at h
      refine (steady_of_spt ho).trans ((steady_loadSegments hl).trans ?_)
      exact steady_of_spt (fileDenyWrite_spt (s := { s2 with
        executable := Function.update s2.executable c (some f) }) h)

theorem setupStack_takes (c : Nat) : Takes rules [] (setupStack c) [] := by
  refine .bindBool (takes_atomically fun s => (steady_createPage s _ _ _).guar) (takes_pure false)
    ?_
  exact loadFault_takes onlyMaps_nil c stackPage

theorem startProcess_takes (c inode : Nat) (image : List Segment) :
    Takes rules [] (startProcess c inode image) [] := by
  refine .bind (takes_attempt fun _ _ _ h => (steady_execProcess (toOption_map_eq_some h)).guar)
    fun _ => .bindBool (setupStack_takes c) (takes_update fun _ => guar_of_spt rfl) ?_
  exact takes_pure ()

theorem userAccess_takes (p addr : Nat) (write : Bool) (esp : Nat) :
    Takes rules [] (userAccess p addr write esp) [] := by
  refine .bind (takes_atomically fun s => guar_of_spt (touch_spt s p addr write)) fun access => ?_
  cases access with
  | done => exact takes_pure ()
  | fault notPresent =>
    refine .bindBool (vmHandleFault_takes onlyMaps_nil p addr write notPresent esp)
      (processExit_takes p) ?_
    exact takes_pure ()

/-- **EVERY REQUEST OBSERVES THE RULES**, from no lock to no lock. -/
theorem program_takes (p : Nat) (r : Request) : Takes rules [] (program p r) [] := by
  cases r with
  | exec inode image => exact startProcess_takes p inode image
  | fork parent => exact startFork_takes parent p
  | access addr write esp => exact userAccess_takes p addr write esp
  | mmap addr length inode offset =>
    exact .bind (mmapCreate_takes p addr length inode offset) fun _ => takes_pure ()
  | anon addr length => exact .bind (mmapCreateAnon_takes p addr length) fun _ => takes_pure ()
  | munmap addr length => exact .bind (mmapDestroy_takes p addr length) fun _ => takes_pure ()
  | munmapAt addr => exact .bind (mmapFindAndDestroy_takes p addr) fun _ => takes_pure ()
  | exit => exact processExit_takes p

end MavVmLock
