import Maverick.RunProofs

/-! # Page directories — two table walks against one map of pages

The kernel keeps two page directories behind one set of functions: the two-level tables of i386 and
the three-level Sv39 tables of RISC-V. Both walk to a page table entry and read or change its bits.
What they write differs: RISC-V maps a page with the accessed bit set, and the dirty bit where it is
writable, and unmaps it by clearing the whole entry, where i386 starts with both bits clear and
takes away the present bit only.

The walks are handled once, as a table of entries with the tables created on demand; the two
architectures are then compared entry by entry with the map of pages they stand for. Memory for
tables never runs out, and cached translations are not modelled. -/

namespace MavPagedir

open MavRun
open Function (update update_self update_of_ne)

/-- A page below 3 GB, by number. -/
abbrev UserPage := Fin 786432

/-- A page table entry: its bits and the frame. -/
structure Pte where
  present : Bool := false
  writable : Bool := false
  accessed : Bool := false
  dirty : Bool := false
  frame : Nat := 0
  deriving DecidableEq

/-- The bits set by the hardware. -/
inductive Bit where
  | accessed
  | dirty
  deriving DecidableEq

def Pte.get (e : Pte) : Bit → Bool
  | .accessed => e.accessed
  | .dirty => e.dirty

def Pte.set (e : Pte) (v : Bool) : Bit → Pte
  | .accessed => { e with accessed := v }
  | .dirty => { e with dirty := v }

@[simp] theorem get_set (e : Pte) (v : Bool) (b c : Bit) :
    (e.set v b).get c = if c = b then v else e.get c := by
  cases b <;> cases c <;> rfl

@[simp] theorem set_keeps (e : Pte) (v : Bool) (b : Bit) :
    (e.set v b).present = e.present ∧ (e.set v b).writable = e.writable ∧
      (e.set v b).frame = e.frame := by
  cases b <;> exact ⟨rfl, rfl, rfl⟩

/-! ## The walks -/

/-- Tables that are walked to an entry: `find` is the entry, `none` where a
    table on the way is missing, and `store` creates what is missing. -/
structure Walk (σ : Type) where
  find : σ → UserPage → Option Pte
  store : σ → UserPage → Pte → σ
  view_store : ∀ (s : σ) (p q : UserPage) (e : Pte),
    (find (store s p e) q).getD {} = if q = p then e else (find s q).getD {}

/-- A page table: one entry for each index. -/
abbrev Table := Nat → Pte

/-- lookup_page: the directory has a table for each 4 MB. -/
def lookupPage : Walk (Nat → Option Table) where
  find pd p := (pd (p / 1024)).map (· (p % 1024))
  store pd p e := update pd (p / 1024)
    (some (update ((pd (p / 1024)).getD fun _ => {}) (p % 1024) e))
  view_store := by
    intro pd p q e
    by_cases hd : q.val / 1024 = p.val / 1024
    · rw [hd, update_self]
      by_cases hq : q = p
      · rw [hq, if_pos rfl, Option.map_some, update_self]
        rfl
      · have hne : q.val % 1024 ≠ p.val % 1024 := by
          intro h
          exact hq (Fin.ext (by omega))
        rw [if_neg hq, Option.map_some, update_of_ne hne]
        cases pd (p.val / 1024) <;> rfl
    · have hq : q ≠ p := fun h => hd (by rw [h])
      rw [update_of_ne hd, if_neg hq]

/-- pagedir_lookup_pte: a root with a table for each GB, and in it one for each 2 MB. Entries of
    the two upper levels below the kernel's are pointers or invalid. -/
def pagedirLookupPte : Walk (Nat → Option (Nat → Option Table)) where
  find l2 p := (l2 (p / 2 ^ 18)).bind fun l1 => (l1 (p / 2 ^ 9 % 2 ^ 9)).map (· (p % 2 ^ 9))
  store l2 p e :=
    let l1 := (l2 (p / 2 ^ 18)).getD fun _ => none
    let l0 := (l1 (p / 2 ^ 9 % 2 ^ 9)).getD fun _ => {}
    update l2 (p / 2 ^ 18)
      (some (update l1 (p / 2 ^ 9 % 2 ^ 9) (some (update l0 (p % 2 ^ 9) e))))
  view_store := by
    intro l2 p q e
    by_cases h2 : q.val / 2 ^ 18 = p.val / 2 ^ 18
    · rw [h2, update_self, Option.bind_some]
      by_cases h1 : q.val / 2 ^ 9 % 2 ^ 9 = p.val / 2 ^ 9 % 2 ^ 9
      · rw [h1, update_self]
        by_cases hq : q = p
        · rw [hq, if_pos rfl, Option.map_some, update_self]
          rfl
        have hne : q.val % 2 ^ 9 ≠ p.val % 2 ^ 9 := by
          intro h
          exact hq (Fin.ext (by omega))
        rw [if_neg hq, Option.map_some, update_of_ne hne]
        cases l2 (p.val / 2 ^ 18) with
        | none => rfl
        | some l1 =>
          show ((l1 (p.val / 2 ^ 9 % 2 ^ 9)).getD fun _ => {}) (q.val % 2 ^ 9) =
            ((l1 (p.val / 2 ^ 9 % 2 ^ 9)).map (· (q.val % 2 ^ 9))).getD {}
          cases l1 (p.val / 2 ^ 9 % 2 ^ 9) <;> rfl
      · have hq : q ≠ p := fun h => h1 (by rw [h])
        rw [update_of_ne h1, if_neg hq]
        cases l2 (p.val / 2 ^ 18) <;> rfl
    · have hq : q ≠ p := fun h => h2 (by rw [h])
      rw [update_of_ne h2, if_neg hq]

/-! ## The functions -/

/-- What is done to a page: the functions of the page directory, and an access
    of the user that reads or writes. -/
inductive Act where
  | setPage (frame : Nat) (writable : Bool)
  | getPage
  | clearPage
  | isBit (b : Bit)
  | setBit (b : Bit) (v : Bool)
  | isWritable
  | setWritable (w : Bool)
  | access (write : Bool)
  deriving DecidableEq

inductive Ans where
  | done
  | page (frame : Option Nat)
  | bit (v : Bool)
  deriving DecidableEq

/-- The hardware lets the access through, and not a page fault. -/
def Pte.grants (e : Pte) (write : Bool) : Bool := e.present && (!write || e.writable)

/-- The entry after an access. -/
def Pte.touch (e : Pte) (write : Bool) : Pte :=
  if e.grants write then { e with accessed := true, dirty := e.dirty || write } else e

/-- What the two architectures do differently: the entry of a new mapping, whether an old one is
    asserted away, and the functions that unmap a page and handle its writable bit. -/
structure Arch where
  create : Nat → Bool → Pte
  asserts : Bool
  clear : Pte → Pte
  isWritable : Pte → Bool
  setWritable : Bool → Pte → Pte

/-- userprog/pagedir.c. -/
def i386 : Arch where
  create frame w := { present := true, writable := w, frame := frame }
  asserts := true
  clear e := if e.present then { e with present := false } else e
  isWritable e := e.present && e.writable
  setWritable w e := if e.present then { e with writable := w } else e

/-- arch/riscv64/pagedir.c. -/
def riscv64 : Arch where
  create frame w :=
    { present := true, writable := w, accessed := true, dirty := w, frame := frame }
  asserts := false
  clear e := if e.present then {} else e
  isWritable e := e.writable
  setWritable w e := { e with writable := w }

/-- The answer, from the entry; a missing table answers as a zero entry. -/
def Arch.answer (A : Arch) (e : Pte) : Act → Ans
  | .getPage => .page (if e.present then some e.frame else none)
  | .isBit b => .bit (e.get b)
  | .isWritable => .bit (A.isWritable e)
  | .access write => .bit (e.grants write)
  | _ => .done

/-- The entry afterwards. -/
def Arch.next (A : Arch) (e : Pte) : Act → Pte
  | .setPage frame w => A.create frame w
  | .clearPage => A.clear e
  | .setBit b v => e.set v b
  | .setWritable w => A.setWritable w e
  | .access write => e.touch write
  | _ => e

/-- A function of the page directory: only `pagedir_set_page` creates tables,
    and on i386 it stops at a page that is mapped. -/
def Arch.step {σ : Type} (A : Arch) (W : Walk σ) (s : σ) (op : UserPage × Act) :
    Option (Ans × σ) :=
  match op.2, W.find s op.1 with
  | .setPage frame w, e =>
    if A.asserts && (e.getD {}).present then none
    else some (.done, W.store s op.1 (A.create frame w))
  | a, some e => some (A.answer e a, W.store s op.1 (A.next e a))
  | a, none => some (A.answer {} a, s)

/-! ## The map of pages -/

/-- A page of the map, with its entry and whether a bit is settled: written
    since the page was mapped, or never different from zero. -/
structure Page where
  pte : Pte := {}
  settled : Bit → Bool := fun _ => true

/-- A new mapping has clear bits, unmapping keeps everything else, and a page
    that is not mapped is left alone. -/
def Page.act (g : Page) (a : Act) : Ans × Pte :=
  let e := g.pte
  match a with
  | .setPage frame w => (.done, { present := true, writable := w, frame := frame })
  | .getPage => (.page (if e.present then some e.frame else none), e)
  | .clearPage => (.done, { e with present := false })
  | .isBit b => (.bit (e.get b), e)
  | .setBit b v => (.done, if e.present then e.set v b else e)
  | .isWritable => (.bit (e.present && e.writable), e)
  | .setWritable w => (.done, if e.present then { e with writable := w } else e)
  | .access write => (.bit (e.grants write), e.touch write)

/-- The bits that are settled afterwards. -/
def Page.settle (g : Page) : Act → Bit → Bool
  | .setPage _ w, b => b = .dirty && !w
  | .clearPage, b => g.settled b && !(g.pte.present && g.pte.get b)
  | .setBit c _, b => g.settled b || (g.pte.present && c = b)
  | .access write, b => g.settled b || (g.pte.grants write && (b = .accessed || write))
  | _, b => g.settled b

/-- The map after an operation, and its answer. -/
def mapStep (m : UserPage → Page) (op : UserPage × Act) : Ans × (UserPage → Page) :=
  (((m op.1).act op.2).1,
    update m op.1 ⟨((m op.1).act op.2).2, (m op.1).settle op.2⟩)

/-- A page is mapped where it is not, its accessed and dirty bits are read where
    they are settled, and bits are changed on mapped pages. -/
def Page.Settled (g : Page) : Act → Prop
  | .setPage _ _ => g.pte.present = false
  | .isBit b => g.settled b = true
  | .setBit _ _ => g.pte.present = true
  | .setWritable _ => g.pte.present = true
  | _ => True

instance (g : Page) (a : Act) : Decidable (g.Settled a) := by
  cases a <;> unfold Page.Settled <;> infer_instance

/-- Every operation of the run meets the condition in the map before it. -/
abbrev SettledRun (m : UserPage → Page) (ops : List (UserPage × Act)) : Prop :=
  Guarded (fun m op => some (mapStep m op).2) (fun m op => (m op.1).Settled op.2) m ops

/-! ## An entry against a page of the map -/

/-- An entry of RISC-V agrees with a page: in everything but the bits that are
    not settled where it is present, and it is zero where it is not. -/
structure Agrees (g : Page) (e : Pte) : Prop where
  present : e.present = g.pte.present
  mapped : g.pte.present = true → e.writable = g.pte.writable ∧ e.frame = g.pte.frame
  bits : ∀ b, g.settled b = true → e.get b = g.pte.get b
  zero : g.pte.present = false → e = {}

theorem riscv64_agrees {g : Page} {e : Pte} {a : Act} (h : Agrees g e) (ha : g.Settled a) :
    riscv64.answer e a = (g.act a).1 ∧
      Agrees ⟨(g.act a).2, g.settle a⟩ (riscv64.next e a) := by
  have hgrants : ∀ write, e.grants write = g.pte.grants write := by
    intro write
    rw [Pte.grants, Pte.grants, h.present]
    cases hp : g.pte.present with
    | false => rfl
    | true => rw [(h.mapped hp).1]
  cases a with
  | setPage frame w =>
    refine ⟨rfl, rfl, fun _ => ⟨rfl, rfl⟩, fun b hb => ?_, (nomatch ·)⟩
    cases b with
    | accessed => exact nomatch hb
    | dirty =>
      cases w with
      | false => rfl
      | true => exact nomatch hb
  | getPage =>
    refine ⟨?_, h⟩
    show Ans.page _ = Ans.page _
    rw [h.present]
    cases hp : g.pte.present with
    | false => rfl
    | true => rw [(h.mapped hp).2]
  | clearPage =>
    have hzero : riscv64.clear e = {} := by
      cases hp : g.pte.present with
      | false =>
        rw [h.zero hp]
        rfl
      | true => exact if_pos (h.present.trans hp)
    refine ⟨rfl, ?_⟩
    show Agrees ⟨{ g.pte with present := false }, _⟩ (riscv64.clear e)
    rw [hzero]
    refine ⟨rfl, (nomatch ·), fun b hb => ?_, fun _ => rfl⟩
    obtain ⟨hset, hclr⟩ := Bool.and_eq_true_iff.mp hb
    have hget : g.pte.get b = false := by
      cases hp : g.pte.present with
      | false =>
        rw [← h.bits b hset, h.zero hp]
        cases b <;> rfl
      | true =>
        rw [hp, Bool.true_and, Bool.not_eq_true'] at hclr
        exact hclr
    cases b <;> exact hget.symm
  | isBit b =>
    refine ⟨?_, h⟩
    show Ans.bit _ = Ans.bit _
    rw [h.bits b ha]
  | setBit c v =>
    have hp : g.pte.present = true := ha
    have hact : g.act (.setBit c v) = (.done, g.pte.set v c) := by
      show (Ans.done, if g.pte.present then g.pte.set v c else g.pte) = _
      rw [if_pos hp]
    rw [hact]
    refine ⟨rfl, ?_, ?_, ?_, ?_⟩
    · exact ((set_keeps e v c).1.trans h.present).trans (set_keeps g.pte v c).1.symm
    · intro _
      have hm := h.mapped hp
      exact ⟨((set_keeps e v c).2.1.trans hm.1).trans (set_keeps g.pte v c).2.1.symm,
        ((set_keeps e v c).2.2.trans hm.2).trans (set_keeps g.pte v c).2.2.symm⟩
    · intro b hb
      show (e.set v c).get b = (g.pte.set v c).get b
      rw [get_set, get_set]
      split
      · rfl
      · rename_i hne
        refine h.bits b ?_
        have hcb : decide (c = b) = false := decide_eq_false fun h => hne h.symm
        have hb : (g.settled b || (g.pte.present && decide (c = b))) = true := hb
        rw [hcb, Bool.and_false, Bool.or_false] at hb
        exact hb
    · intro hnp
      rw [show (⟨g.pte.set v c, g.settle (.setBit c v)⟩ : Page).pte.present = g.pte.present
        from (set_keeps g.pte v c).1, hp] at hnp
      exact nomatch hnp
  | isWritable =>
    refine ⟨?_, h⟩
    show Ans.bit e.writable = Ans.bit (g.pte.present && g.pte.writable)
    cases hp : g.pte.present with
    | false =>
      rw [h.zero hp]
      rfl
    | true => rw [(h.mapped hp).1, Bool.true_and]
  | setWritable w =>
    have hp : g.pte.present = true := ha
    have hact : g.act (.setWritable w) = (.done, { g.pte with writable := w }) := by
      show (Ans.done, if g.pte.present then { g.pte with writable := w } else g.pte) = _
      rw [if_pos hp]
    rw [hact]
    refine ⟨rfl, h.present, fun _ => ⟨rfl, (h.mapped hp).2⟩, fun b hb => ?_, fun hnp => ?_⟩
    · cases b with
      | accessed => exact h.bits .accessed hb
      | dirty => exact h.bits .dirty hb
    · exact nomatch hp.symm.trans hnp
  | access write =>
    refine ⟨congrArg Ans.bit (hgrants write), ?_⟩
    show Agrees ⟨g.pte.touch write, g.settle (.access write)⟩ (e.touch write)
    rw [Pte.touch, Pte.touch, hgrants]
    have hsettle : ∀ b, g.settle (.access write) b =
      (g.settled b || (g.pte.grants write && (decide (b = .accessed) || write))) := fun _ => rfl
    cases hg : g.pte.grants write with
    | false =>
      refine { h with bits := fun b hb => h.bits b ?_ }
      have hb := (hsettle b).symm.trans hb
      rw [hg, Bool.false_and, Bool.or_false] at hb
      exact hb
    | true =>
      have hp : g.pte.present = true := (Bool.and_eq_true_iff.mp hg).1
      refine ⟨h.present, h.mapped, fun b hb => ?_, fun hnp => nomatch hp.symm.trans hnp⟩
      cases b with
      | accessed => rfl
      | dirty =>
        show (e.dirty || write) = (g.pte.dirty || write)
        cases write with
        | true => rw [Bool.or_true, Bool.or_true]
        | false =>
          have hb := (hsettle .dirty).symm.trans hb
          rw [show e.dirty = g.pte.dirty from h.bits .dirty (by simpa using hb)]

theorem i386_agrees {g : Page} {a : Act} (ha : g.Settled a) :
    i386.answer g.pte a = (g.act a).1 ∧ i386.next g.pte a = (g.act a).2 := by
  cases a with
  | setPage frame w | getPage => exact ⟨rfl, rfl⟩
  | clearPage =>
    refine ⟨rfl, ?_⟩
    show (if g.pte.present then { g.pte with present := false } else g.pte) = _
    split
    · rfl
    · rename_i hp
      rw [Bool.not_eq_true] at hp
      show g.pte = { g.pte with present := false }
      rw [← hp]
  | isBit b => exact ⟨rfl, rfl⟩
  | setBit b v => exact ⟨rfl, (if_pos ha).symm⟩
  | isWritable | setWritable w | access write => exact ⟨rfl, rfl⟩

/-! ## Whole runs -/

/-- The entry the walk ends at, zero where a table is missing. -/
def Walk.view {σ : Type} (W : Walk σ) (s : σ) (p : UserPage) : Pte := (W.find s p).getD {}

/-- One function answers from the entry of its page and changes that one only. -/
theorem step_view {σ : Type} {A : Arch} (hclear : A.clear {} = {}) (W : Walk σ) (s : σ)
    {p : UserPage} {a : Act} {g : Page} (hg : (W.view s p).present = g.pte.present)
    (ha : g.Settled a) :
    ∃ s', A.step W s (p, a) = some (A.answer (W.view s p) a, s') ∧
      ∀ q, W.view s' q = if q = p then A.next (W.view s p) a else W.view s q := by
  cases hf : W.find s p with
  | some e =>
    have hview : W.view s p = e := by
      rw [Walk.view, hf]
      rfl
    rw [hview] at hg ⊢
    refine ⟨W.store s p (A.next e a), ?_, fun q => W.view_store s p q _⟩
    cases a with
    | setPage frame w =>
      have hp : e.present = false := hg.trans ha
      simp [Arch.step, hf, hp, Arch.answer, Arch.next]
    | _ => simp only [Arch.step, hf]
  | none =>
    have hview : W.view s p = {} := by
      rw [Walk.view, hf]
      rfl
    rw [hview] at hg ⊢
    have hsame : A.next {} a = {} → ∀ q, W.view s q = if q = p then A.next {} a
        else W.view s q := by
      intro hn q
      split
      · rename_i hq
        rw [hq, hview, hn]
      · rfl
    cases a with
    | setPage frame w =>
      exact ⟨W.store s p (A.create frame w), by simp [Arch.step, hf, Arch.answer],
        fun q => W.view_store s p q _⟩
    | setBit b v | setWritable w => exact nomatch hg.trans ha
    | clearPage => exact ⟨s, by simp only [Arch.step, hf], hsame hclear⟩
    | getPage | isBit b | isWritable | access write =>
      exact ⟨s, by simp only [Arch.step, hf], hsame rfl⟩

/-- **SIMULATION**: where the entries of an architecture agree with the pages of the map step by
    step, its directory answers as the map does over every settled run. -/
theorem runs_agree {σ : Type} {A : Arch} {W : Walk σ} {Q : Page → Pte → Prop}
    (hclear : A.clear {} = {}) (hpresent : ∀ g e, Q g e → e.present = g.pte.present)
    (hstep : ∀ g e a, Q g e → g.Settled a →
      A.answer e a = (g.act a).1 ∧ Q ⟨(g.act a).2, g.settle a⟩ (A.next e a)) :
    ∀ (ops : List (UserPage × Act)) (s : σ) (m : UserPage → Page),
      (∀ p, Q (m p) (W.view s p)) → SettledRun m ops →
      ∃ s', runOps (A.step W) s ops = some ((runAll mapStep m ops).1, s') := by
  intro ops
  induction ops with
  | nil => intro s m _ _; exact ⟨s, rfl⟩
  | cons op ops ih =>
    intro s m hQ hG
    obtain ⟨p, a⟩ := op
    obtain ⟨hans, hnext⟩ := hstep (m p) (W.view s p) a (hQ p) hG.1
    obtain ⟨s', hs, hview⟩ := step_view hclear W s (hpresent _ _ (hQ p)) hG.1
    have hQ' : ∀ q, Q ((mapStep m (p, a)).2 q) (W.view s' q) := by
      intro q
      rw [hview]
      show Q (update m p ⟨((m p).act a).2, (m p).settle a⟩ q) _
      by_cases hq : q = p
      · rw [if_pos hq, hq, update_self]
        exact hnext
      · rw [if_neg hq, update_of_ne hq]
        exact hQ q
    obtain ⟨t, ht⟩ := ih s' (mapStep m (p, a)).2 hQ' (hG.2 _ rfl)
    refine ⟨t, ?_⟩
    simp only [runOps, hs, ht, hans]
    rfl

/-- **ONE MAP**: over every settled run the two page directories, both empty at
    first, answer alike, and as the map of pages does. -/
theorem page_directories_agree (ops : List (UserPage × Act))
    (h : SettledRun (fun _ => {}) ops) :
    (runOps (i386.step lookupPage) (fun _ => none) ops).map Prod.fst
        = some (runAll mapStep (fun _ => {}) ops).1 ∧
      (runOps (riscv64.step pagedirLookupPte) (fun _ => none) ops).map Prod.fst
        = some (runAll mapStep (fun _ => {}) ops).1 := by
  constructor
  · obtain ⟨s', hs⟩ := runs_agree (A := i386) (W := lookupPage) (Q := fun g e => e = g.pte) rfl
      (fun g e he => by rw [he]) (fun g e a he ha => by rw [he]; exact i386_agrees ha) ops
      (fun _ => none) (fun _ => {}) (fun _ => rfl) h
    rw [hs]
    rfl
  · obtain ⟨s', hs⟩ := runs_agree (A := riscv64) (W := pagedirLookupPte) (Q := Agrees) rfl
      (fun g e he => he.present) (fun g e a => riscv64_agrees) ops (fun _ => none) (fun _ => {})
      (fun _ => ⟨rfl, (nomatch ·), fun _ _ => rfl, fun _ => rfl⟩) h
    rw [hs]
    rfl

/-- A page mapped, written to, made read-only and unmapped. -/
theorem page_directories_agree_write :
    (runOps (riscv64.step pagedirLookupPte) (fun _ => none)
      [(5, .setPage 9 true), (5, .access true), (5, .isBit .dirty), (5, .setWritable false),
        (5, .access true), (5, .clearPage), (5, .getPage)]).map Prod.fst
      = some [.done, .bit true, .bit true, .done, .bit false, .done, .page none] :=
  (page_directories_agree _ (by decide)).2

/-- What eviction does: a page is mapped, written to, unmapped, and its dirty
    bit read. i386 answers that it is dirty, RISC-V that it is clean. -/
theorem dirty_bit_lost :
    (runOps (i386.step lookupPage) (fun _ => none)
        [(5, .setPage 9 true), (5, .access true), (5, .clearPage), (5, .isBit .dirty)]).map Prod.fst
        = some [.done, .bit true, .done, .bit true] ∧
      (runOps (riscv64.step pagedirLookupPte) (fun _ => none)
        [(5, .setPage 9 true), (5, .access true), (5, .clearPage), (5, .isBit .dirty)]).map Prod.fst
        = some [.done, .bit true, .done, .bit false] :=
  ⟨by decide, by decide⟩

end MavPagedir
