import Maverick.RunProofs
import Maverick.CountProofs

/-! # Open file descriptions — shared over fork, closed once

A slot of a process's descriptor table points to an open file description, and a description counts
the slots that point to it. `open` makes one with a count of 1, `fork` copies the parent's table
and adds one to every description in it, `close` and exit take one off, and the last one closes the
file.

Whatever the processes do, the counts are right and every file is closed once. What does not hold
is that the child's table is the parent's: `pcb_init` fills slots 0, 1 and 2 of every new table with
the console, and the copy skips the slots the parent has closed.

System calls are atomic here: one request, one step. -/

namespace MavOpenFile

open MavRun MavCount List Option
open Function (update update_self update_of_ne update_eq_self update_idem)

/-! ## Descriptions and tables -/

/-- The index of a slot, below `MAX_FILE_DESCRIPTOR`. -/
abbrev Fd := Fin 128

/-- A pointer to a description: one of the three for the console, or a block of the heap. -/
inductive Desc where
  | console (i : Fin 3)
  | heap (a : Nat)
  deriving DecidableEq, Repr

inductive OfdType where
  | file
  | dir
  deriving DecidableEq, Repr

/-- An open `struct file` or `struct dir`. -/
structure Handle where
  type : OfdType
  id : Nat
  deriving DecidableEq, Repr

/-- `struct open_file_desc`: what it has open, and its count. -/
structure OpenFileDesc where
  handle : Handle
  refCount : Int
  deriving DecidableEq, Repr

abbrev FdTable := Fd → Option Desc

/-- The descriptions, the processes' tables, and a record of every file and directory opened and
    closed. `stray` records the freed blocks that were still used. -/
structure Kernel where
  console : Fin 3 → Int
  ofds : Nat → Option OpenFileDesc
  procs : Nat → Option FdTable
  nextTid : Nat
  opened : List Handle
  closed : List Handle
  stray : List Nat

/-- What a slot of a live process points to. -/
def slots (k : Kernel) (x : Nat × Fd) : Option Desc := (k.procs x.1).bind fun t => t x.2

def setSlot (k : Kernel) (p : Nat) (i : Fd) (v : Option Desc) : Kernel :=
  { k with procs := update k.procs p ((k.procs p).map fun t => update t i v) }

def ofdDup (k : Kernel) : Desc → Kernel
  | .console i => { k with console := update k.console i (k.console i + 1) }
  | .heap a =>
    match k.ofds a with
    | none => { k with stray := a :: k.stray }
    | some o =>
      { k with ofds := update k.ofds a (some { o with refCount := o.refCount + 1 }) }

/-- `file_close` and `dir_close`. -/
def closeHandle (k : Kernel) (h : Handle) : Kernel := { k with closed := k.closed ++ [h] }

def ofdClose (k : Kernel) : Desc → Kernel
  | .console i =>
    if k.console i > 1 then { k with console := update k.console i (k.console i - 1) }
    else k
  | .heap a =>
    match k.ofds a with
    | none => { k with stray := a :: k.stray }
    | some o =>
      if o.refCount - 1 = 0 then
        closeHandle { k with ofds := update k.ofds a none } o.handle
      else
        { k with ofds := update k.ofds a (some { o with refCount := o.refCount - 1 }) }

/-- `ofd_create_file` and `ofd_create_dir`, at the block `malloc` gave. -/
def ofdCreate (k : Kernel) (h : Handle) (a : Nat) : Kernel :=
  { k with ofds := update k.ofds a (some ⟨h, 1⟩) }

/-- A file or directory is opened. -/
def openHandle (k : Kernel) (type : OfdType) : Kernel :=
  { k with opened := k.opened ++ [⟨type, k.opened.length⟩] }

/-- Give a slot a description, with a count for it. -/
def install (k : Kernel) (p : Nat) (i : Fd) (d : Desc) : Kernel :=
  setSlot (ofdDup k d) p i (some d)

/-- Close what a slot has open, and clear it. -/
def drop (k : Kernel) (p : Nat) (i : Fd) : Kernel :=
  match slots k (p, i) with
  | none => k
  | some d => setSlot (ofdClose k d) p i none

/-! ## Requests -/

/-- Slots 0, 1 and 2. -/
def stdFd (i : Fin 3) : Fd := i.castLE (by decide)

/-- `pcb_init`: an empty table, then the console in its first three slots. -/
def pcbInit (k : Kernel) (p : Nat) : Kernel :=
  (List.finRange 3).foldl (fun k i => install k p (stdFd i) (.console i))
    { k with procs := update k.procs p (some fun _ => none) }

def findFreeFd (t : FdTable) : Option Fd :=
  (List.finRange 128).find? fun i => decide (3 ≤ i.val) && (t i).isNone

/-- `SYS_OPEN`: what the file system found (a directory or not), whether
    `dir_open` has memory for it, and the block for the description. -/
def sysOpen (k : Kernel) (p : Nat) (t : FdTable) (found : Option Bool) (dirOk : Bool)
    (block : Option Nat) : Int × Kernel :=
  match found with
  | none => (-1, k)
  | some isDir =>
    let openFile : Handle := ⟨.file, k.opened.length⟩
    let k := openHandle k .file
    match findFreeFd t with
    | none => (-1, closeHandle k openFile)
    | some freeFd =>
      if isDir then
        if dirOk then
          let openDir : Handle := ⟨.dir, k.opened.length⟩
          let k := closeHandle (openHandle k .dir) openFile
          match block with
          | none => (-1, closeHandle k openDir)
          | some a => (freeFd.val, setSlot (ofdCreate k openDir a) p freeFd (some (.heap a)))
        else (-1, closeHandle k openFile)
      else
        match block with
        | none => (-1, closeHandle k openFile)
        | some a => (freeFd.val, setSlot (ofdCreate k openFile a) p freeFd (some (.heap a)))

def sysClose (k : Kernel) (p : Nat) (fd : Int) : Kernel :=
  if h : 0 ≤ fd ∧ fd < 128 then drop k p ⟨fd.toNat, by omega⟩ else k

/-- One turn of the loop of `fork_process` that copies the table. -/
def copySlot (parent child : Nat) (k : Kernel) (i : Fd) : Kernel :=
  match slots k (parent, i) with
  | none => k
  | some d =>
    let k := match slots k (child, i) with
      | none => k
      | some e => ofdClose k e
    setSlot (ofdDup k d) child i (some d)

/-- The loops that close every slot of a table. -/
def closeAll (k : Kernel) (p : Nat) : Kernel :=
  (List.finRange 128).foldl (fun k i => drop k p i) k

/-- Free a process's PCB. -/
def freePcb (k : Kernel) (p : Nat) : Kernel := { k with procs := update k.procs p none }

/-- `fork_process`: whether there is memory for the PCB, and for the address space. -/
def forkProcess (k : Kernel) (parent child : Nat) (pcb space : Bool) : Kernel :=
  if pcb then
    if space then (List.finRange 128).foldl (copySlot parent child) (pcbInit k child)
    else freePcb (closeAll (pcbInit k child) child) child
  else k

/-- `start_process`: whether there is memory for the PCB, and the program loads.
    When it does not, the PCB is freed with the console still in it. -/
def startProcess (k : Kernel) (child : Nat) (pcb load : Bool) : Kernel :=
  if pcb then
    if load then pcbInit k child else freePcb (pcbInit k child) child
  else k

def processExit (k : Kernel) (p : Nat) : Kernel := freePcb (closeAll k p) p

inductive Request where
  | open (p : Nat) (found : Option Bool) (dirOk : Bool) (block : Option Nat)
  | close (p : Nat) (fd : Int)
  | fork (p : Nat) (pcb space : Bool)
  | exec (p : Nat) (pcb load : Bool)
  | exit (p : Nat)

/-- One system call of a live process. `malloc` never gives a block in use. -/
def step (k : Kernel) : Request → Option Kernel
  | .open p found dirOk block =>
    match k.procs p with
    | none => none
    | some t =>
      if block.any fun a => (k.ofds a).isSome then none
      else some (sysOpen k p t found dirOk block).2
  | .close p fd => if (k.procs p).isSome then some (sysClose k p fd) else none
  | .fork p pcb space =>
    if (k.procs p).isSome then
      some (forkProcess { k with nextTid := k.nextTid + 1 } p k.nextTid pcb space)
    else none
  | .exec p pcb load =>
    if (k.procs p).isSome then
      some (startProcess { k with nextTid := k.nextTid + 1 } k.nextTid pcb load)
    else none
  | .exit p => if (k.procs p).isSome then some (processExit k p) else none

/-- `ofd_init` and `userprog_init`: the console, and the first thread's PCB. -/
def boot : Kernel :=
  pcbInit ⟨fun _ => 1, fun _ => none, fun _ => none, 2, [], [], []⟩ 1

/-! ## Slots one by one -/

variable {k k' : Kernel} {p : Nat} {t : FdTable} {i : Fd} {d : Desc} {loose : List Handle}

theorem slots_of (hp : k.procs p = some t) (i : Fd) : slots k (p, i) = t i := by
  rw [slots, hp]
  rfl

/-- Writing a slot; descriptions may have changed before. -/
theorem slots_setSlot (hk : k'.procs = k.procs) (hp : k.procs p = some t) (i : Fd)
    (v : Option Desc) : slots (setSlot k' p i v) = update (slots k) (p, i) v := by
  funext ⟨q, j⟩
  by_cases hq : q = p
  · subst hq
    have hset : (setSlot k' q i v).procs q = some (update t i v) := by
      show update k'.procs q _ q = _
      rw [update_self, hk, hp]
      rfl
    rw [slots_of hset]
    by_cases hj : j = i
    · rw [hj, update_self, update_self]
    · rw [update_of_ne hj, update_of_ne (fun h => hj (Prod.mk.inj h).2), slots_of hp]
  · rw [update_of_ne (fun h => hq (Prod.mk.inj h).1)]
    show (update k'.procs p _ q).bind _ = _
    rw [update_of_ne hq, hk]
    rfl

@[simp] theorem procs_ofdDup (k : Kernel) (d : Desc) : (ofdDup k d).procs = k.procs := by
  cases d with
  | console i => rfl
  | heap a =>
    rw [ofdDup]
    split <;> rfl

@[simp] theorem procs_ofdClose (k : Kernel) (d : Desc) : (ofdClose k d).procs = k.procs := by
  cases d with
  | console i =>
    rw [ofdClose]
    split <;> rfl
  | heap a =>
    rw [ofdClose]
    split
    · rfl
    · split <;> rfl

/-! ## The invariant -/

/-- Counts and closes, with some handles open that are in no description yet. -/
structure Inv (loose : List Handle) (k : Kernel) : Prop where
  counts : ∀ a o, k.ofds a = some o →
    ∃ n : Nat, 0 < n ∧ o.refCount = n ∧ Counts (slots k) (.heap a) n
  pointed : ∀ x a, slots k x = some (.heap a) → ∃ o, k.ofds a = some o
  opened : ∀ a o, k.ofds a = some o → o.handle ∈ k.opened ∧ o.handle ∉ k.closed ∧ o.handle ∉ loose
  distinct : ∀ a b o o', k.ofds a = some o → k.ofds b = some o' → o.handle = o'.handle → a = b
  once : ∀ h ∈ k.opened, h ∉ loose → (∀ a o, k.ofds a = some o → o.handle ≠ h) →
    k.closed.count h = 1
  waiting : ∀ h ∈ loose, h ∈ k.opened ∧ h ∉ k.closed
  fresh : ∀ h ∈ k.opened, h.id < k.opened.length
  past : ∀ h ∈ k.closed, h ∈ k.opened
  stray : k.stray = []
  tids : ∀ p, k.nextTid ≤ p → k.procs p = none

/-- Only the slots with a file or directory, the descriptions and the records matter. -/
theorem Inv.of_eq (h : Inv loose k) (hofds : k'.ofds = k.ofds) (hopened : k'.opened = k.opened)
    (hclosed : k'.closed = k.closed) (hstray : k'.stray = k.stray)
    (hslots : ∀ x a, slots k' x = some (.heap a) ↔ slots k x = some (.heap a))
    (htids : ∀ p, k'.nextTid ≤ p → k'.procs p = none) : Inv loose k' where
  counts := by
    intro a o ho
    rw [hofds] at ho
    obtain ⟨n, hpos, heq, hn⟩ := h.counts a o ho
    exact ⟨n, hpos, heq, hn.congr fun x => hslots x a⟩
  pointed := by
    intro x a hx
    rw [hofds]
    exact h.pointed x a ((hslots x a).mp hx)
  opened := by rw [hofds, hopened, hclosed]; exact h.opened
  distinct := by rw [hofds]; exact h.distinct
  once := by rw [hofds, hopened, hclosed]; exact h.once
  waiting := by rw [hopened, hclosed]; exact h.waiting
  fresh := by rw [hopened]; exact h.fresh
  past := by rw [hopened, hclosed]; exact h.past
  stray := hstray.trans h.stray
  tids := htids

/-- A live process has a tid that was given out. -/
theorem Inv.lt_nextTid (h : Inv loose k) (hp : k.procs p = some t) : p < k.nextTid :=
  Nat.lt_of_not_le fun hle => nomatch (h.tids p hle).symm.trans hp

theorem tids_setSlot (htids : ∀ q, k.nextTid ≤ q → k.procs q = none) (p : Nat) (i : Fd)
    (v : Option Desc) : ∀ q, k.nextTid ≤ q → (setSlot k p i v).procs q = none := by
  intro q hq
  show update k.procs p _ q = none
  by_cases hqp : q = p
  · rw [hqp, update_self, ← hqp, htids q hq]
    rfl
  · rw [update_of_ne hqp, htids q hq]

/-- A slot that has no file gets none either. -/
theorem Inv.setSlot (h : Inv loose k) (hp : k.procs p = some t) (hold : ∀ a, t i ≠ some (.heap a))
    {v : Option Desc} (hnew : ∀ a, v ≠ some (.heap a)) : Inv loose (setSlot k p i v) := by
  refine h.of_eq rfl rfl rfl rfl (fun x a => ?_) (tids_setSlot h.tids p i v)
  rw [slots_setSlot rfl hp]
  by_cases hx : x = (p, i)
  · rw [hx, update_self, slots_of hp]
    exact ⟨fun hv => absurd hv (hnew a), fun ht => absurd ht (hold a)⟩
  · rw [update_of_ne hx]

variable {a child parent : Nat} {o : OpenFileDesc}

/-- The descriptions after one of them changed its count. -/
theorem ofds_update (ho : k.ofds a = some o) (c : Int) (b : Nat) {o' : OpenFileDesc}
    (hb : update k.ofds a (some { o with refCount := c }) b = some o') :
    ∃ old, k.ofds b = some old ∧ o'.handle = old.handle ∧
      (b ≠ a → o' = old) ∧ (b = a → o'.refCount = c) := by
  rcases update_cases hb with ⟨rfl, ⟨⟩⟩ | ⟨hba, hb⟩
  · exact ⟨o, ho, rfl, fun hne => absurd rfl hne, fun _ => rfl⟩
  · exact ⟨o', hb, rfl, fun _ => rfl, fun heq => absurd heq hba⟩

theorem ofds_update_kept (ho : k.ofds a = some o) (c : Int) (b : Nat)
    {old : OpenFileDesc} (hb : k.ofds b = some old) :
    ∃ o', update k.ofds a (some { o with refCount := c }) b = some o' ∧
      o'.handle = old.handle := by
  by_cases hba : b = a
  · rw [hba, update_self]
    rw [hba, ho] at hb
    exact ⟨_, rfl, by rw [← some.inj hb]⟩
  · rw [update_of_ne hba]
    exact ⟨old, hb, rfl⟩

/-- A description changes its count, and a slot what it points to. -/
theorem Inv.recount (h : Inv loose k) (hp : k.procs p = some t) (ho : k.ofds a = some o) {c : Int}
    {v : Option Desc}
    (hself : ∃ n : Nat, 0 < n ∧ c = n ∧ Counts (update (slots k) (p, i) v) (.heap a) n)
    (hother : ∀ b n, b ≠ a → Counts (slots k) (.heap b) n →
      Counts (update (slots k) (p, i) v) (.heap b) n)
    (hv : ∀ b, v = some (.heap b) → ∃ o, k.ofds b = some o) :
    Inv loose (MavOpenFile.setSlot
      { k with ofds := update k.ofds a (some { o with refCount := c }) } p i v) := by
  have hslots : slots (MavOpenFile.setSlot
      { k with ofds := update k.ofds a (some { o with refCount := c }) } p i v) =
      update (slots k) (p, i) v := slots_setSlot rfl hp i v
  refine { h with
    counts := fun b o' hb => ?_, pointed := fun x b hx => ?_, opened := fun b o' hb => ?_
    distinct := fun b b' o1 o2 hb hb' heq => ?_, once := fun x hx hloose hnone => ?_
    tids := tids_setSlot h.tids p i v }
  · obtain ⟨old, hold, -, hne, heq⟩ := ofds_update ho c b hb
    rw [hslots]
    by_cases hba : b = a
    · rw [hba, heq hba]
      exact hself
    · obtain ⟨n, hpos, hcount, hn⟩ := h.counts b old hold
      rw [hne hba]
      exact ⟨n, hpos, hcount, hother b n hba hn⟩
  · rw [hslots] at hx
    obtain ⟨old, hb⟩ : ∃ old, k.ofds b = some old := by
      rcases update_cases hx with ⟨-, hx⟩ | ⟨-, hx⟩
      · exact hv b hx
      · exact h.pointed x b hx
    obtain ⟨o', ho', -⟩ := ofds_update_kept ho c b hb
    exact ⟨o', ho'⟩
  · obtain ⟨old, hold, heq, -⟩ := ofds_update ho c b hb
    rw [heq]
    exact h.opened b old hold
  · obtain ⟨old1, hb, he1, -⟩ := ofds_update ho c b hb
    obtain ⟨old2, hb', he2, -⟩ := ofds_update ho c b' hb'
    exact h.distinct b b' old1 old2 hb hb' (he1.symm.trans (heq.trans he2))
  · refine h.once x hx hloose fun b old hb => ?_
    obtain ⟨o', ho', heq⟩ := ofds_update_kept ho c b hb
    rw [← heq]
    exact hnone b o' ho'

/-- **DUP**: a slot takes a description, with a count. -/
theorem Inv.install (h : Inv loose k) (hp : k.procs p = some t) (hi : t i = none)
    (hd : ∀ a, d = .heap a → ∃ o, k.ofds a = some o) : Inv loose (install k p i d) := by
  cases d with
  | console c =>
    have hdup : Inv loose (ofdDup k (.console c)) :=
      h.of_eq rfl rfl rfl rfl (fun _ _ => Iff.rfl) h.tids
    exact hdup.setSlot hp (fun a ha => nomatch hi.symm.trans ha) nofun
  | heap a =>
    obtain ⟨o, ho⟩ := hd a rfl
    obtain ⟨n, -, hcount, hn⟩ := h.counts a o ho
    have hfree : ∀ b, slots k (p, i) ≠ some (.heap b) := by
      intro b
      rw [slots_of hp, hi]
      exact nofun
    rw [MavOpenFile.install, ofdDup, ho]
    refine h.recount hp ho ⟨n + 1, n.succ_pos, by rw [hcount]; rfl, hn.take (hfree a)⟩
      (fun b m hba hm => ?_) fun b hb => hd b (some.inj hb)
    exact hm.other (hfree b) fun hd => hba (Desc.heap.inj (some.inj hd)).symm

/-- The other descriptions' counts when a slot gives one up. -/
theorem counts_other {x : Nat × Fd} {b n : Nat} (hx : slots k x = some (.heap a)) (hb : b ≠ a)
    (hn : Counts (slots k) (.heap b) n) :
    Counts (update (slots k) x none) (.heap b) n := by
  refine hn.other (fun heq => hb ?_) nofun
  exact (Desc.heap.inj (some.inj (hx.symm.trans heq))).symm

/-- The last slot gives the description up, which is freed: its file is in no
    description any more. -/
theorem Inv.free (h : Inv loose k) (hp : k.procs p = some t)
    (hd : slots k (p, i) = some (.heap a)) (ho : k.ofds a = some o)
    (hone : Counts (slots k) (.heap a) 1) :
    Inv (o.handle :: loose) (MavOpenFile.setSlot { k with ofds := update k.ofds a none } p i none) := by
  have hslots : slots (MavOpenFile.setSlot { k with ofds := update k.ofds a none } p i none) =
      update (slots k) (p, i) none := slots_setSlot rfl hp i _
  have hofds : ∀ b o', update k.ofds a none b = some o' → b ≠ a ∧ k.ofds b = some o' :=
    fun _ _ hb => of_update hb nofun
  refine { h with
    counts := fun b o' hb => ?_, pointed := fun x b hx => ?_, opened := fun b o' hb => ?_
    distinct := fun b c o' o'' hb hc => ?_, once := fun y hy hloose hnone => ?_
    waiting := fun y hy => ?_, tids := tids_setSlot h.tids p i _ }
  · obtain ⟨hba, hb⟩ := hofds b o' hb
    obtain ⟨n, hpos, hcount, hn⟩ := h.counts b o' hb
    rw [hslots]
    exact ⟨n, hpos, hcount, counts_other hd hba hn⟩
  · rw [hslots] at hx
    obtain ⟨hxi, hx⟩ := of_update hx nofun
    obtain ⟨o', hb⟩ := h.pointed x b hx
    -- nobody else points to the description that goes
    have hba : b ≠ a := fun heq => hxi (hone.unique le_rfl (heq ▸ hx) hd)
    exact ⟨o', (update_of_ne hba ..).trans hb⟩
  · obtain ⟨hba, hb⟩ := hofds b o' hb
    obtain ⟨hopen, hclosed, hloose⟩ := h.opened b o' hb
    refine ⟨hopen, hclosed, fun hmem => ?_⟩
    rcases mem_cons.mp hmem with heq | hmem
    · exact hba (h.distinct b a o' o hb ho heq)
    · exact hloose hmem
  · exact h.distinct b c o' o'' (hofds b o' hb).2 (hofds c o'' hc).2
  · rw [mem_cons, not_or] at hloose
    refine h.once y hy hloose.2 fun b o' hb heq => ?_
    by_cases hba : b = a
    · rw [hba, ho] at hb
      exact hloose.1 (by rw [some.inj hb]; exact heq.symm)
    · exact hnone b o' ((update_of_ne hba ..).trans hb) heq
  · rcases mem_cons.mp hy with rfl | hy
    · exact ⟨(h.opened a o ho).1, (h.opened a o ho).2.1⟩
    · exact h.waiting y hy

/-- A handle in no description is closed. -/
theorem Inv.closeHandle {x : Handle} (h : Inv (x :: loose) k) (hx : x ∉ loose) :
    Inv loose (closeHandle k x) := by
  obtain ⟨hopen, hunclosed⟩ := h.waiting x (mem_cons_self ..)
  have hin : ∀ {y : Handle}, y ∈ k.closed ++ [x] → y ∈ k.closed ∨ y = x :=
    fun hy => (mem_append.mp hy).imp_right mem_singleton.mp
  refine { h with
    opened := fun a o ho => ?_, once := fun y hy hloose hnone => ?_, waiting := fun y hy => ?_
    past := fun y hy => ?_ }
  · obtain ⟨hopen, hclosed, hl⟩ := h.opened a o ho
    rw [mem_cons, not_or] at hl
    exact ⟨hopen, fun hy => (hin hy).elim hclosed hl.1, hl.2⟩
  · show (k.closed ++ [x]).count y = 1
    rw [count_append, count_singleton]
    by_cases hyx : x = y
    · rw [← hyx, count_eq_zero.mpr hunclosed, if_pos (beq_self_eq_true x)]
    · rw [h.once y hy (fun hl => (mem_cons.mp hl).elim (Ne.symm hyx) hloose) hnone,
        if_neg (fun hbeq => hyx (eq_of_beq hbeq))]
  · obtain ⟨hy', hc⟩ := h.waiting y (mem_cons_of_mem _ hy)
    exact ⟨hy', fun hmem => (hin hmem).elim hc fun heq => hx (heq ▸ hy)⟩
  · rcases hin hy with hy | rfl
    · exact h.past y hy
    · exact hopen

/-- **CLOSE**: a slot gives its description up; the last one closes the file. -/
theorem Inv.drop (h : Inv loose k) (p : Nat) (i : Fd) : Inv loose (drop k p i) := by
  rw [MavOpenFile.drop]
  split
  · exact h
  rename_i d hd
  obtain ⟨t, hp, hi⟩ : ∃ t, k.procs p = some t ∧ t i = some d := bind_eq_some_iff.mp hd
  cases d with
  | console c =>
    have hclose : Inv loose (ofdClose k (.console c)) := by
      rw [ofdClose]
      split
      · exact h.of_eq rfl rfl rfl rfl (fun _ _ => Iff.rfl) h.tids
      · exact h
    refine hclose.setSlot (t := t) (by rw [procs_ofdClose]; exact hp) (fun a ha => ?_) nofun
    exact nomatch some.inj (hi.symm.trans ha)
  | heap a =>
    obtain ⟨o, ho⟩ := h.pointed _ a hd
    obtain ⟨n, hpos, hcount, hn⟩ := h.counts a o ho
    have hself := hn.drop hd (x := none) nofun
    rw [ofdClose, ho]
    dsimp only
    split
    · next hlast =>
        obtain rfl : n = 1 := by omega
        exact (h.free hp hd ho hn).closeHandle (h.opened a o ho).2.2
    · next hmore =>
        exact h.recount hp ho ⟨n - 1, by omega, by omega, hself⟩
          (fun b m hba hm => counts_other hd hba hm) nofun

/-! ## Opening -/

/-- A new handle is not in any record. -/
theorem Inv.openHandle (h : Inv loose k) (type : OfdType) :
    Inv (loose ++ [⟨type, k.opened.length⟩]) (openHandle k type) := by
  have hnew : (⟨type, k.opened.length⟩ : Handle) ∉ k.opened :=
    fun hmem => absurd (h.fresh _ hmem) (Nat.lt_irrefl _)
  have hmem : ∀ {y : Handle}, y ∈ k.opened → y ∈ k.opened ++ [⟨type, k.opened.length⟩] :=
    fun hy => mem_append_left _ hy
  refine ⟨h.counts, h.pointed, fun a o ho => ?_, h.distinct, fun y hy hloose hnone => ?_,
    fun y hy => ?_, fun y hy => ?_, fun y hy => hmem (h.past y hy), h.stray, h.tids⟩
  · obtain ⟨hopen, hclosed, hl⟩ := h.opened a o ho
    refine ⟨hmem hopen, hclosed, fun hy => ?_⟩
    rcases mem_append.mp hy with hy | hy
    · exact hl hy
    · exact hnew (mem_singleton.mp hy ▸ hopen)
  · rw [mem_append, not_or] at hloose
    rcases mem_append.mp hy with hy | hy
    · exact h.once y hy hloose.1 hnone
    · exact absurd hy hloose.2
  · rcases mem_append.mp hy with hy | hy
    · exact ⟨hmem (h.waiting y hy).1, (h.waiting y hy).2⟩
    · rw [mem_singleton.mp hy]
      exact ⟨mem_append_right _ (mem_singleton.mpr rfl), fun hc => hnew (h.past _ hc)⟩
  · show y.id < (k.opened ++ [_]).length
    rw [length_append, length_singleton]
    rcases mem_append.mp hy with hy | hy
    · exact Nat.lt_succ_of_lt (h.fresh y hy)
    · rw [mem_singleton.mp hy]
      exact Nat.lt_succ_self _

/-- **CREATE**: a new description takes the handle, and a free slot takes the description. -/
theorem Inv.create {x : Handle} (h : Inv [x] k) (hp : k.procs p = some t) (hi : t i = none)
    (ha : k.ofds a = none) :
    Inv [] (MavOpenFile.setSlot (ofdCreate k x a) p i (some (.heap a))) := by
  have hslots : slots (MavOpenFile.setSlot (ofdCreate k x a) p i (some (.heap a))) =
      update (slots k) (p, i) (some (.heap a)) := slots_setSlot rfl hp i _
  have hfree : ∀ b, slots k (p, i) ≠ some (.heap b) := by
    intro b
    rw [slots_of hp, hi]
    exact nofun
  have hnobody : ∀ y, slots k y ≠ some (.heap a) := fun y hy => by
    obtain ⟨o, ho⟩ := h.pointed y a hy
    exact nomatch ha.symm.trans ho
  have hx := h.waiting x (mem_singleton.mpr rfl)
  have hold : ∀ b o', k.ofds b = some o' → o'.handle ≠ x := fun b o' hb heq =>
    (h.opened b o' hb).2.2 (mem_singleton.mpr heq)
  refine ⟨fun b o' hb => ?_, fun y b hy => ?_, fun b o' hb => ?_, fun b c o' o'' hb hc heq => ?_,
    fun y hy _ hnone => ?_, nofun, h.fresh, h.past, h.stray,
    tids_setSlot h.tids p i _⟩
  · rw [hslots]
    rcases update_cases hb with ⟨rfl, ⟨⟩⟩ | ⟨hba, hb⟩
    · exact ⟨1, one_pos, rfl, (counts_zero hnobody).take (hfree b)⟩
    · obtain ⟨n, hpos, hcount, hn⟩ := h.counts b o' hb
      exact ⟨n, hpos, hcount, hn.other (hfree b) fun hd => hba (Desc.heap.inj (some.inj hd)).symm⟩
  · rw [hslots] at hy
    by_cases hba : b = a
    · exact ⟨_, by rw [hba]; exact update_self ..⟩
    · obtain ⟨-, hy⟩ := of_update hy fun heq => hba (Desc.heap.inj (some.inj heq)).symm
      obtain ⟨o, ho⟩ := h.pointed y b hy
      exact ⟨o, (update_of_ne hba ..).trans ho⟩
  · rcases update_cases hb with ⟨-, ⟨⟩⟩ | ⟨-, hb⟩
    · exact ⟨hx.1, hx.2, not_mem_nil⟩
    · obtain ⟨hopen, hclosed, -⟩ := h.opened b o' hb
      exact ⟨hopen, hclosed, not_mem_nil⟩
  · rcases update_cases hb with ⟨rfl, ⟨⟩⟩ | ⟨-, hb⟩
    · rcases update_cases hc with ⟨rfl, -⟩ | ⟨-, hc⟩
      · rfl
      · exact absurd heq.symm (hold c o'' hc)
    · rcases update_cases hc with ⟨-, ⟨⟩⟩ | ⟨-, hc⟩
      · exact absurd heq (hold b o' hb)
      · exact h.distinct b c o' o'' hb hc heq
  · have hyx : y ≠ x := fun heq =>
      hnone a ⟨x, 1⟩ (update_self ..) heq.symm
    refine h.once y hy (fun hmem => hyx (mem_singleton.mp hmem)) fun b o' hb => ?_
    by_cases hba : b = a
    · rw [hba, ha] at hb
      exact nomatch hb
    · exact hnone b o' ((update_of_ne hba ..).trans hb)

theorem findFreeFd_none {t : FdTable} (h : findFreeFd t = some i) : t i = none := by
  have hp := List.find?_some h
  rw [Bool.and_eq_true] at hp
  exact isNone_iff_eq_none.mp hp.2

theorem Inv.sysOpen (h : Inv [] k) (hp : k.procs p = some t) (found : Option Bool) (dirOk : Bool)
    {block : Option Nat} (hblock : ∀ a, block = some a → k.ofds a = none) :
    Inv [] (sysOpen k p t found dirOk block).2 := by
  cases found with
  | none => exact h
  | some isDir =>
    rw [MavOpenFile.sysOpen]
    have hfile := h.openHandle .file
    have hgone := hfile.closeHandle not_mem_nil
    cases hfd : findFreeFd t with
    | none => exact hgone
    | some freeFd =>
      have hfree := findFreeFd_none hfd
      cases isDir with
      | true =>
        cases dirOk with
        | false => exact hgone
        | true =>
          have hclosed := (hfile.openHandle .dir).closeHandle fun hmem =>
            nomatch (Handle.mk.inj (mem_singleton.mp hmem)).1
          cases block with
          | none => exact hclosed.closeHandle not_mem_nil
          | some a => exact hclosed.create hp hfree (hblock a rfl)
      | false =>
        cases block with
        | none => exact hgone
        | some a => exact hfile.create hp hfree (hblock a rfl)

/-! ## Tables that come and go -/

/-- A table that has no file takes the place of another. -/
theorem Inv.setProc (h : Inv loose k) {v : Option FdTable} (hv : v = none ∨ p < k.nextTid)
    (hold : ∀ i a, slots k (p, i) ≠ some (.heap a))
    (hnew : ∀ i a, (v.bind fun t => t i) ≠ some (.heap a)) :
    Inv loose { k with procs := update k.procs p v } := by
  refine h.of_eq rfl rfl rfl rfl (fun ⟨q, j⟩ a => ?_) fun q hq => ?_
  · show (update k.procs p v q).bind _ = _ ↔ _
    by_cases hqp : q = p
    · rw [hqp, update_self]
      exact iff_of_false (hnew j a) (hold j a)
    · rw [update_of_ne hqp]
      rfl
  · show update k.procs p v q = none
    by_cases hqp : q = p
    · rw [hqp, update_self]
      exact hv.resolve_right (Nat.not_lt.mpr (hqp ▸ hq))
    · rw [update_of_ne hqp, h.tids q hq]

/-- A PCB goes whose table has no file. -/
theorem Inv.freePcb (h : Inv loose k) (hclean : ∀ i a, slots k (p, i) ≠ some (.heap a)) :
    Inv loose (freePcb k p) :=
  h.setProc (.inl rfl) hclean nofun

theorem procs_setSlot (hp : k.procs p = some t) (i : Fd) (v : Option Desc) :
    (setSlot k p i v).procs = update k.procs p (some (update t i v)) := by
  rw [setSlot, hp]
  rfl

theorem procs_install (hp : k.procs p = some t) (i : Fd) (d : Desc) :
    (install k p i d).procs = update k.procs p (some (update t i (some d))) := by
  have hdup : (ofdDup k d).procs p = some t := by rw [procs_ofdDup, hp]
  rw [install, procs_setSlot hdup, procs_ofdDup]

/-- What `pcb_init` puts into a table. -/
def stdTable : FdTable := fun i => if h : i.val < 3 then some (.console ⟨i.val, h⟩) else none

theorem procs_pcbInit (k : Kernel) (p : Nat) :
    (pcbInit k p).procs = update k.procs p (some stdTable) := by
  have hempty : ({ k with procs := update k.procs p (some fun _ => none) } : Kernel).procs p =
      some fun _ => none := update_self ..
  have h0 := procs_install hempty (stdFd 0) (.console 0)
  have h1 := procs_install (by rw [h0, update_self]) (stdFd 1) (.console 1)
  have h2 := procs_install (by rw [h1, update_self]) (stdFd 2) (.console 2)
  have htable : stdTable = update (update (update (fun _ => none)
      (stdFd 0) (some (.console 0))) (stdFd 1) (some (.console 1))) (stdFd 2) (some (.console 2)) := by
    decide +kernel
  rw [htable]
  refine h2.trans ?_
  rw [h1, h0, update_idem, update_idem, update_idem]

/-- A new PCB, at a tid that was just given out. -/
theorem Inv.pcbInit (h : Inv loose k) (hp : k.procs p = none) (hlt : p < k.nextTid) :
    Inv loose (pcbInit k p) := by
  have hempty : ({ k with procs := update k.procs p (some fun _ => none) } : Kernel).procs p =
      some fun _ => none := update_self ..
  have hnew : Inv loose { k with procs := update k.procs p (some fun _ => none) } := by
    refine h.setProc (.inr hlt) (fun i a hi => ?_) nofun
    rw [slots, hp] at hi
    exact nomatch hi
  have hconsole : ∀ {k : Kernel} {c : Fin 3} (a : Nat), Desc.console c = .heap a →
      ∃ o, k.ofds a = some o := nofun
  have h0 := procs_install hempty (stdFd 0) (.console 0)
  have h1 := procs_install (by rw [h0, update_self]) (stdFd 1) (.console 1)
  have i0 := hnew.install (d := .console 0) hempty (i := stdFd 0) rfl hconsole
  have i1 := i0.install (d := .console 1) (by rw [h0, update_self]) (i := stdFd 1)
    (by rw [update_of_ne (by decide)]) hconsole
  exact i1.install (d := .console 2) (by rw [h1, update_self]) (i := stdFd 2)
    (by rw [update_of_ne (by decide), update_of_ne (by decide)]) hconsole

theorem slots_drop (k : Kernel) (p : Nat) (i : Fd) :
    slots (drop k p i) = update (slots k) (p, i) none := by
  rw [drop]
  split
  · next hnone => rw [← hnone, update_eq_self]
  · next d hd =>
      obtain ⟨t, hp, -⟩ := bind_eq_some_iff.mp hd
      exact slots_setSlot (procs_ofdClose ..) hp i none

/-- Closing slots one after the other. -/
theorem Inv.foldl_drop (p : Nat) (is : List Fd) {k : Kernel} : Inv loose k →
    Inv loose (is.foldl (fun k i => MavOpenFile.drop k p i) k) := by
  induction is generalizing k with
  | nil => intro h; exact h
  | cons i is ih => intro h; exact ih (h.drop p i)

theorem foldl_drop_none (p : Nat) (j : Fd) (is : List Fd) (k : Kernel) :
    slots k (p, j) = none ∨ j ∈ is →
    slots (is.foldl (fun k i => drop k p i) k) (p, j) = none := by
  induction is generalizing k with
  | nil => intro h; exact h.resolve_right not_mem_nil
  | cons i is ih =>
    intro h
    refine ih _ ?_
    rw [slots_drop]
    by_cases hj : j = i
    · rw [hj, update_self]
      exact .inl rfl
    · rw [update_of_ne (fun heq => hj (Prod.mk.inj heq).2)]
      exact h.imp_right fun hmem => (mem_cons.mp hmem).resolve_left hj

theorem Inv.closeAll_freePcb (h : Inv loose k) (p : Nat) :
    Inv loose (MavOpenFile.freePcb (closeAll k p) p) := by
  refine Inv.freePcb (Inv.foldl_drop p _ h) fun i a hi => ?_
  rw [closeAll, foldl_drop_none p i _ k (.inr (mem_finRange i))] at hi
  exact nomatch hi

/-! ## The copy of a table -/

theorem ofdDup_setSlot (k : Kernel) (p : Nat) (i : Fd) (v : Option Desc) (d : Desc) :
    ofdDup (setSlot k p i v) d = setSlot (ofdDup k d) p i v := by
  cases d with
  | console c => rfl
  | heap a =>
    rw [ofdDup, ofdDup, show (setSlot k p i v).ofds a = k.ofds a from rfl]
    cases k.ofds a <;> rfl

theorem setSlot_setSlot (k : Kernel) (p : Nat) (i : Fd) (v w : Option Desc) :
    setSlot (setSlot k p i v) p i w = setSlot k p i w := by
  have hprocs : (setSlot (setSlot k p i v) p i w).procs = (setSlot k p i w).procs := by
    show update (update k.procs p _) p (Option.map _ (update k.procs p _ p)) = update k.procs p _
    rw [update_idem, update_self, Option.map_map]
    congr 2
    funext t
    exact update_idem ..
  exact congrArg (fun procs => ({ k with procs := procs } : Kernel)) hprocs

/-- A turn of the copy closes the child's slot and gives it the parent's description. -/
theorem copySlot_eq (hd : slots k (parent, i) = some d) :
    copySlot parent child k i = install (drop k child i) child i d := by
  rw [copySlot, hd, install, drop]
  cases hc : slots k (child, i) with
  | none => rfl
  | some e =>
    rw [ofdDup_setSlot, setSlot_setSlot]

theorem procs_drop (hp : k.procs p = some t) (i : Fd) :
    (drop k p i).procs = update k.procs p (some (update t i none)) := by
  rw [drop]
  split
  · next hnone =>
      rw [slots_of hp] at hnone
      rw [← hnone, update_eq_self, ← hp, update_eq_self]
  · next d hd =>
      have hclose : (ofdClose k d).procs p = some t := by rw [procs_ofdClose, hp]
      rw [procs_setSlot hclose, procs_ofdClose]

/-- What one turn of the copy does to the tables. -/
theorem procs_copySlot {u : FdTable}
    (hp : k.procs parent = some t) (hc : k.procs child = some u) (i : Fd) :
    (copySlot parent child k i).procs =
      update k.procs child (some (update u i ((t i).or (u i)))) := by
  cases ht : t i with
  | none =>
    rw [copySlot, slots_of hp, ht, none_or, update_eq_self, ← hc, update_eq_self]
  | some d =>
    have hdrop := procs_drop hc i
    rw [copySlot_eq (by rw [slots_of hp, ht]),
      procs_install (by rw [hdrop, update_self]), hdrop, update_idem,
      update_idem]
    rfl

theorem Inv.copySlot (h : Inv loose k) (hne : parent ≠ child) {u : FdTable}
    (hc : k.procs child = some u) (i : Fd) : Inv loose (copySlot parent child k i) := by
  cases hd : slots k (parent, i) with
  | none =>
    rw [MavOpenFile.copySlot, hd]
    exact h
  | some d =>
    rw [copySlot_eq hd]
    have hdrop := h.drop child i
    have hparent : slots (MavOpenFile.drop k child i) (parent, i) = some d := by
      rw [slots_drop, update_of_ne (fun heq => hne (Prod.mk.inj heq).1), hd]
    refine hdrop.install (t := update u i none)
      (by rw [procs_drop hc, update_self]) (update_self ..) fun a ha => ?_
    exact hdrop.pointed _ a (ha ▸ hparent)

/-- **COPY**: every slot of the child gets what the parent's has, and keeps its
    own where the parent's is empty. -/
theorem foldl_copySlot (hne : parent ≠ child) (is : List Fd) {k : Kernel} {t u : FdTable} :
    Inv loose k → k.procs parent = some t →
      k.procs child = some u →
      Inv loose (is.foldl (MavOpenFile.copySlot parent child) k) ∧
      (is.foldl (MavOpenFile.copySlot parent child) k).procs parent = some t ∧
      (is.foldl (MavOpenFile.copySlot parent child) k).procs child =
        some fun i => if i ∈ is then (t i).or (u i) else u i := by
  induction is generalizing k t u with
  | nil =>
    intro h hp hc
    refine ⟨h, hp, hc.trans ?_⟩
    simp
  | cons j is ih =>
    intro h hp hc
    have hprocs := procs_copySlot hp hc j
    obtain ⟨hinv, hparent, hchild⟩ := ih (u := update u j ((t j).or (u j)))
      (h.copySlot hne hc j) (by rw [hprocs, update_of_ne hne, hp])
      (by rw [hprocs, update_self])
    refine ⟨hinv, hparent, hchild.trans (congrArg some (funext fun i => ?_))⟩
    by_cases hij : i = j
    · subst hij
      cases t i <;> simp
    · simp [hij]

/-- A tid is given out. -/
theorem Inv.nextTid (h : Inv loose k) : Inv loose { k with nextTid := k.nextTid + 1 } :=
  h.of_eq rfl rfl rfl rfl (fun _ _ => Iff.rfl) fun q hq => h.tids q (Nat.le_of_succ_le hq)

theorem Inv.newPcb (h : Inv loose k) :
    Inv loose (MavOpenFile.pcbInit { k with nextTid := k.nextTid + 1 } k.nextTid) :=
  h.nextTid.pcbInit (h.tids _ le_rfl) (Nat.lt_succ_self _)

/-- The tables after a fork that succeeds. -/
theorem forkProcess_true (h : Inv loose k) (hp : k.procs p = some t) :
    Inv loose (forkProcess { k with nextTid := k.nextTid + 1 } p k.nextTid true true) ∧
    (forkProcess { k with nextTid := k.nextTid + 1 } p k.nextTid true true).procs p = some t ∧
    (forkProcess { k with nextTid := k.nextTid + 1 } p k.nextTid true true).procs k.nextTid =
      some fun i => (t i).or (stdTable i) := by
  have hne : p ≠ k.nextTid := Nat.ne_of_lt (h.lt_nextTid hp)
  have hprocs := procs_pcbInit { k with nextTid := k.nextTid + 1 } k.nextTid
  obtain ⟨hinv, hparent, hchild⟩ := foldl_copySlot hne (List.finRange 128) h.newPcb
    (by rw [hprocs, update_of_ne hne]; exact hp) (by rw [hprocs, update_self])
  rw [forkProcess, if_pos rfl, if_pos rfl]
  refine ⟨hinv, hparent, hchild.trans ?_⟩
  simp

theorem Inv.forkProcess (h : Inv loose k) (hp : k.procs p = some t) (pcb space : Bool) :
    Inv loose (forkProcess { k with nextTid := k.nextTid + 1 } p k.nextTid pcb space) := by
  cases pcb with
  | false => exact h.nextTid
  | true =>
    cases space with
    | true => exact (forkProcess_true h hp).1
    | false => exact h.newPcb.closeAll_freePcb k.nextTid

theorem Inv.startProcess (h : Inv loose k) (pcb load : Bool) :
    Inv loose (startProcess { k with nextTid := k.nextTid + 1 } k.nextTid pcb load) := by
  cases pcb with
  | false => exact h.nextTid
  | true =>
    cases load with
    | true => exact h.newPcb
    | false =>
      -- the table is freed with the console in it, and nothing else
      refine h.newPcb.freePcb fun i a hi => ?_
      rw [slots_of (t := stdTable) (by rw [procs_pcbInit, update_self]), stdTable] at hi
      split at hi
      · exact nomatch some.inj hi
      · exact nomatch hi

/-- **STEP**: every system call keeps the counts. -/
theorem Inv.step (h : Inv [] k) {r : Request} (hs : step k r = some k') : Inv [] k' := by
  cases r with
  | «open» p found dirOk block =>
    simp only [MavOpenFile.step] at hs
    split at hs
    · exact nomatch hs
    · next t hp =>
        obtain ⟨hblock, hs⟩ := ite_none_left_eq_some.mp hs
        obtain rfl := some.inj hs
        refine h.sysOpen hp found dirOk fun a ha => ?_
        rw [ha, any_some] at hblock
        exact isSome_eq_false_iff.mp (eq_false_of_ne_true hblock)
          |> isNone_iff_eq_none.mp
  | close p fd =>
    obtain ⟨-, rfl⟩ := of_guard hs
    rw [sysClose]
    split
    · exact h.drop p _
    · exact h
  | fork p pcb space =>
    obtain ⟨hp, rfl⟩ := of_guard hs
    obtain ⟨t, hp⟩ := isSome_iff_exists.mp hp
    exact h.forkProcess hp pcb space
  | exec p pcb load =>
    obtain ⟨-, rfl⟩ := of_guard hs
    exact h.startProcess pcb load
  | exit p =>
    obtain ⟨-, rfl⟩ := of_guard hs
    exact h.closeAll_freePcb p

theorem inv_boot : Inv [] boot := by
  refine Inv.pcbInit ⟨nofun, nofun, nofun, nofun, nofun, nofun,
    nofun, nofun, rfl, fun _ _ => rfl⟩ rfl (by decide)

/-! ## Shared open files -/

/-- What holds of the descriptions in every state. -/
structure Shared (k : Kernel) : Prop where
  /-- a description counts the slots of live processes that point to it; there is one -/
  counts : ∀ a o, k.ofds a = some o →
    ∃ n : Nat, 0 < n ∧ o.refCount = n ∧ Counts (slots k) (.heap a) n
  /-- a slot points to a description that is there -/
  pointed : ∀ x a, slots k x = some (.heap a) → ∃ o, k.ofds a = some o
  /-- no freed description was ever used -/
  stray : k.stray = []
  /-- each description has a file or directory of its own, opened and not closed -/
  unclosed : ∀ a o, k.ofds a = some o → o.handle ∈ k.opened ∧ o.handle ∉ k.closed
  own : ∀ a b o o', k.ofds a = some o → k.ofds b = some o' → o.handle = o'.handle → a = b
  /-- whatever else was opened has been closed, once -/
  once : ∀ h ∈ k.opened, (∀ a o, k.ofds a = some o → o.handle ≠ h) → k.closed.count h = 1

theorem Inv.shared (h : Inv [] k) : Shared k :=
  ⟨h.counts, h.pointed, h.stray, fun a o ho => ⟨(h.opened a o ho).1, (h.opened a o ho).2.1⟩,
    h.distinct, fun y hy hnone => h.once y hy not_mem_nil hnone⟩

theorem inv_exec {rs : List Request} (hr : exec step boot rs = some k) : Inv [] k :=
  exec_inv_all (fun _ _ _ h hs => h.step hs) inv_boot hr

/-- Where a parent's slot is empty the child's is only if it is not one of the console's. -/
theorem or_stdTable_eq_iff (t : FdTable) :
    (fun i => (t i).or (stdTable i)) = t ↔ ∀ c, t (stdFd c) ≠ none := by
  constructor
  · intro h c hnone
    have hc := congrFun h (stdFd c)
    rw [hnone, none_or, stdTable, dif_pos (show (stdFd c).val < 3 from c.isLt)] at hc
    exact nomatch hc
  · intro h
    funext i
    cases ht : t i with
    | some d => rfl
    | none =>
      refine dif_neg fun hlt => h ⟨i.val, hlt⟩ ?_
      exact ht

/-- **SHARED OPEN FILES**: in every run the counts are right and every file is
    closed once, when its last slot goes; and a fork gives the child the parent's
    table exactly when the parent has not closed slot 0, 1 or 2. -/
theorem shared_files_iff (rs : List Request) (k : Kernel) (hr : exec step boot rs = some k) :
    Shared k ∧ ∀ p t k', k.procs p = some t → step k (.fork p true true) = some k' →
      (k'.procs k.nextTid = k'.procs p ↔ ∀ c, t (stdFd c) ≠ none) := by
  have h := inv_exec hr
  refine ⟨h.shared, fun p t k' hp hs => ?_⟩
  obtain ⟨-, rfl⟩ := of_guard hs
  obtain ⟨-, hparent, hchild⟩ := forkProcess_true h hp
  rw [hparent, hchild, Option.some.injEq]
  exact or_stdTable_eq_iff t

/-- A program opens a file and forks. -/
def sharingRun : List Request := [.exec 1 true true, .open 2 (some false) true (some 100)]

theorem sharingRun_shared :
    ∃ k, exec step boot sharingRun = some k ∧ Shared k ∧
      k.ofds 100 = some ⟨⟨.file, 0⟩, 1⟩ ∧
      ∃ t k', k.procs 2 = some t ∧ step k (.fork 2 true true) = some k' ∧
        k'.procs k.nextTid = k'.procs 2 := by
  have hobs : (exec step boot sharingRun).map (fun k => (k.ofds 100, slots k (2, stdFd 0),
      slots k (2, stdFd 1), slots k (2, stdFd 2))) =
      some (some ⟨⟨.file, 0⟩, 1⟩, some (.console 0), some (.console 1), some (.console 2)) := by
    decide +kernel
  obtain ⟨k, hk, hobs⟩ := Option.map_eq_some_iff.mp hobs
  simp only [Prod.mk.injEq] at hobs
  obtain ⟨hofd, h0, h1, h2⟩ := hobs
  obtain ⟨t, ht, -⟩ := Option.bind_eq_some_iff.mp h0
  rw [slots_of ht] at h0 h1 h2
  have hrun := shared_files_iff sharingRun k hk
  have hstep : step k (.fork 2 true true) =
      some (forkProcess { k with nextTid := k.nextTid + 1 } 2 k.nextTid true true) :=
    if_pos (by rw [ht]; rfl)
  refine ⟨k, hk, hrun.1, hofd, t, _, ht, hstep, (hrun.2 2 t _ ht hstep).mpr fun c => ?_⟩
  match c with
  | 0 => rw [h0]; exact Option.some_ne_none _
  | 1 => rw [h1]; exact Option.some_ne_none _
  | 2 => rw [h2]; exact Option.some_ne_none _

/-- A program closes its standard input. -/
def closedRun : List Request := [.exec 1 true true, .close 2 0]

/-- **INPUT IS BACK**: it forks; the parent's slot 0 is empty, the child's has
    the console. -/
theorem fork_reopens_console :
    ∃ k k', exec step boot closedRun = some k ∧ step k (.fork 2 true true) = some k' ∧
      slots k' (2, 0) = none ∧ slots k' (k.nextTid, 0) = some (.console 0) ∧
      k'.procs k.nextTid ≠ k'.procs 2 := by
  have hobs : (exec step boot closedRun).map (fun k => (slots k (2, 0), slots k (2, 1))) =
      some (none, some (.console 1)) := by decide +kernel
  obtain ⟨k, hk, hobs⟩ := Option.map_eq_some_iff.mp hobs
  simp only [Prod.mk.injEq] at hobs
  obtain ⟨h0, h1⟩ := hobs
  obtain ⟨t, ht, -⟩ := Option.bind_eq_some_iff.mp h1
  rw [slots_of ht] at h0
  have hstep : step k (.fork 2 true true) =
      some (forkProcess { k with nextTid := k.nextTid + 1 } 2 k.nextTid true true) :=
    if_pos (by rw [ht]; rfl)
  obtain ⟨-, hparent, hchild⟩ := forkProcess_true (inv_exec hk) ht
  generalize forkProcess { k with nextTid := k.nextTid + 1 } 2 k.nextTid true true = k'
    at hstep hparent hchild
  have hin := (slots_of hparent 0).trans h0
  have hout := (slots_of hchild 0).trans
    (show (t 0).or (stdTable 0) = some (.console 0) by rw [h0]; rfl)
  refine ⟨k, k', hk, hstep, hin, hout, fun heq => ?_⟩
  have hsame := congrArg (fun table => table.bind fun t => t 0) heq
  exact Option.some_ne_none _ (hout.symm.trans (hsame.trans hin))

end MavOpenFile
