import Maverick.CountProofs
import Maverick.InodeTableProofs

/-! # Write denial

`file.c` over the inode table: a file struct owns one reference on its inode, can be shared, and
denies writes to the inode at most once. The inode counts the denials. References that no file
struct owns are held by the callers of `inode_open` and `inode_reopen`; `held` counts them, and a
caller gives up no more than it holds.

Positions and the contents of files are left out. -/

namespace MavDeny

open MavBlock MavInode MavCount MavRun Option
open Function (update update_self update_of_ne update_eq_self update_eq_self_iff comp_update)

/-- `struct file` without its position and its lock. -/
structure File where
  inode : Sector
  denyWrite : Bool
  refCount : Nat
  shared : 0 < refCount

/-- The inode table, the file structs by address, and the references on each
    inode that callers hold. -/
structure Files where
  fs : Fs
  file : Nat → Option File
  held : Sector → Nat

def Files.setFile (s : Files) (i : Nat) (f : Option File) : Files :=
  { s with file := Function.update s.file i f }

def Files.setHeld (s : Files) (x : Sector) (n : Nat) : Files :=
  { s with held := Function.update s.held x n }

/-- `inode_open`, or `inode_reopen` of an inode that is open. -/
def openInode (s : Files) (x : Sector) : Option Files :=
  (inodeOpen s.fs x).map fun fs => { s.setHeld x (s.held x + 1) with fs := fs }

def closeInode (s : Files) (x : Sector) : Option Files :=
  (inodeClose s.fs x).map fun fs => { s.setHeld x (s.held x - 1) with fs := fs }

/-- `file_open`: the file struct `i`, if there is memory for it, takes over a
    reference its caller holds. -/
def fileOpen (s : Files) (x : Sector) (i : Nat) (memory : Bool) : Option Files :=
  if memory then some ((s.setHeld x (s.held x - 1)).setFile i (some ⟨x, false, 1, Nat.one_pos⟩))
  else closeInode s x

/-- Flip the flag of a file and the count of its inode. -/
def setDenied (s : Files) (i : Nat) (f : File) (deny : Bool) : Option Files :=
  (MavInode.step s.fs (if deny then .denyWrite f.inode else .allowWrite f.inode)).map fun fs =>
    { s.setFile i (some { f with denyWrite := deny }) with fs := fs }

def fileDenyWrite (s : Files) (i : Nat) (f : File) : Option Files :=
  if f.denyWrite then some s else setDenied s i f true

def fileAllowWrite (s : Files) (i : Nat) (f : File) : Option Files :=
  if f.denyWrite then setDenied s i f false else some s

/-- `file_close`: the last close frees the file struct, and its reference is
    the caller's to close. -/
def fileClose (s : Files) (i : Nat) (f : File) : Option Files :=
  if h : f.refCount - 1 = 0 then
    (fileAllowWrite s i f).bind fun s =>
      closeInode ((s.setFile i none).setHeld f.inode (s.held f.inode + 1)) f.inode
  else some (s.setFile i (some { f with refCount := f.refCount - 1, shared := by omega }))

inductive Op where
  | openInode (x : Sector)
  | closeInode (x : Sector)
  | fileOpen (x : Sector) (i : Nat) (memory : Bool)
  | fileReopen (j i : Nat) (memory : Bool)
  | fileDup (i : Nat)
  | fileDenyWrite (i : Nat)
  | fileAllowWrite (i : Nat)
  | fileClose (i : Nat)

/-- A caller opens sectors that hold an inode, closes or hands over references
    it holds, and passes file structs that are open. -/
def Legal (s : Files) : Op → Prop
  | .openInode x => s.fs.live x ∨ (s.fs.opens x).isSome
  | .closeInode x => 0 < s.held x
  | .fileOpen x i _ => 0 < s.held x ∧ (s.file i).isNone
  | .fileReopen j i _ => (s.file j).isSome ∧ (s.file i).isNone
  | .fileDup i | .fileDenyWrite i | .fileAllowWrite i | .fileClose i => (s.file i).isSome

instance (s : Files) (op : Op) : Decidable (Legal s op) := by
  cases op <;> unfold Legal <;> infer_instance

/-- One call; `none` when an assertion fails. -/
def step (s : Files) : Op → Option Files
  | .openInode x => openInode s x
  | .closeInode x => closeInode s x
  | .fileOpen x i memory => fileOpen s x i memory
  | .fileReopen j i memory => (s.file j).bind fun f =>
    (openInode s f.inode).bind fun s => fileOpen s f.inode i memory
  | .fileDup i => (s.file i).map fun f =>
    s.setFile i (some { f with refCount := f.refCount + 1, shared := by omega })
  | .fileDenyWrite i => (s.file i).bind fun f => fileDenyWrite s i f
  | .fileAllowWrite i => (s.file i).bind fun f => fileAllowWrite s i f
  | .fileClose i => (s.file i).bind fun f => fileClose s i f

/-- The inode of each file struct, and of those that deny writes. -/
def Files.onInode (s : Files) (i : Nat) : Option Sector := (s.file i).map File.inode

def Files.denying (s : Files) (i : Nat) : Option Sector :=
  (s.file i).bind fun f => if f.denyWrite then some f.inode else none

/-- `open_cnt` and `deny_write_cnt` of an inode, zero when it is not open. -/
def opened (fs : Fs) (x : Sector) : Nat := (fs.opens x).elim 0 MemInode.openCnt

def denials (fs : Fs) (x : Sector) : Nat := (fs.opens x).elim 0 MemInode.denyWriteCnt

/-- **THE INVARIANT**: the counters of every inode count its references and
    its denials, and none of those in memory was removed. -/
structure Balanced (s : Files) : Prop where
  refs : ∀ x, s.held x ≤ opened s.fs x ∧ Counts s.onInode x (opened s.fs x - s.held x)
  denied : ∀ x, Counts s.denying x (denials s.fs x)
  linked : ∀ x m, s.fs.opens x = some m → m.removed = false

section Table

variable {s : Files} {x : Sector} {i : Nat} {f : File}

@[simp] theorem onInode_setFile (v : Option File) :
    (s.setFile i v).onInode = update s.onInode i (v.map File.inode) :=
  comp_update (Option.map File.inode) s.file i v

@[simp] theorem denying_setFile (v : Option File) :
    (s.setFile i v).denying = update s.denying i
      (v.bind fun f => if f.denyWrite then some f.inode else none) :=
  comp_update (Option.bind · _) s.file i v

theorem held_setHeld (n : Nat) : (s.setHeld x n).held x = n := update_self ..

theorem onInode_of_denying (hi : s.denying i = some x) : s.onInode i = some x := by
  obtain ⟨f, hf, hx⟩ := bind_eq_some_iff.mp hi
  rw [Files.onInode, hf]
  split at hx
  · exact hx
  · exact nomatch hx

/-- A denial is a reference, and so there are no more of them. -/
theorem Balanced.denials_le (h : Balanced s) (x : Sector) :
    denials s.fs x ≤ opened s.fs x - s.held x :=
  (h.denied x).le (h.refs x).2 fun _ => onInode_of_denying

/-- The inode of an open file is in memory, and not for its callers alone. -/
theorem Balanced.held_lt (h : Balanced s) (hf : s.file i = some f) :
    s.held f.inode < opened s.fs f.inode := by
  have := (h.refs f.inode).2.pos (i := i) (by rw [Files.onInode, hf]; rfl)
  omega

theorem opens_of_pos {fs : Fs} (h : 0 < opened fs x) : ∃ m, fs.opens x = some m := by
  unfold opened at h
  cases hx : fs.opens x with
  | none => rw [hx] at h; exact absurd h (Nat.lt_irrefl 0)
  | some m => exact ⟨m, rfl⟩

/-- The one way a caller's reference changes: it and the count of the inode move together. -/
theorem Balanced.move (h : Balanced s) (x : Sector) (fs : Fs) (c n d : Nat)
    (ho : opened fs = update (opened s.fs) x c)
    (hd : denials fs = update (denials s.fs) x d)
    (hu : ∀ y m, fs.opens y = some m → m.removed = false)
    (hc : n ≤ c ∧ c - n = opened s.fs x - s.held x) (hden : d = denials s.fs x) :
    Balanced { s.setHeld x n with fs := fs } where
  refs y := by
    show update s.held x n y ≤ opened fs y ∧
      Counts s.onInode y (opened fs y - update s.held x n y)
    rw [ho]
    by_cases hy : y = x
    · subst hy
      rw [update_self, update_self, hc.2]
      exact ⟨hc.1, (h.refs y).2⟩
    · rw [update_of_ne hy, update_of_ne hy]
      exact h.refs y
  denied y := by
    rw [hd, hden, update_eq_self]
    exact h.denied y
  linked := hu

theorem opened_setMem (fs : Fs) (x : Sector) (m : MemInode) :
    opened (fs.setMem x m) = update (opened fs) x m.openCnt :=
  comp_update (Option.elim · 0 MemInode.openCnt) fs.opens x (some m)

theorem denials_setMem (fs : Fs) (x : Sector) (m : MemInode) :
    denials (fs.setMem x m) = update (denials fs) x m.denyWriteCnt :=
  comp_update (Option.elim · 0 MemInode.denyWriteCnt) fs.opens x (some m)

variable (h : Balanced s)

include h

theorem linked_setMem {m : MemInode} (hm : m.removed = false) :
    ∀ y m', (s.fs.setMem x m).opens y = some m' → m'.removed = false := by
  intro y m' hy
  rcases update_cases hy with ⟨rfl, ⟨⟩⟩ | ⟨-, hy⟩
  · exact hm
  · exact h.linked y m' hy

theorem Balanced.moveMem {m : MemInode} (n : Nat) (hm : m.removed = false)
    (hc : n ≤ m.openCnt ∧ m.openCnt - n = opened s.fs x - s.held x)
    (hd : m.denyWriteCnt = denials s.fs x) :
    Balanced { s.setHeld x n with fs := s.fs.setMem x m } :=
  h.move x _ _ n _ (opened_setMem ..) (denials_setMem ..) (linked_setMem h hm) hc hd

theorem openInode_ok (hx : s.fs.live x ∨ (s.fs.opens x).isSome) :
    ∃ t, openInode s x = some t ∧ Balanced t ∧ t.file = s.file ∧ 0 < t.held x := by
  have hn := (h.refs x).1
  have hheld : 0 < (s.setHeld x (s.held x + 1)).held x := by
    rw [held_setHeld]
    exact Nat.succ_pos _
  unfold openInode inodeOpen opened at *
  cases hm : s.fs.opens x with
  | some m =>
    rw [hm] at hn
    refine ⟨_, rfl, h.moveMem _ (h.linked x m hm) ?_ ?_, rfl, hheld⟩
    · rw [opened, hm]
      exact ⟨Nat.succ_le_succ hn, Nat.succ_sub_succ ..⟩
    · rw [denials, hm]; rfl
  | none =>
    rw [hm] at hn hx
    rw [if_pos (hx.resolve_right nofun)]
    refine ⟨_, rfl, h.moveMem _ rfl ?_ ?_, rfl, hheld⟩
    · rw [opened, hm, Nat.le_zero.mp hn]
      exact ⟨Nat.le_refl 1, rfl⟩
    · rw [denials, hm]; rfl

theorem closeInode_ok (hx : 0 < s.held x) : ∃ t, closeInode s x = some t ∧ Balanced t := by
  have hn := (h.refs x).1
  obtain ⟨m, hm⟩ := opens_of_pos (Nat.lt_of_lt_of_le hx hn)
  have hc : opened s.fs x = m.openCnt := by rw [opened, hm]; rfl
  have hr := h.linked x m hm
  unfold closeInode inodeClose
  rw [hm]
  by_cases hl : m.openCnt - 1 = 0
  · -- no file struct is left, so nobody denies writes
    have hd := h.denials_le x
    simp only [if_pos hl, hr, Bool.false_eq_true, false_and, if_false]
    refine ⟨_, rfl, h.move x (s.fs.dropMem x) 0 _ 0
      (comp_update (Option.elim · 0 MemInode.openCnt) s.fs.opens x none)
      (comp_update (Option.elim · 0 MemInode.denyWriteCnt) s.fs.opens x none)
      ?_ ?_ (by omega)⟩
    · intro y m' hy
      exact h.linked y m' (of_update hy nofun).2
    · omega
  · simp only [if_neg hl]
    refine ⟨_, rfl, h.moveMem _ hr ?_ ?_⟩
    · show s.held x - 1 ≤ m.openCnt - 1 ∧ m.openCnt - 1 - (s.held x - 1) = _
      omega
    · rw [denials, hm]; rfl

/-- A file struct changes: each count gains what the struct gains. -/
theorem Balanced.change (fs : Fs) (held : Sector → Nat) (i : Nat)
    (v : Option File) (hu : ∀ y m, fs.opens y = some m → m.removed = false)
    (hr : ∀ y, held y ≤ opened fs y ∧ opened fs y - held y = opened s.fs y - s.held y -
      (if s.onInode i = some y then 1 else 0) + if v.map File.inode = some y then 1 else 0)
    (hd : ∀ y, denials fs y = denials s.fs y - (if s.denying i = some y then 1 else 0) +
      if (v.bind fun f => if f.denyWrite then some f.inode else none) = some y then 1 else 0) :
    Balanced { s.setFile i v with fs := fs, held := held } where
  refs y := by
    refine ⟨(hr y).1, ?_⟩
    show Counts (s.setFile i v).onInode y (opened fs y - held y)
    rw [onInode_setFile, (hr y).2]
    exact (h.refs y).2.trade i _
  denied y := by
    show Counts (s.setFile i v).denying y (denials fs y)
    rw [denying_setFile, hd]
    exact (h.denied y).trade i _
  linked := hu

theorem fileOpen_ok (hx : 0 < s.held x) (hi : s.file i = none) (memory : Bool) :
    ∃ t, fileOpen s x i memory = some t ∧ Balanced t := by
  cases memory with
  | false => exact closeInode_ok h hx
  | true =>
    refine ⟨_, rfl, h.change s.fs _ i _ h.linked ?_ ?_⟩ <;> intro y
    · have hn := (h.refs y).1
      by_cases hy : y = x
      · subst hy
        simp [Files.onInode, hi, Files.setHeld]
        omega
      · simp [Files.onInode, hi, Files.setHeld, update_of_ne hy, Ne.symm hy, hn]
    · simp [Files.denying, hi]

/-- A file struct keeps its inode and its flag. -/
theorem Balanced.recount (hi : s.file i = some f) {g : File}
    (hn : g.inode = f.inode) (hd : g.denyWrite = f.denyWrite) : Balanced (s.setFile i (some g)) := by
  have hon : (s.setFile i (some g)).onInode = s.onInode := by
    rw [onInode_setFile, update_eq_self_iff, Files.onInode, hi, map_some, hn]
    rfl
  have hden : (s.setFile i (some g)).denying = s.denying := by
    rw [denying_setFile, update_eq_self_iff, Files.denying, hi, bind_some, hn, hd]
    rfl
  exact ⟨hon ▸ h.refs, hden ▸ h.denied, h.linked⟩

theorem setDenied_ok (hi : s.file i = some f) {deny : Bool}
    (hd : f.denyWrite = !deny) : ∃ t, setDenied s i f deny = some t ∧ Balanced t ∧
      t.file i = some { f with denyWrite := deny } := by
  have hp := h.held_lt hi
  have hle := h.denials_le f.inode
  have hpos := (h.denied f.inode).pos (i := i)
  obtain ⟨m, hm⟩ := opens_of_pos (Nat.zero_lt_of_lt hp)
  have hu := h.linked _ m hm
  have ho : opened s.fs f.inode = m.openCnt := by rw [opened, hm]; rfl
  have hden : denials s.fs f.inode = m.denyWriteCnt := by rw [denials, hm]; rfl
  simp only [Files.denying, hi, bind_some, hd] at hpos
  have key : ∀ d, d = denials s.fs f.inode - (if deny then 0 else 1) + (if deny then 1 else 0) →
      Balanced { s.setFile i (some { f with denyWrite := deny }) with
        fs := s.fs.setMem f.inode { m with denyWriteCnt := d } } := by
    intro d hdd
    refine h.change _ s.held i _ (linked_setMem h hu) ?_ ?_ <;> intro y
    · have hn := (h.refs y).1
      rw [opened_setMem, ← ho, update_eq_self]
      simp only [Files.onInode, hi, map_some, Option.some.injEq]
      split
      · subst y
        omega
      · exact ⟨hn, rfl⟩
    · rw [denials_setMem]
      by_cases hy : y = f.inode
      · subst hy
        cases deny <;> simpa [Files.denying, hi, hd] using hdd
      · cases deny <;> simp [Files.denying, hi, hd, update_of_ne hy, Ne.symm hy]
  unfold setDenied MavInode.step onOpen
  cases deny with
  | false =>
    have := hpos rfl
    simp only [Bool.false_eq_true, if_false, hm, bind_some]
    rw [if_neg (by omega)]
    exact ⟨_, rfl, key _ (by rw [hden]; rfl), update_self ..⟩
  | true =>
    simp only [if_true, hm, bind_some]
    -- the file does not deny yet, and it is an opener
    have hlt := (h.denied f.inode).lt (h.refs f.inode).2 (fun _ => onInode_of_denying)
      (i := i) (by simp [Files.denying, hi, hd]) (by rw [Files.onInode, hi]; rfl)
    rw [if_neg (by omega)]
    exact ⟨_, rfl, key _ (by rw [hden]; rfl), update_self ..⟩

theorem fileAllowWrite_ok (hi : s.file i = some f) :
    ∃ t, fileAllowWrite s i f = some t ∧ Balanced t ∧
      t.file i = some { f with denyWrite := false } := by
  unfold fileAllowWrite
  cases hd : f.denyWrite with
  | true => exact setDenied_ok h hi hd
  | false => exact ⟨s, rfl, h, hi.trans (congrArg some (by rw [← hd]))⟩

theorem fileClose_ok (hi : s.file i = some f) : ∃ t, fileClose s i f = some t ∧ Balanced t := by
  unfold fileClose
  split
  · obtain ⟨t, ht, hbal, hti⟩ := fileAllowWrite_ok h hi
    rw [ht]
    have hp : t.held f.inode < opened t.fs f.inode :=
      hbal.held_lt (f := { f with denyWrite := false }) hti
    refine closeInode_ok (hbal.change t.fs _ i none hbal.linked ?_ ?_) ?_
    · intro y
      have hn := (hbal.refs y).1
      by_cases hy : y = f.inode
      · subst hy
        simp [Files.onInode, hti, Files.setFile]
        omega
      · simp [Files.onInode, hti, Files.setFile, update_of_ne hy, Ne.symm hy, hn]
    · intro y
      simp [Files.denying, hti]
    · rw [held_setHeld]
      exact Nat.succ_pos _
  · exact ⟨_, rfl, h.recount hi rfl rfl⟩

end Table

theorem Balanced.step {s : Files} (h : Balanced s) (op : Op) (hl : Legal s op) :
    ∃ t, step s op = some t ∧ Balanced t := by
  cases op with
  | openInode x =>
    obtain ⟨t, ht, hbal, -⟩ := openInode_ok h hl
    exact ⟨t, ht, hbal⟩
  | closeInode x => exact closeInode_ok h hl
  | fileOpen x i memory => exact fileOpen_ok h hl.1 (isNone_iff_eq_none.mp hl.2) memory
  | fileReopen j i memory =>
    obtain ⟨f, hf⟩ := isSome_iff_exists.mp hl.1
    obtain ⟨m, hm⟩ := opens_of_pos (Nat.zero_lt_of_lt (h.held_lt hf))
    obtain ⟨t, ht, hbal, hfile, hheld⟩ := openInode_ok h (.inr (isSome_of_eq_some hm))
    simp only [MavDeny.step, hf, bind_some, ht]
    exact fileOpen_ok hbal hheld (hfile ▸ isNone_iff_eq_none.mp hl.2) memory
  | fileDup i =>
    obtain ⟨f, hf⟩ := isSome_iff_exists.mp hl
    simp only [MavDeny.step, hf, map_some]
    exact ⟨_, rfl, h.recount hf rfl rfl⟩
  | fileDenyWrite i =>
    obtain ⟨f, hf⟩ := isSome_iff_exists.mp hl
    simp only [MavDeny.step, hf, bind_some, fileDenyWrite]
    cases hd : f.denyWrite with
    | true => exact ⟨s, rfl, h⟩
    | false =>
      obtain ⟨t, ht, hbal, -⟩ := setDenied_ok h hf (hd.trans Bool.not_true.symm)
      exact ⟨t, ht, hbal⟩
  | fileAllowWrite i =>
    obtain ⟨f, hf⟩ := isSome_iff_exists.mp hl
    obtain ⟨t, ht, hbal, -⟩ := fileAllowWrite_ok h hf
    exact ⟨t, (congrArg (Option.bind · _) hf).trans ht, hbal⟩
  | fileClose i =>
    obtain ⟨f, hf⟩ := isSome_iff_exists.mp hl
    obtain ⟨t, ht, hbal⟩ := fileClose_ok h hf
    exact ⟨t, (congrArg (Option.bind · _) hf).trans ht, hbal⟩

/-- No inode is open and nobody has a file. -/
def idle (store : Store) (live : Sector → Bool) : Files :=
  ⟨⟨store, fun _ => none, live⟩, fun _ => none, fun _ => 0⟩

theorem idle_balanced (store : Store) (live : Sector → Bool) : Balanced (idle store live) where
  refs _ := ⟨Nat.le_refl 0, counts_zero nofun⟩
  denied _ := counts_zero nofun
  linked _ _ := nofun

/-- **WRITE DENIAL IS BALANCED.**  Whatever is done with files and inodes, no
    assertion fails, an inode counts the file structs that deny writes to it,
    there are at most as many as openers, and while there is one, writes are
    refused. -/
theorem write_denial_balanced (store : Store) (live : Sector → Bool) (ops : List Op)
    (hl : Guarded step Legal (idle store live) ops) :
    ∃ t, exec step (idle store live) ops = some t ∧ ∀ x m, t.fs.opens x = some m →
      Counts t.denying x m.denyWriteCnt ∧ m.denyWriteCnt ≤ m.openCnt ∧
      ∀ buf offset, (inodeWriteAt t.fs.store x { m with denyWriteCnt := 0 } buf offset).1 ≠ 0 →
        ((inodeWriteAt t.fs.store x m buf offset).1 = 0 ↔ 0 < m.denyWriteCnt) := by
  obtain ⟨t, ht, hbal⟩ := exec_total (fun s op h hop => h.step op hop) ops _
    (idle_balanced store live) hl
  refine ⟨t, ht, ?_⟩
  intro x m hm
  have hle := hbal.denials_le x
  have hden := hbal.denied x
  rw [denials, hm] at hle hden
  rw [opened, hm] at hle
  refine ⟨hden, Nat.le_trans hle (Nat.sub_le ..), ?_⟩
  intro buf offset hw
  constructor
  · intro h0
    refine Nat.pos_of_ne_zero ?_
    intro hz
    refine hw ?_
    rw [← hz] at hw ⊢
    exact h0.trans hz.symm
  · intro hpos
    rw [inodeWriteAt, if_pos (Nat.ne_of_gt hpos)]

/-- Two descriptors share a file that denies writes, and one of them is closed. -/
def sharedDenial : List Op :=
  [.openInode 70, .fileOpen 70 0 true, .fileReopen 0 1 true, .fileDenyWrite 0, .fileDup 0,
    .fileClose 0]

/-- The first close keeps the denial. -/
theorem denial_survives_first_close :
    ∃ t, exec step (idle ⟨fun _ _ => 0, fun _ => true, 100⟩ fun _ => true) sharedDenial = some t ∧
      denials t.fs 70 = 1 := by
  obtain ⟨t, ht, -⟩ := write_denial_balanced ⟨fun _ _ => 0, fun _ => true, 100⟩ (fun _ => true)
    sharedDenial (by decide)
  refine ⟨t, ht, ?_⟩
  have h1 : (exec step (idle ⟨fun _ _ => 0, fun _ => true, 100⟩ fun _ => true) sharedDenial).map
      (denials ·.fs 70) = some 1 := by
    decide
  rw [ht] at h1
  exact Option.some.inj h1

end MavDeny
