import Maverick.DirOpsProofs
import Maverick.FileRunProofs

/-! # Runs on a directory — a finite map

A directory made by `dir_create_with_parent` starts with "." and "..". Every run of `dir_add`,
`dir_remove` and `dir_lookup` on it whose writes succeed answers as a finite map from names to
sectors does. -/

namespace MavDirRun

open MavBlock MavField MavRun MavByteFile MavInode MavDir MavDirOps Option
open Function (update update_self update_of_ne)

/-! ## Calls -/

/-- The calls on one directory, and the close of an inode that a lookup opened. -/
inductive DirOp where
  | add (name : Name) (sector : Sector) (e : List UInt8)
  | remove (name : Name)
  | look (name : Name)
  | close (t : Sector)

inductive DirAnswer where
  | ok (success : Bool)
  | found (sector : Option Sector)
  | closed
  deriving DecidableEq

/-- One call on the directory `x`. -/
def performDir (x : Sector) (s : Fs) : DirOp → Option (DirAnswer × Fs)
  | .add name sector e => (dirAdd s x name sector e).map fun r => (.ok r.1, r.2)
  | .remove name => (dirRemove s x name).map fun r => (.ok r.1, r.2)
  | .look name => (dirLookup s x name).map fun r => (.found r.1, r.2)
  | .close t => (inodeClose s t).map fun s => (.closed, s)

/-- The state after a call. -/
def nextDir (x : Sector) (s : Fs) (op : DirOp) : Option Fs := (performDir x s op).map Prod.snd

/-- What a call does to the map, and what it answers: an add fails exactly for
    a name that is empty, too long or bound. -/
def DirSpec (D : Name → Option Nat) : DirOp → DirAnswer → (Name → Option Nat) → Prop
  | .add name sector _, a, D' =>
    (canAdd D name ∧ a = .ok true ∧ D' = update D name (some sector)) ∨
    (¬ canAdd D name ∧ a = .ok false ∧ D' = D)
  | .remove name, a, D' =>
    ((D name).isSome ∧ a = .ok true ∧ D' = update D name none) ∨
    (D name = none ∧ a = .ok false ∧ D' = D)
  | .look name, a, D' => a = .found (D name) ∧ D' = D
  | .close _, a, D' => a = .closed ∧ D' = D

/-- A run of the finite map. -/
def DirSpecRun : (Name → Option Nat) → List DirOp → List DirAnswer → (Name → Option Nat) → Prop
  | D, [], as, D' => as = [] ∧ D' = D
  | D, op :: ops, as, D' => ∃ a as' D1, as = a :: as' ∧ DirSpec D op a D1 ∧
      DirSpecRun D1 ops as' D'

/-- The inode an entry names is there. -/
def targetOk (s : Fs) (m : MemInode) (name : Name) (C : Sector → Prop) : Prop :=
  match find s m name with
  | none => True
  | some (_, e) => s.live (inodeSector e) ∧ C (inodeSector e)

/-- The entry's write stays within the blocks an inode can name and writes all of it. -/
def entryWritten (s : Fs) (x : Sector) (m : MemInode) : Option (Nat × List UInt8) → Prop
  | none => True
  | some (ofs, b) => bytesToSectors (ofs + entrySize) ≤ 16524 ∧ (writeOpen s x m b ofs).1 = entrySize

/-- The call's writes succeed and it is made as `dir_add`, `inode_open` and `inode_close` ask for
    it: an entry names the sector of an inode, which has a link for it when the entry is removed;
    the directory stays open. The root directory and the free map keep their last link. -/
def writtenAt (x : Sector) (s : Fs) (m : MemInode) : DirOp → Prop
  | .add name sector e => sector < 2 ^ 32 ∧ entryWritten s x m (entryFor s m name sector e)
  | .remove name => targetOk s m name fun t =>
    0 < (s.onDisk t).nlink ∧ ((s.onDisk t).nlink = 1 → 2 ≤ t)
  | .look name => targetOk s m name fun _ => True
  | .close t => (s.opens t).isSome ∧ (t = x → 1 < m.openCnt)

/-- The same, of the open directory `x`. -/
def written (x : Sector) (s : Fs) (op : DirOp) : Prop :=
  match s.opens x with
  | none => False
  | some m => writtenAt x s m op

/-- The directory is open and its bytes are the map. -/
structure Holds (x : Sector) (D : Name → Option Nat) (o : Owner) (F : Files) (s : Fs)
    (m : MemInode) (f : File) (c : Nat) : Prop where
  files : FilesOk o F s
  mem : s.opens x = some m
  held : 0 < m.openCnt
  deny : m.denyWriteCnt = 0
  file : F x = some f
  map : IsMap c f.data D
  pos : 0 < c

def HoldsMap (x : Sector) (D : Name → Option Nat) (s : Fs) : Prop :=
  ∃ o F m f c, Holds x D o F s m f c

section Steps

variable {x t : Sector} {D D' : Name → Option Nat} {o : Owner} {F : Files} {s s' : Fs}
  {m : MemInode} {f : File} {c : Nat} {name : Name} {sector : Sector} {e : List UInt8}

/-! ## One call -/

section

variable (h : Holds x D o F s m f c)

include h

theorem Holds.writtenAt {op : DirOp} (hw : written x s op) : writtenAt x s m op := by
  rw [written, h.mem] at hw
  exact hw

theorem Holds.add (hw : written x s (.add name sector e)) :
    ∃ a s' D', performDir x s (.add name sector e) = some (a, s') ∧
      DirSpec D (.add name sector e) a D' ∧ HoldsMap x D' s' := by
  obtain ⟨hsector, hw⟩ := h.writtenAt hw
  rw [entryFor_eq h.files h.mem h.file] at hw
  -- the write goes through in the one slot that is free
  have hgo : ∀ i, canAdd D name → FreeSlot c f.data name i →
      bytesToSectors (entrySize * i + entrySize) ≤ 16524 ∧
        writeGoes s.store x m entrySize (entrySize * i) := by
    intro i hadd hslot
    rcases h.map.addEntry h.pos name sector e with ⟨hno, -⟩ | ⟨-, j, e', hslot', he, hsome⟩
    · exact absurd hadd hno
    obtain rfl := hslot.unique hslot'
    rw [hsome] at hw
    obtain ⟨hlimit, hcount⟩ := hw
    have hb := length_fillEntry he hadd.2.1 sector
    have hg := writeGoes_of_written (s := s) (x := x) (m := m)
      (fillEntry e' name sector) (entrySize * i)
      fun h0 => nomatch hcount.symm.trans h0
    rw [hb] at hg
    exact ⟨hlimit, hg⟩
  have hspec := dirAdd_spec (e := e) name sector h.files h.mem h.file h.map h.pos
    fun i _ hadd hslot _ hext =>
      extendClean_of_ok (hgo i hadd hslot).1 ((hgo i hadd hslot).2.2 hext)
  have hperf : performDir x s (.add name sector e) =
      (dirAdd s x name sector e).map fun r => (.ok r.1, r.2) := rfl
  rw [hperf]
  generalize dirAdd s x name sector e = r at hspec ⊢
  cases hspec with
  | refused hno => exact ⟨_, s, D, rfl, .inr ⟨hno, rfl, rfl⟩, o, F, m, f, c, h⟩
  | stuck hadd hslot hstop _ => exact absurd (hgo _ hadd hslot).2 hstop
  | @added i e' o' st' n' hadd hslot he _ hfs =>
    refine ⟨_, _, _, rfl, .inl ⟨hadd, rfl, rfl⟩, o', _, { m with data := n' }, _, max c (i + 1),
      hfs, s.setMem_opens_self x _, h.held, h.deny, update_self .., ?_, ?_⟩
    · exact h.map.add hsector hslot he hadd
    · exact Nat.lt_of_lt_of_le h.pos (Nat.le_max_left ..)

/-- A lookup, and what it means for the guard of the call. -/
theorem Holds.find (name : Name) {C : Sector → Prop}
    (hw : targetOk s m name C) :
    (D name = none ∧ find s m name = none) ∨
    ∃ i < c, hasName name (slot f.data i) ∧ D name = some (inodeSector (slot f.data i)) ∧
      MavDirOps.find s m name = some (entrySize * i, slot f.data i) ∧
      s.live (inodeSector (slot f.data i)) ∧ C (inodeSector (slot f.data i)) := by
  rw [targetOk, find_eq h.files h.mem h.file] at hw
  rw [find_eq h.files h.mem h.file]
  rcases h.map.lookup name with ⟨hD, hl, -⟩ | ⟨i, hi, hn, hD, hl⟩
  · exact .inl ⟨hD, hl⟩
  · rw [hl] at hw
    exact .inr ⟨i, hi, hn, hD, hl, hw⟩

theorem Holds.look (hw : written x s (.look name)) :
    ∃ a s' D', performDir x s (.look name) = some (a, s') ∧
      DirSpec D (.look name) a D' ∧ HoldsMap x D' s' := by
  have hw := h.writtenAt hw
  rw [MavDirRun.writtenAt] at hw
  rcases h.find name hw with ⟨hD, hl⟩ | ⟨i, -, -, hD, hl, hlive, -⟩
  · refine ⟨.found none, s, D, ?_, ⟨by rw [hD], rfl⟩, o, F, m, f, c, h⟩
    simp only [performDir, dirLookup, h.mem, bind_some, hl, map_some]
  · obtain ⟨mt, m', hopen, hfs, hm', hsame, -⟩ := open_spec h.files h.mem h.held hlive
    refine ⟨.found (some (inodeSector (slot f.data i))), _, D, ?_, ⟨by rw [hD], rfl⟩, o, F, m', f, c,
      hfs, hm', hsame.held, hsame.deny.trans h.deny, h.file, h.map, h.pos⟩
    simp only [performDir, dirLookup, h.mem, bind_some, hl, hopen, map_some]

theorem Holds.close (hw : written x s (.close t)) :
    ∃ a s' D', performDir x s (.close t) = some (a, s') ∧
      DirSpec D (.close t) a D' ∧ HoldsMap x D' s' := by
  obtain ⟨hmt, htx⟩ := h.writtenAt hw
  obtain ⟨mt, hmt⟩ := isSome_iff_exists.mp hmt
  obtain ⟨s', F', m', hs', hfs, hF', hm', hsame⟩ := close_spec h.files h.mem h.held hmt htx
  refine ⟨.closed, s', D, ?_, ⟨rfl, rfl⟩, o, F', m', f, c, hfs, hm', hsame.held,
    hsame.deny.trans h.deny, hF'.trans h.file, h.map, h.pos⟩
  simp only [performDir, hs', map_some]

theorem Holds.remove (hw : written x s (.remove name)) :
    ∃ a s' D', performDir x s (.remove name) = some (a, s') ∧
      DirSpec D (.remove name) a D' ∧ HoldsMap x D' s' := by
  have hw := h.writtenAt hw
  rw [MavDirRun.writtenAt] at hw
  rcases h.find name hw with ⟨hD, hl⟩ | ⟨i, hi, hn, hD, hl, hlive, hk, hlast⟩
  · refine ⟨.ok false, s, D, ?_, .inr ⟨hD, rfl, rfl⟩, o, F, m, f, c, h⟩
    simp only [performDir, dirRemove, h.mem, bind_some, hl, map_some]
  have hmap' := h.map.erase hi hn
  generalize ht : inodeSector (slot f.data i) = t at *
  obtain ⟨ft, hFt, hft⟩ := h.files.disk t hlive
  rw [hft.nlink] at hk hlast
  -- open the inode, clear the entry
  obtain ⟨mt, m1, hopen, hfs1, hm1, hsame1, hcnt1⟩ := open_spec h.files h.mem h.held hlive
  have hdeny : m1.denyWriteCnt = 0 := hsame1.deny.trans h.deny
  obtain ⟨o2, st2, n2, hwrite, hfs2⟩ := erase_spec hfs1 hm1 h.file h.map hi hdeny
  -- drop a link; the named inode can be the directory itself
  have htarget : ∃ m2 f2, ({ (s.setMem t mt).setMem x { m1 with data := n2 } with
        store := st2 } : Fs).opens t = some m2 ∧
      update F x (some (withEntry f i (eraseEntry (slot f.data i)))) t = some f2 ∧
      f2.nlink = ft.nlink ∧ (t = x → m2 = { m1 with data := n2 } ∧
        f2 = withEntry f i (eraseEntry (slot f.data i))) := by
    by_cases htx : t = x
    · subst htx
      refine ⟨_, _, Fs.setMem_opens_self .., update_self .., ?_, fun _ => ⟨rfl, rfl⟩⟩
      rw [some.inj (hFt.symm.trans h.file)]
      rfl
    · refine ⟨mt, ft, ?_, (update_of_ne htx ..).trans hFt, rfl, fun e => absurd e htx⟩
      exact ((s.setMem t mt).setMem_opens_of_ne _ htx).trans (s.setMem_opens_self t mt)
  obtain ⟨m2, f2, hm2, hF2, hk2, hself⟩ := htarget
  obtain ⟨hunlink, hfs3⟩ := unlink_spec hfs2 hm2 hF2 (hk2.symm ▸ hk) (hk2.symm ▸ hlast)
  have hm3 : ∃ m3, (Fs.setInode { (s.setMem t mt).setMem x { m1 with data := n2 } with
      store := st2 } t (dropLink m2)).opens x = some m3 ∧ m3.openCnt = m1.openCnt ∧
      m3.denyWriteCnt = 0 := by
    by_cases htx : t = x
    · subst htx
      obtain ⟨rfl, -⟩ := hself rfl
      exact ⟨_, update_self .., rfl, hdeny⟩
    · refine ⟨{ m1 with data := n2 }, ?_, rfl, hdeny⟩
      exact (update_of_ne (Ne.symm htx) ..).trans (Fs.setMem_opens_self ..)
  have hf3 : ∃ f3, update (update F x (some (withEntry f i (eraseEntry (slot f.data i))))) t
        (some { f2 with nlink := f2.nlink - 1 }) x = some f3 ∧
      f3.data = writeAt 0 f.data (eraseEntry (slot f.data i)) (entrySize * i) := by
    by_cases htx : t = x
    · subst htx
      obtain ⟨-, rfl⟩ := hself rfl
      exact ⟨_, update_self .., rfl⟩
    · exact ⟨_, (update_of_ne (Ne.symm htx) ..).trans (update_self ..), rfl⟩
  obtain ⟨m3, hm3, hcnt3, hdeny3⟩ := hm3
  obtain ⟨f3, hf3, hdata3⟩ := hf3
  -- close it again
  obtain ⟨s', F', m', hclose, hfs', hF', hm', hsame'⟩ := close_spec (t := t)
    hfs3 hm3 (hcnt3 ▸ hsame1.held) (update_self ..)
    fun e => hcnt3 ▸ hcnt1 e
  refine ⟨.ok true, s', update D name none, ?_, .inl ⟨by rw [hD]; rfl, rfl, rfl⟩, o2, F',
    m', f3, c, hfs', hm', hsame'.held, hsame'.deny.trans hdeny3, hF'.trans hf3, ?_, h.pos⟩
  · simp only [performDir, dirRemove, h.mem, bind_some, hl, ht, hopen, hm1, hwrite,
      if_true, hunlink, hclose, map_some]
  · rw [hdata3]
    exact hmap'

end

/-- **STEP**: a call whose writes succeed answers as the map does. -/
theorem HoldsMap.step (h : HoldsMap x D s) {op : DirOp} (hw : written x s op) :
    ∃ a s' D', performDir x s op = some (a, s') ∧ DirSpec D op a D' ∧ HoldsMap x D' s' := by
  obtain ⟨o, F, m, f, c, h⟩ := h
  cases op with
  | add name sector e => exact h.add hw
  | remove name => exact h.remove hw
  | look name => exact h.look hw
  | close t => exact h.close hw

/-- **RUN**: so does a run. -/
theorem HoldsMap.run : ∀ (ops : List DirOp) {D : Name → Option Nat} {s : Fs}, HoldsMap x D s →
    Guarded (nextDir x) (written x) s ops →
      ∃ as t D', runOps (performDir x) s ops = some (as, t) ∧ DirSpecRun D ops as D' ∧
        HoldsMap x D' t := by
  intro ops
  induction ops with
  | nil => exact fun h _ => ⟨[], _, _, rfl, ⟨rfl, rfl⟩, h⟩
  | cons op ops ih =>
    intro D s h hG
    obtain ⟨a, s', D1, hp, hspec, h'⟩ := h.step hG.1
    obtain ⟨as, t, D', hrun, hspecs, ht⟩ := ih h' (hG.2 s' (by rw [nextDir, hp]; rfl))
    exact ⟨a :: as, t, D', by simp only [runOps, hp, hrun], ⟨a, as, D1, rfl, hspec, hspecs⟩, ht⟩

/-! ## The directory from its creation on -/

/-- A directory that was just made and opened holds "." and "..". -/
theorem created_holds (h : FilesOk o F s) (hlive : s.live x = false) (hu : s.store.used x)
    (ho : o x = some (x, .self)) {parent : Sector} (hparent : parent < 2 ^ 32) {entryCnt : Nat}
    (hlimit : bytesToSectors (max entryCnt 2 * entrySize) ≤ 16524) {s1 s2 : Fs}
    (hcreate : dirCreateWithParent s x parent entryCnt e = some (true, s1))
    (hopen : inodeOpen s1 x = some s2) : HoldsMap x (dotsMap x parent) s2 := by
  have hok : (growBlocks 0 (bytesToSectors (max entryCnt 2 * entrySize)) s.store
      (blankInode (max entryCnt 2 * entrySize) .dir)).1 = true := by
    unfold dirCreateWithParent inodeCreateInternal at hcreate
    generalize growBlocks 0 (bytesToSectors (max entryCnt 2 * entrySize)) s.store
      (blankInode (max entryCnt 2 * entrySize) .dir) = r at hcreate ⊢
    obtain ⟨ok, st, n⟩ := r
    cases ok with
    | true => rfl
    | false =>
      simp only at hcreate
      cases hd : inodeDeallocate st n with
      | none =>
        rw [hd] at hcreate
        exact nomatch hcreate
      | some st' =>
        rw [hd] at hcreate
        exact nomatch (pair_inj hcreate).1
  obtain ⟨o', st', f', hc, hfs, -, -, hmap⟩ := dirCreate_spec (e := e) h hlive hu ho hparent hlimit hok
  obtain rfl : _ = s1 := (pair_inj (hc.symm.trans hcreate)).2
  obtain ⟨m, hopen', hfs', -, hm⟩ := hfs.openInode (x := x) (update_self ..)
  obtain rfl := some.inj (hopen'.symm.trans hopen)
  have hm := hm (h.sound.opens_none hlive)
  subst hm
  exact ⟨o', _, _, f', max entryCnt 2, hfs', Fs.setMem_opens_self .., Nat.one_pos, rfl,
    update_self .., hmap, Nat.lt_of_lt_of_le Nat.zero_lt_two (Nat.le_max_right ..)⟩

/-- What the entries of an open directory say when they are the map `D`: lookup
    finds its bindings, no name is in two slots, and reading the directory from
    the start lists the bound names, each once. -/
structure Answers (s : Fs) (m : MemInode) (D : Name → Option Nat) : Prop where
  lookup : ∀ name, (find s m name).map (fun r => inodeSector r.2) = D name
  unique : ∀ i < m.data.length / entrySize, ∀ j < m.data.length / entrySize,
    inUse (dirRead s m (entrySize * i)) → inUse (dirRead s m (entrySize * j)) →
    entryName (dirRead s m (entrySize * i)) = entryName (dirRead s m (entrySize * j)) → i = j
  listed : ∃ L : List Name,
    readdirAll (dirRead s m) (scanFuel m.data.length) (scanFuel m.data.length) 0 =
      L.map Subtype.val ∧ L.Nodup ∧ ∀ name, name ∈ L ↔ (D name).isSome

theorem Holds.answers (h : Holds x D o F s m f c) : Answers s m D := by
  have hread := dirRead_eq h.files h.mem h.file
  have hlen := (h.files.mem x m f h.mem h.file).data.length
  have hc : m.data.length / entrySize = c := by
    rw [hlen, h.map.length, Nat.mul_div_cancel_left _ (by decide)]
  refine ⟨fun name => ?_, ?_, ?_⟩
  · rw [find_eq h.files h.mem h.file]
    rcases h.map.lookup name with ⟨hD, hl, -⟩ | ⟨i, -, -, hD, hl⟩
    · rw [hl, hD]
      rfl
    · rw [hl, hD]
      rfl
  · rw [hc, hread]
    exact h.map.unique
  · obtain ⟨L, hL, hnodup, hmem⟩ := h.map.names
    refine ⟨L, ?_, hnodup, hmem⟩
    rw [hread, hlen, ← hL]
    have hall := readdirAll_eq h.map.length (scanFuel f.data.length) h.map.fuel
      (scanFuel f.data.length) 0 (Nat.zero_le c) h.map.fuel
    rwa [Nat.mul_zero] at hall

/-- **DIRECTORIES ARE FINITE MAPS**: a directory made by
    `dir_create_with_parent` in a claimed sector starts as the map of "." and
    "..". Every run on it whose writes succeed completes with the answers of
    that finite map, and the entries after it say what the map then is. -/
theorem directories_are_finite_maps (h : FilesOk o F s) (hlive : s.live x = false)
    (hu : s.store.used x) (ho : o x = some (x, .self)) {parent : Sector}
    (hparent : parent < 2 ^ 32) {entryCnt : Nat}
    (hlimit : bytesToSectors (max entryCnt 2 * entrySize) ≤ 16524) {s1 s2 : Fs}
    (hcreate : dirCreateWithParent s x parent entryCnt e = some (true, s1))
    (hopen : inodeOpen s1 x = some s2) (ops : List DirOp)
    (hG : Guarded (nextDir x) (written x) s2 ops) :
    ∃ as t D m, runOps (performDir x) s2 ops = some (as, t) ∧
      DirSpecRun (dotsMap x parent) ops as D ∧ t.opens x = some m ∧ Answers t m D := by
  have h2 := created_holds h hlive hu ho hparent hlimit hcreate hopen
  obtain ⟨as, t, D, hrun, hspec, o', F', m, f', c, ht⟩ := h2.run ops hG
  exact ⟨as, t, D, m, hrun, hspec, ht.mem, ht.answers⟩

end Steps

instance (s : Fs) (m : MemInode) (name : Name) (C : Sector → Prop) [DecidablePred C] :
    Decidable (targetOk s m name C) :=
  match h : find s m name with
  | none => isTrue (by simp only [targetOk, h])
  | some (_, e) => decidable_of_iff (s.live (inodeSector e) ∧ C (inodeSector e))
      (by simp only [targetOk, h])

instance (s : Fs) (x : Sector) (m : MemInode) (r : Option (Nat × List UInt8)) :
    Decidable (entryWritten s x m r) := by
  cases r <;> unfold entryWritten <;> infer_instance

instance (x : Sector) (s : Fs) (m : MemInode) (op : DirOp) : Decidable (writtenAt x s m op) := by
  cases op <;> unfold writtenAt <;> infer_instance

instance (x : Sector) (s : Fs) (op : DirOp) : Decidable (written x s op) :=
  match h : s.opens x with
  | none => isFalse (by simp only [written, h, not_false_iff])
  | some m => decidable_of_iff (writtenAt x s m op) (by simp only [written, h])

/-- A new file system with one sector claimed. -/
def claimed : Fs :=
  { booted (fun _ => zeroBlock) 90 with
    store := { (booted (fun _ => zeroBlock) 90).store with
      used := update (booted (fun _ => zeroBlock) 90).store.used 67 true } }

/-- The directory made and opened in that sector. -/
def claimedDir : Fs :=
  ((dirCreateWithParent claimed 67 1 16 []).bind fun r => inodeOpen r.2 67).getD claimed

/-- The name "a". -/
def nameA : Name := ⟨[97], by decide⟩

/-- A name is bound twice, looked up, removed and looked up again. -/
def boundTwice : List DirOp :=
  [.add nameA 67 [], .add nameA 67 [], .look nameA, .remove nameA, .look nameA, .close 67]

theorem directories_are_finite_maps_boundTwice :
    ∃ as t D m, runOps (performDir 67) claimedDir boundTwice = some (as, t) ∧
      DirSpecRun (dotsMap 67 1) boundTwice as D ∧ t.opens 67 = some m ∧ Answers t m D := by
  have hboot : FilesOk _ _ (booted (fun _ => zeroBlock) 90) :=
    booted_files _ (by decide) (by decide)
  have hal : Sound (Function.update _ 67 _) claimed ∧ _ := hboot.sound.allocate rfl
  have hmade : (dirCreateWithParent claimed 67 1 16 []).map Prod.fst = some true := by
    decide +kernel
  obtain ⟨⟨ok, s1⟩, hcreate, hok⟩ := Option.map_eq_some_iff.mp hmade
  subst hok
  have hsome : (((dirCreateWithParent claimed 67 1 16 []).bind fun r => inodeOpen r.2 67).isSome) :=
    by decide +kernel
  rw [hcreate, Option.bind_some] at hsome
  obtain ⟨s2, hopen⟩ := Option.isSome_iff_exists.mp hsome
  have hdir : claimedDir = s2 := by
    rw [claimedDir, hcreate, Option.bind_some, hopen]
    rfl
  have hG : Guarded (nextDir 67) (written 67) claimedDir boundTwice := by decide +kernel
  rw [hdir] at hG ⊢
  exact directories_are_finite_maps (s := claimed) { hboot with sound := hal.1 } rfl
    rfl (Function.update_self ..) (by decide) (by decide) hcreate hopen boundTwice hG

end MavDirRun
