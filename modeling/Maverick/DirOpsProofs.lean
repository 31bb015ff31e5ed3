import Maverick.DirProofs
import Maverick.ReclaimProofs

/-! # Directory operations — finite maps on the device

`directory.c` over the inode table. A directory is an open inode whose bytes are entries; adding a
name writes one entry, removing one clears its flag, drops a link of the inode it names and closes
that inode. While the writes go through, a directory answers as a finite map from names to sectors.
-/

namespace MavDirOps

open MavBlock MavField MavRun MavByteFile MavInode MavDir Option
open Function (update update_self update_of_ne update_eq_self update_idem)

/-! ## The operations -/

/-- `inode_read_at` of one entry. -/
def dirRead (s : Fs) (m : MemInode) : Nat → List UInt8 :=
  inodeReadAt s.store.disk m.data entrySize

/-- `lookup` in an open directory. -/
def find (s : Fs) (m : MemInode) (name : Name) : Option (Nat × List UInt8) :=
  lookup (dirRead s m) (scanFuel m.data.length) name

/-- Where `dir_add` writes which entry. -/
def entryFor (s : Fs) (m : MemInode) (name : Name) (sector : Sector) (e : List UInt8) :
    Option (Nat × List UInt8) :=
  addEntry (dirRead s m) (scanFuel m.data.length) name sector e

/-- `inode_write_at` on an open inode: the count and the state. -/
def writeOpen (s : Fs) (x : Sector) (m : MemInode) (buf : List UInt8) (offset : Nat) : Nat × Fs :=
  let r := inodeWriteAt s.store x m buf offset
  (r.1, { s.setMem x r.2.2 with store := r.2.1 })

/-- `dir_lookup`: the sector of the inode it opened. -/
def dirLookup (s : Fs) (x : Sector) (name : Name) : Option (Option Sector × Fs) :=
  (s.opens x).bind fun m =>
    match find s m name with
    | none => some (none, s)
    | some (_, e) => (inodeOpen s (inodeSector e)).map fun s => (some (inodeSector e), s)

/-- `dir_add`; `e` is what its entry variable holds at first. -/
def dirAdd (s : Fs) (x : Sector) (name : Name) (sector : Sector) (e : List UInt8) :
    Option (Bool × Fs) :=
  (s.opens x).bind fun m =>
    match entryFor s m name sector e with
    | none => some (false, s)
    | some (ofs, b) =>
      let r := writeOpen s x m b ofs
      some (r.1 = entrySize, r.2)

/-- `inode_dec_nlink`, and `inode_remove` when that was the last link. -/
def unlink (s : Fs) (t : Sector) : Option Fs :=
  (step s (.decNlink t)).bind fun s => onOpen s t fun m =>
    if m.data.nlink = 0 then step s (.remove t) else some s

def dirRemove (s : Fs) (x : Sector) (name : Name) : Option (Bool × Fs) :=
  (s.opens x).bind fun m =>
    match find s m name with
    | none => some (false, s)
    | some (ofs, e) =>
      (inodeOpen s (inodeSector e)).bind fun s => (s.opens x).bind fun m =>
        let r := writeOpen s x m (eraseEntry e) ofs
        if r.1 = entrySize then
          (unlink r.2 (inodeSector e)).bind fun s =>
            (inodeClose s (inodeSector e)).map fun s => (true, s)
        else (inodeClose r.2 (inodeSector e)).map fun s => (false, s)

/-- The name ".". -/
def dot : Name := ⟨[46], by decide⟩

/-- The name "..". -/
def dotDot : Name := ⟨[46, 46], by decide⟩

/-- The two entries of a new directory. -/
def addDots (s : Fs) (x parent : Sector) (e : List UInt8) : Option (Bool × Fs) :=
  (dirAdd s x dot x e).bind fun r =>
    if r.1 then dirAdd r.2 x dotDot parent e else some (false, r.2)

/-- `dir_create_with_parent` in the sector `x`. -/
def dirCreateWithParent (s : Fs) (x parent : Sector) (entryCnt : Nat) (e : List UInt8) :
    Option (Bool × Fs) :=
  match inodeCreateInternal s.store x (max entryCnt 2 * entrySize) .dir with
  | none => none
  | some (false, st) => some (false, { s with store := st })
  | some (true, st) =>
    (inodeOpen { s with store := st, live := update s.live x true } x).bind fun s =>
      (addDots s x parent e).bind fun r => (inodeClose r.2 x).map fun s => (r.1, s)

section Ops

variable {o o' : Owner} {F : Files} {s s' : Fs} {x t : Sector} {m mt : MemInode} {f ft : File}
  {c : Nat} {D : Name → Option Nat} {name : Name} {sector : Sector} {e : List UInt8}

/-! ## Reading entries -/

theorem dirRead_eq (h : FilesOk o F s) (hm : s.opens x = some m) (hF : F x = some f) :
    dirRead s m = readAt f.data entrySize :=
  funext fun ofs => h.read hm hF entrySize ofs

theorem find_eq (h : FilesOk o F s) (hm : s.opens x = some m) (hF : F x = some f) (name : Name) :
    find s m name = lookup (readAt f.data entrySize) (scanFuel f.data.length) name := by
  rw [find, dirRead_eq h hm hF, (h.mem x m f hm hF).data.length]

theorem entryFor_eq (h : FilesOk o F s) (hm : s.opens x = some m) (hF : F x = some f)
    (name : Name) (sector : Sector) (e : List UInt8) :
    entryFor s m name sector e =
      addEntry (readAt f.data entrySize) (scanFuel f.data.length) name sector e := by
  rw [entryFor, dirRead_eq h hm hF, (h.mem x m f hm hF).data.length]

/-! ## Adding -/

/-- A write that returns something went through. -/
theorem writeGoes_of_written (buf : List UInt8) (offset : Nat)
    (h : (inodeWriteAt s.store x m buf offset).1 ≠ 0) :
    writeGoes s.store x m buf.length offset := by
  unfold inodeWriteAt at h
  by_cases hdeny : m.denyWriteCnt ≠ 0
  · rw [if_pos hdeny] at h
    exact absurd rfl h
  rw [if_neg hdeny] at h
  refine ⟨not_not.mp hdeny, fun hext => ?_⟩
  rw [if_pos hext] at h
  cases hok : (inodeExtend s.store x m.data (offset + buf.length)).1 with
  | true => rfl
  | false =>
    generalize inodeExtend s.store x m.data (offset + buf.length) = r at h hok
    obtain ⟨ok, st', n'⟩ := r
    subst hok
    exact absurd rfl h

/-- The write of an entry ends within the blocks an inode can name, and if it
    fails below a new index block, that sector held zeros. -/
def entryClean (s : Store) (m : MemInode) (ofs : Nat) : Prop :=
  m.denyWriteCnt = 0 → m.data.length < ofs + entrySize → extendClean s m.data (ofs + entrySize)

/-- The bytes of the directory with a new entry. -/
def withEntry (f : File) (i : Nat) (b : List UInt8) : File :=
  { f with data := writeAt 0 f.data b (entrySize * i) }

/-- What `dir_add` does. -/
inductive Added (o : Owner) (F : Files) (s : Fs) (x : Sector) (m : MemInode) (f : File) (c : Nat)
    (D : Name → Option Nat) (name : Name) (sector : Sector) : Option (Bool × Fs) → Prop
  | refused (hno : ¬ canAdd D name) : Added o F s x m f c D name sector (some (false, s))
  | stuck {i : Nat} {o' : Owner} {st' : Store} {n' : InodeDisk} (hadd : canAdd D name)
      (hslot : FreeSlot c f.data name i)
      (hstop : ¬ writeGoes s.store x m entrySize (entrySize * i))
      (hfiles : FilesOk o' F { s.setMem x { m with data := n' } with store := st' }) :
      Added o F s x m f c D name sector
        (some (false, { s.setMem x { m with data := n' } with store := st' }))
  | added {i : Nat} {e' : List UInt8} {o' : Owner} {st' : Store} {n' : InodeDisk}
      (hadd : canAdd D name) (hslot : FreeSlot c f.data name i) (he : e'.length = entrySize)
      (hgoes : writeGoes s.store x m entrySize (entrySize * i))
      (hfiles : FilesOk o' (update F x (some (withEntry f i (fillEntry e' name sector))))
        { s.setMem x { m with data := n' } with store := st' }) :
      Added o F s x m f c D name sector
        (some (true, { s.setMem x { m with data := n' } with store := st' }))

/-- **DIR ADD** refuses a bad or bound name, and otherwise writes one entry. -/
theorem dirAdd_spec (name : Name) (sector : Sector) (h : FilesOk o F s) (hm : s.opens x = some m) (hF : F x = some f)
    (hmap : IsMap c f.data D) (hc : 0 < c)
    (hclean : ∀ i ≤ c, canAdd D name → FreeSlot c f.data name i →
      entryClean s.store m (entrySize * i)) :
    Added o F s x m f c D name sector (dirAdd s x name sector e) := by
  unfold dirAdd
  rw [hm, bind_some, entryFor_eq h hm hF]
  rcases hmap.addEntry hc name sector e with ⟨hno, hnone⟩ | ⟨hadd, i, e', hslot, he, hsome⟩
  · simp only [hnone]
    exact .refused hno
  simp only [hsome]
  have hb := length_fillEntry he hadd.2.1 sector
  have hcl := hclean i hslot.le hadd hslot
  rw [entryClean, ← hb] at hcl
  obtain ⟨o', hgo, hstop⟩ := h.write hm hF (fillEntry e' name sector) _ hcl
  rw [hb] at hgo hstop
  obtain ⟨n', hn'⟩ := inodeWriteAt_mem s.store x m (fillEntry e' name sector) (entrySize * i)
  unfold writeOpen
  by_cases hw : writeGoes s.store x m entrySize (entrySize * i)
  · obtain ⟨hcount, hfs⟩ := hgo hw
    rw [hn'] at hfs
    simp only [hcount, hn', decide_true]
    exact .added hadd hslot he hw hfs
  · obtain ⟨hcount, hfs⟩ := hstop hw
    rw [hn'] at hfs
    simp only [hcount, hn']
    exact .stuck hadd hslot hw hfs

/-! ## Removing -/

/-- The open inode after one of its links is gone. -/
def dropLink (m : MemInode) : MemInode :=
  { m with data.nlink := m.data.nlink - 1, removed := m.removed || m.data.nlink - 1 == 0 }

theorem setInode_setMem (s : Fs) (t : Sector) {m k : MemInode} (h : k.data = m.data) :
    (s.setInode t m).setMem t k = s.setInode t k := by
  unfold Fs.setInode Fs.setMem
  rw [h]
  simp only [update_idem]

/-- **UNLINK** drops a link of the file, and marks it removed with the last. -/
theorem unlink_spec (h : FilesOk o F s) (hm : s.opens t = some mt) (hF : F t = some ft)
    (hk : 0 < ft.nlink) (ht : ft.nlink = 1 → 2 ≤ t) :
    unlink s t = some (s.setInode t (dropLink mt)) ∧
      FilesOk o (update F t (some { ft with nlink := ft.nlink - 1 }))
        (s.setInode t (dropLink mt)) := by
  have H := h.sound.mem t mt hm
  have hf := h.mem t mt ft hm hF
  have hlt : ft.nlink - 1 < 2 ^ 32 := by
    have hfits : mt.data.nlink < 2 ^ 32 := (H.fits h.sound.map).nlink
    rw [hf.nlink] at hfits
    omega
  have hfs := h.setNlink hm hF hlt
  have hopen : (s.setInode t { mt with data.nlink := ft.nlink - 1 }).opens t =
      some { mt with data.nlink := ft.nlink - 1 } := update_self ..
  have hdec : step s (.decNlink t) =
      some (s.setInode t { mt with data.nlink := ft.nlink - 1 }) := by
    simp only [step, onOpen, hm, bind_some, hf.nlink, if_neg hk.ne']
  have hfs' : FilesOk o (update F t (some { ft with nlink := ft.nlink - 1 }))
      (s.setInode t (dropLink mt)) := by
    rw [← setInode_setMem s t (m := { mt with data.nlink := ft.nlink - 1 })
      (k := dropLink mt) (by rw [dropLink, hf.nlink])]
    refine hfs.recount hopen (by rw [dropLink, hf.nlink]) fun hr => ?_
    rcases Bool.or_eq_true_iff.mp hr with hr | hr
    · exact H.removed hr
    · rw [beq_iff_eq, hf.nlink] at hr
      exact ht (by omega)
  refine ⟨?_, hfs'⟩
  rw [unlink, hdec, bind_some, onOpen, hopen, bind_some]
  by_cases hz : ft.nlink - 1 = 0
  · rw [if_pos hz]
    have hge : ¬ t < 2 := Nat.not_lt.mpr (ht (by omega))
    simp only [step, onOpen, hopen, bind_some, if_neg hge]
    refine (congrArg some (setInode_setMem s t (m := { mt with data.nlink := ft.nlink - 1 })
      (k := { mt with data.nlink := ft.nlink - 1, removed := true }) rfl)).trans ?_
    simp only [dropLink, hf.nlink, hz, beq_self_eq_true, Bool.or_true]
  · rw [if_neg hz]
    simp only [dropLink, hf.nlink, beq_eq_false_iff_ne.mpr hz, Bool.or_false]

/-- Clearing the flag of an entry goes through, unless writes are denied. -/
theorem erase_spec (h : FilesOk o F s) (hm : s.opens x = some m) (hF : F x = some f)
    (hmap : IsMap c f.data D) {i : Nat} (hi : i < c) (hdeny : m.denyWriteCnt = 0) :
    ∃ o' st' n', writeOpen s x m (eraseEntry (slot f.data i)) (entrySize * i) =
        (entrySize, { s.setMem x { m with data := n' } with store := st' }) ∧
      FilesOk o' (update F x (some (withEntry f i (eraseEntry (slot f.data i)))))
        { s.setMem x { m with data := n' } with store := st' } := by
  have hb := length_eraseEntry (length_slot hmap.length hi)
  have hend : ¬ m.data.length < entrySize * i + (eraseEntry (slot f.data i)).length := by
    rw [(h.mem x m f hm hF).data.length, hmap.length, hb, ← Nat.mul_succ]
    exact Nat.not_lt.mpr (Nat.mul_le_mul_left _ hi)
  obtain ⟨o', hgo, -⟩ := h.write hm hF (eraseEntry (slot f.data i))
    (entrySize * i) fun _ hext => absurd hext hend
  obtain ⟨hcount, hfs⟩ := hgo ⟨hdeny, fun hext => absurd hext hend⟩
  obtain ⟨n', hn'⟩ := inodeWriteAt_mem s.store x m (eraseEntry (slot f.data i)) (entrySize * i)
  rw [hn'] at hfs
  refine ⟨o', _, n', ?_, hfs⟩
  unfold writeOpen
  simp only [hcount, hb, hn']

/-! ## Opening and closing what an entry names -/

/-- The directory inode in memory may gain and lose openers only. -/
structure SameDir (m m' : MemInode) : Prop where
  data : m'.data = m.data
  deny : m'.denyWriteCnt = m.denyWriteCnt
  held : 0 < m'.openCnt

theorem open_spec (h : FilesOk o F s) (hm : s.opens x = some m) (hx : 0 < m.openCnt)
    (ht : s.live t) :
    ∃ mt m', inodeOpen s t = some (s.setMem t mt) ∧ FilesOk o F (s.setMem t mt) ∧
      (s.setMem t mt).opens x = some m' ∧ SameDir m m' ∧ (t = x → 1 < m'.openCnt) := by
  obtain ⟨mt, hopen, hfs, hsome, -⟩ := h.openInode ht
  by_cases htx : t = x
  · subst htx
    rw [hsome m hm] at hopen hfs
    exact ⟨_, _, hopen, hfs, s.setMem_opens_self t _, ⟨rfl, rfl, Nat.succ_pos _⟩,
      fun _ => Nat.succ_lt_succ hx⟩
  · refine ⟨mt, m, hopen, hfs, ?_, ⟨rfl, rfl, hx⟩, fun e => absurd e htx⟩
    rw [s.setMem_opens_of_ne mt (Ne.symm htx), hm]

theorem close_spec (h : FilesOk o F s) (hm : s.opens x = some m) (hx : 0 < m.openCnt)
    (hmt : s.opens t = some mt) (htx : t = x → 1 < m.openCnt) :
    ∃ s' F' m', inodeClose s t = some s' ∧ FilesOk o F' s' ∧ F' x = F x ∧
      s'.opens x = some m' ∧ SameDir m m' := by
  obtain ⟨s', hs', -⟩ := h.sound.close_used hmt
  have hopens := inodeClose_opens hmt hs'
  by_cases he : t = x
  · subst he
    obtain rfl : mt = m := some.inj (hmt.symm.trans hm)
    have hge := htx rfl
    have hnz : ¬ mt.openCnt - 1 = 0 := by omega
    obtain ⟨hfs, -⟩ := (h.close hmt hs').2 fun hl => hnz hl.1
    rw [if_neg hnz] at hopens
    refine ⟨s', F, { mt with openCnt := mt.openCnt - 1 }, hs', hfs, rfl, ?_, rfl, rfl, ?_⟩
    · rw [hopens, Fs.setMem_opens_self]
    · exact Nat.sub_pos_of_lt hge
  · have hsame : s'.opens x = some m := by
      rw [hopens]
      split
      · rw [s.dropMem_opens_of_ne (Ne.symm he), hm]
      · rw [s.setMem_opens_of_ne _ (Ne.symm he), hm]
    by_cases hl : mt.lastClose
    · refine ⟨s', _, m, hs', (h.close hmt hs').1 hl, ?_, hsame, rfl, rfl, hx⟩
      exact update_of_ne (Ne.symm he) ..
    · exact ⟨s', F, m, hs', ((h.close hmt hs').2 hl).1, rfl, hsame, rfl, rfl, hx⟩

/-! ## Making a directory -/

/-- An add into a directory with a free slot does not extend it. -/
theorem dirAdd_inside (name : Name) (sector : Sector) (h : FilesOk o F s)
    (hm : s.opens x = some m) (hdeny : m.denyWriteCnt = 0) (hF : F x = some f)
    (hmap : IsMap c f.data D) (hadd : canAdd D name)
    (hsector : sector < 2 ^ 32) {j : Nat} (hj : j < c) (hfree : inUse (slot f.data j) = false) :
    ∃ i e' o' st' n', i < c ∧ e'.length = entrySize ∧
      dirAdd s x name sector e = some (true, { s.setMem x { m with data := n' } with store := st' }) ∧
      FilesOk o' (update F x (some (withEntry f i (fillEntry e' name sector))))
        { s.setMem x { m with data := n' } with store := st' } ∧
      IsMap c (withEntry f i (fillEntry e' name sector)).data
        (update D name (some sector)) := by
  have hinside : ∀ i, FreeSlot c f.data name i → i < c := by
    intro i hslot
    refine Nat.lt_of_le_of_ne hslot.le ?_
    rintro rfl
    exact Bool.false_ne_true (hfree.symm.trans (hslot.first j hj))
  have hend : ∀ i, FreeSlot c f.data name i → ¬ m.data.length < entrySize * i + entrySize := by
    intro i hslot
    rw [(h.mem x m f hm hF).data.length, hmap.length, ← Nat.mul_succ]
    exact Nat.not_lt.mpr (Nat.mul_le_mul_left _ (hinside i hslot))
  have hspec := dirAdd_spec (e := e) name sector h hm hF hmap
    (Nat.lt_of_le_of_lt (Nat.zero_le j) hj) fun i _ _ hslot _ hext => absurd hext (hend i hslot)
  generalize dirAdd s x name sector e = r at hspec ⊢
  cases hspec with
  | refused hno => exact absurd hadd hno
  | stuck _ hslot hstop _ =>
    exact absurd ⟨hdeny, fun hext => absurd hext (hend _ hslot)⟩ hstop
  | @added i e' o' st' n' _ hslot he _ hfs =>
    refine ⟨i, e', o', st', n', hinside i hslot, he, rfl, hfs, ?_⟩
    have hadded := hmap.add hsector hslot he hadd
    rwa [Nat.max_eq_left (hinside i hslot)] at hadded

/-- The map of a new directory. -/
def dotsMap (x parent : Sector) : Name → Option Nat :=
  update (update (fun _ => none) dot (some x)) dotDot (some parent)

/-- "." and ".." fit into a directory of zeros with two entries. -/
theorem addDots_spec (h : FilesOk o F s) (hm : s.opens x = some m) (hdeny : m.denyWriteCnt = 0)
    (hF : F x = some f) (hdata : f.data = List.replicate (entrySize * c) 0) (hc : 2 ≤ c)
    {parent : Sector} (hx : x < 2 ^ 32) (hparent : parent < 2 ^ 32) :
    ∃ o' st' n' f', addDots s x parent e =
        some (true, { s.setMem x { m with data := n' } with store := st' }) ∧
      FilesOk o' (update F x (some f'))
        { s.setMem x { m with data := n' } with store := st' } ∧
      f'.type = f.type ∧ f'.nlink = f.nlink ∧ IsMap c f'.data (dotsMap x parent) := by
  have hzero := inUse_zeros (entrySize * c)
  rw [← hdata] at hzero
  have hmap : IsMap c f.data fun _ => none := hdata ▸ isMap_zeros c
  obtain ⟨i, e1, o1, st1, n1, hi, he1, hadd1, hfs1, hmap1⟩ := dirAdd_inside (e := e)
    dot x h hm hdeny hF hmap ⟨(by decide), (by decide), rfl⟩ hx
    (j := 0) (by omega) (hzero 0)
  -- one of the first two slots is still free
  obtain ⟨j, hj, hji⟩ : ∃ j < c, j ≠ i := by
    by_cases hi0 : i = 0
    · exact ⟨1, hc, by omega⟩
    · exact ⟨0, by omega, by omega⟩
  have hfree : inUse (slot (withEntry f i (fillEntry e1 dot x)).data j) = false := by
    rw [withEntry, slot_writeAt hmap.length hi.le (length_fillEntry he1 (by decide) x) j (by omega),
      if_neg hji, hzero j]
  obtain ⟨i2, e2, o2, st2, n2, hi2, he2, hadd2, hfs2, hmap2⟩ := dirAdd_inside (e := e)
    dotDot parent hfs1 (Fs.setMem_opens_self ..) hdeny
    (update_self ..) hmap1 ⟨(by decide), (by decide), update_of_ne (by decide) ..⟩ hparent hj hfree
  have hstate : ({ Fs.setMem { s.setMem x { m with data := n1 } with store := st1 } x
      { { m with data := n1 } with data := n2 } with store := st2 } : Fs) =
      { s.setMem x { m with data := n2 } with store := st2 } := by
    unfold Fs.setMem
    simp only [update_idem]
  rw [hstate] at hadd2 hfs2
  rw [update_idem] at hfs2
  refine ⟨o2, st2, n2, _, ?_, hfs2, rfl, rfl, hmap2⟩
  rw [addDots, hadd1, bind_some, if_pos rfl, hadd2]

/-- **DIR CREATE**: when its blocks can be allocated, the new directory holds
    "." and "..", and is closed again. -/
theorem dirCreate_spec (h : FilesOk o F s) (hlive : s.live x = false) (hu : s.store.used x)
    (ho : o x = some (x, .self)) {parent : Sector} (hparent : parent < 2 ^ 32) {entryCnt : Nat}
    (hlimit : bytesToSectors (max entryCnt 2 * entrySize) ≤ 16524)
    (hok : (growBlocks 0 (bytesToSectors (max entryCnt 2 * entrySize)) s.store
      (blankInode (max entryCnt 2 * entrySize) .dir)).1 = true) :
    ∃ o' st' f', dirCreateWithParent s x parent entryCnt e =
        some (true, { s with store := st', live := update s.live x true }) ∧
      FilesOk o' (update F x (some f'))
        { s with store := st', live := update s.live x true } ∧
      f'.type = InodeType.dir.code ∧ f'.nlink = 1 ∧
      IsMap (max entryCnt 2) f'.data (dotsMap x parent) := by
  obtain ⟨st1, o1, hcreate, hfs1⟩ := h.created hlive hu ho hlimit hok
  have hnone : s.opens x = none := h.sound.opens_none hlive
  have hx : x < 2 ^ 32 := (h.sound.map.range x hu).trans_le h.sound.map.size
  obtain ⟨m, hopen, hfs2, -, hm⟩ := hfs1.openInode (x := x) (update_self ..)
  have hm := hm hnone
  subst hm
  obtain ⟨o3, st3, n3, f', hdots, hfs3, htype, hnlink, hmap⟩ := addDots_spec (e := e)
    (c := max entryCnt 2) hfs2 (Fs.setMem_opens_self ..) rfl (update_self ..)
    (by rw [newFile, Nat.mul_comm]) (Nat.le_max_right ..) hx hparent
  rw [update_idem] at hfs3
  -- the directory is closed: nobody else has it open, and it is not removed
  obtain ⟨s4, hclose, -⟩ := hfs3.sound.close_used (x := x) (Fs.setMem_opens_self ..)
  obtain ⟨hfs4, hstate⟩ := (hfs3.close (Fs.setMem_opens_self ..) hclose).2 fun hl => nomatch hl.2.1
  have hs4 : s4 = { s with store := st3, live := update s.live x true } := by
    rw [hstate]
    refine (if_pos rfl).trans ?_
    unfold Fs.dropMem Fs.setMem
    simp only [update_idem]
    rw [← hnone, update_eq_self]
  subst hs4
  refine ⟨o3, st3, f', ?_, hfs4, htype, hnlink, hmap⟩
  simp only [dirCreateWithParent, hcreate, hopen, bind_some, hdots, hclose, map_some]

end Ops

end MavDirOps
