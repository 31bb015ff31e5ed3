import Maverick.SharingProofs
import Maverick.ByteFileProofs

/-! # Files are byte arrays

An inode is read and written through its index, a sector at a time. As long as no allocation fails,
what users see is a growable byte array per inode: the blocks of a file hold its bytes and zeros up
to the end of its last sector, so that a file can grow inside a sector without touching it. -/

namespace MavInode

open MavBlock MavField MavRun MavByteFile List

variable {f : List UInt8} {offset : Nat}

section Files

variable {o o' : Owner} {s s' : Fs} {st st' : Store} {x y z : Sector} {m : MemInode}
  {n n' : InodeDisk} {d d' : Disk} {g : Nat → UInt8}

/-! ## The bytes of an inode -/

/-- Byte `i` of the file's blocks. -/
def byteAt (d : Disk) (x : Sector) (n : InodeDisk) (i : Nat) : UInt8 :=
  d (ptr d x n (dataSlot (i / 512))) ⟨i % 512, Nat.mod_lt _ (by decide)⟩

/-- The file's blocks hold the bytes `g`, also past its length. -/
def Holds (d : Disk) (x : Sector) (n : InodeDisk) (g : Nat → UInt8) : Prop :=
  ∀ i, i / 512 < bytesToSectors n.length → byteAt d x n i = g i

/-- The data blocks are as they were. -/
theorem Holds.frame (h : Holds d x n g) (hptr : ∀ a, ptr d' x n a = ptr d x n a)
    (hd : ∀ k < bytesToSectors n.length,
      d' (ptr d x n (dataSlot k)) = d (ptr d x n (dataSlot k))) : Holds d' x n g := by
  intro i hi
  rw [← h i hi]
  unfold byteAt
  rw [hptr, hd _ hi]

/-! ## Reading -/

theorem bytesAt_eq_readAt (hm : Mapped d x n) (h : Holds d x n (elemAt 0 f))
    (hl : n.length = f.length) {size : Nat} (hc : chunkSize n size offset ≠ 0) :
    bytesAt (d (byteToSector d n offset)) (offset % 512) (chunkSize n size offset) =
      readAt f (chunkSize n size offset) offset := by
  have hpos := (chunkSize_pos hc).1
  have hle : chunkSize n size offset ≤ n.length - offset ∧
      chunkSize n size offset ≤ 512 - offset % 512 := by
    unfold chunkSize
    omega
  have hlen : (bytesAt (d (byteToSector d n offset)) (offset % 512)
      (chunkSize n size offset)).length = (readAt f (chunkSize n size offset) offset).length := by
    rw [length_bytesAt, length_readAt]
    omega
  refine ext_elemAt (z := 0) hlen fun i hi => ?_
  rw [elemAt_readAt (hlen ▸ hi), hm.byteToSector hpos]
  rw [length_bytesAt] at hi
  -- the chunk stays in one sector
  have hdiv : (offset + i) / 512 = offset / 512 := by omega
  have hmod : (offset + i) % 512 = offset % 512 + i := by omega
  have hblock : (offset + i) / 512 < bytesToSectors n.length := by
    rw [hdiv]
    exact div_lt_sectors hpos
  rw [← h (offset + i) hblock]
  unfold elemAt byteAt
  rw [getD_bytesAt hi (by omega)]
  simp only [hdiv, hmod]

/-- **READ**: the loop returns the bytes up to the end of the file. -/
theorem readLoop_eq (hm : Mapped d x n) (h : Holds d x n (elemAt 0 f))
    (hl : n.length = f.length) (fuel size offset : Nat) : size ≤ fuel →
      readLoop d n fuel size offset = readAt f size offset := by
  induction fuel generalizing size offset with
  | zero =>
    intro hfuel
    rw [Nat.le_zero.mp hfuel]
    rfl
  | succ fuel ih =>
    intro hfuel
    unfold readLoop
    by_cases hc : chunkSize n size offset = 0
    · simp only [hc, if_true]
      have hzero : (readAt f size offset).length = 0 := by
        rw [length_readAt]
        unfold chunkSize at hc
        omega
      exact (length_eq_zero_iff.mp hzero).symm
    · simp only [hc, if_false]
      have hle : chunkSize n size offset ≤ size := by
        unfold chunkSize
        omega
      rw [bytesAt_eq_readAt hm h hl hc, ih _ _ (by omega), readAt_split f hle]

/-! ## Writing -/

/-- A data block is written in one place only. -/
theorem Holds.write_block (hn : InodeOk o st x n) (hm : Mapped st.disk x n)
    (h : Holds st.disk x n g) (buf : List UInt8)
    (hpos : offset < n.length) (hfit : offset % 512 + buf.length ≤ 512) :
    Holds (st.write (byteToSector st.disk n offset)
      (memcpyInto (st.disk (byteToSector st.disk n offset)) (offset % 512) buf)).disk x n
      (patch 0 buf offset g) := by
  have hk := div_lt_sectors hpos
  have hplace := hn.place (dataSlot_ne_self _) (hm.data _ hk)
  rw [hm.byteToSector hpos]
  have hw := hn.write (memcpyInto (st.disk (ptr st.disk x n (dataSlot (offset / 512))))
    (offset % 512) buf) hplace.2 (dataSlot_plain _)
  intro i hi
  have hi' := hi
  have hnz := hm.data _ hi'
  unfold byteAt
  rw [hw.2]
  by_cases hblock : i / 512 = offset / 512
  · rw [hblock]
    show blockWrite st.disk _ _ _ _ = _
    rw [blockWrite_same]
    by_cases hin : offset ≤ i ∧ i < offset + buf.length
    · rw [patch_inside hin.1 hin.2, memcpyInto_inside (by show offset % 512 ≤ i % 512; omega)
        (by show i % 512 < offset % 512 + buf.length; omega)]
      congr 1
      show i % 512 - offset % 512 = i - offset
      omega
    · rw [patch_outside (by omega), memcpyInto_outside (by
        show i % 512 < offset % 512 ∨ offset % 512 + buf.length ≤ i % 512
        omega), ← h i hi]
      unfold byteAt
      rw [hblock]
  · -- another data block of the file
    have hother : ptr st.disk x n (dataSlot (i / 512)) ≠
        ptr st.disk x n (dataSlot (offset / 512)) := by
      intro e
      have h1 := (hn.place (dataSlot_ne_self _) hnz).2
      rw [e, hplace.2] at h1
      exact hblock (dataSlot_inj (hi.trans_le hm.limit) (hk.trans_le hm.limit) (pair_inj h1).2.symm)
    show blockWrite st.disk _ _ _ _ = _
    rw [blockWrite_other hother, patch_outside (by omega)]
    exact h i hi

/-- **WRITE**: below the end of the file the loop writes all bytes and no others. -/
theorem writeLoop_holds (fuel : Nat) (st : Store) (buf : List UInt8) (offset done : Nat)
    (g : Nat → UInt8) :
    InodeOk o st x n → Mapped st.disk x n → Holds st.disk x n g →
      buf.length ≤ fuel → offset + buf.length ≤ n.length →
        (writeLoop n fuel st buf offset done).1 = done + buf.length ∧
          Holds (writeLoop n fuel st buf offset done).2.disk x n (patch 0 buf offset g) := by
  induction fuel generalizing st buf offset done g with
  | zero =>
    intro _ _ h hfuel _
    have hnil : buf = [] := length_eq_zero_iff.mp (Nat.le_zero.mp hfuel)
    subst hnil
    rw [patch_nil]
    exact ⟨rfl, h⟩
  | succ fuel ih =>
    intro hn hm h hfuel hend
    unfold writeLoop
    by_cases hc : chunkSize n buf.length offset = 0
    · have hnil : buf = [] := by
        refine length_eq_zero_iff.mp ?_
        unfold chunkSize at hc
        omega
      subst hnil
      rw [patch_nil]
      exact ⟨rfl, h⟩
    simp only [hc, if_false]
    have hpos := (chunkSize_pos hc).1
    have hle : chunkSize n buf.length offset ≤ buf.length ∧
        chunkSize n buf.length offset ≤ 512 - offset % 512 := by
      unfold chunkSize
      omega
    have htake : (buf.take (chunkSize n buf.length offset)).length =
        chunkSize n buf.length offset := by
      rw [length_take]
      omega
    have hplace := hn.place (dataSlot_ne_self _) (hm.data _ (div_lt_sectors hpos))
    rw [← hm.byteToSector hpos] at hplace
    have hw := hn.write (memcpyInto (st.disk (byteToSector st.disk n offset)) (offset % 512)
      (buf.take (chunkSize n buf.length offset))) hplace.2 (dataSlot_plain _)
    have hh := Holds.write_block hn hm h (buf.take (chunkSize n buf.length offset)) hpos (by omega)
    have hrec := ih _ (buf.drop (chunkSize n buf.length offset))
      (offset + chunkSize n buf.length offset) (done + chunkSize n buf.length offset) _
      hw.1 (hm.of_ptr hw.2) hh (by rw [length_drop]; omega)
      (by rw [length_drop]; omega)
    rw [patch_split, length_drop] at hrec
    refine ⟨hrec.1.trans (by omega), hrec.2⟩

/-! ## What one inode's operations leave alone -/

/-- The data loop writes data blocks only. -/
theorem writeLoop_evolves (fuel : Nat) (st : Store) (buf : List UInt8) (offset done : Nat)
    (hn : InodeOk o st x n) (hm : Mapped st.disk x n) :
    Evolves (dataOf x (bytesToSectors n.length)) o st o (writeLoop n fuel st buf offset done).2 :=
  writeLoop_keeps (P := Evolves _ o st o)
    (fun _ _ _ b hk hy h => h.trans (.write b hy ⟨rfl, _, hk, rfl⟩)) _ _ _ _ _ hn hm (.refl ..)

/-- The file at `x` is `f`: its blocks hold its bytes and zeros. Blocks past
    its length, left by an extension that failed, hold zeros. -/
structure FileOk (d : Disk) (x : Sector) (n : InodeDisk) (f : List UInt8) : Prop where
  length : n.length = f.length
  holds : Holds d x n (elemAt 0 f)
  spare : ∀ k < 16524, bytesToSectors n.length ≤ k → ptr d x n (dataSlot k) ≠ 0 →
    d (ptr d x n (dataSlot k)) = zeroBlock

/-- Another inode reads the same pointers and holds the same bytes. -/
theorem Evolves.fileOk (he : Evolves (ofInode x) o st o' st')
    (hz : InodeOk o st z n) (hm : Mapped st.disk z n) (hne : z ≠ x) (h : FileOk st.disk z n f) :
    FileOk st'.disk z n f := by
  have hptr : ∀ a, ptr st'.disk z n a = ptr st.disk z n a := by
    refine ptr_congr fun y hy hnz => ?_
    obtain ⟨hu, ho | ho | ⟨i, ho⟩⟩ := hz.indexOf_owner hy hnz
    all_goals exact he.disk y _ hu ho hne
  have hdata : ∀ k, ptr st.disk z n (dataSlot k) ≠ 0 →
      st'.disk (ptr st.disk z n (dataSlot k)) = st.disk (ptr st.disk z n (dataSlot k)) := by
    intro k hp
    obtain ⟨hu, ho⟩ := hz.place (dataSlot_ne_self k) hp
    exact he.disk _ _ hu ho hne
  refine ⟨h.length, h.holds.frame hptr fun k hk => hdata k (hm.data k hk), fun k hk hl hp => ?_⟩
  rw [hptr] at hp ⊢
  rw [hdata k hp]
  exact h.spare k hk hl hp

/-! ## Growing a file -/

/-- New blocks are zero, old ones keep their bytes. The length may already
    stand at `newLength`, if the blocks up to it are there. -/
theorem Grown.holds {C : Prop} {F : Slot → Prop} {old : Nat}
    (G : Grown (keepsFrom old) F C x o st n o' st' n') (newLength : Nat) (hC : C) (hn : InodeOk o st x n)
    (hlimit : bytesToSectors newLength ≤ 16524)
    (hfull : ∀ k, old ≤ k → k < bytesToSectors newLength → F (dataSlot k))
    (hle : old ≤ bytesToSectors newLength)
    (hold : ∀ i, i / 512 < old → ptr st.disk x n (dataSlot (i / 512)) ≠ 0 ∧
      byteAt st.disk x n i = g i)
    (hspare : ∀ k < 16524, old ≤ k → ptr st.disk x n (dataSlot k) ≠ 0 →
      st.disk (ptr st.disk x n (dataSlot k)) = zeroBlock)
    (hg : ∀ i, old ≤ i / 512 → g i = 0) :
    Holds st'.disk x { n' with length := newLength } g ∧
      ∀ k < 16524, bytesToSectors newLength ≤ k →
        ptr st'.disk x { n' with length := newLength } (dataSlot k) ≠ 0 →
          st'.disk (ptr st'.disk x { n' with length := newLength } (dataSlot k)) = zeroBlock := by
  have hptr : ∀ a, ptr st'.disk x { n' with length := newLength } a = ptr st'.disk x n' a := by
    intro a
    cases a <;> rfl
  -- a data block that keeps its sector keeps its bytes
  have hsame : ∀ k, ptr st.disk x n (dataSlot k) ≠ 0 →
      st'.disk (ptr st.disk x n (dataSlot k)) = st.disk (ptr st.disk x n (dataSlot k)) :=
    fun k hp => G.grows.disk _ (hn.place (dataSlot_ne_self _) hp).1 (hn.data_not_index hp)
  have hzero : ∀ k < 16524, old ≤ k → ptr st'.disk x n' (dataSlot k) ≠ 0 →
      st'.disk (ptr st'.disk x n' (dataSlot k)) = zeroBlock := by
    intro k hk hok hp
    by_cases e : ptr st'.disk x n' (dataSlot k) = ptr st.disk x n (dataSlot k)
    · rw [e] at hp ⊢
      exact (hsame k hp).trans (hspare k hk hok hp)
    · exact G.zero hC k e
  constructor
  · intro i hi
    have hi' : i / 512 < bytesToSectors newLength := hi
    unfold byteAt
    rw [hptr]
    by_cases hk : i / 512 < old
    · obtain ⟨hp, hb⟩ := hold i hk
      rw [G.kept _ (keepsFrom_dataSlot hk) hp, hsame _ hp]
      exact hb
    · have hk' := Nat.le_of_not_lt hk
      rw [hzero _ (hi'.trans_le hlimit) hk' (G.full _ (hfull _ hk' hi')), hg i hk']
      rfl
  · intro k hk hl hp
    exact hzero k hk (hle.trans hl) hp

/-- Past its blocks a file reads zero. -/
theorem FileOk.elemAt_zero (h : FileOk d x n f) {i : Nat}
    (hi : bytesToSectors n.length ≤ i / 512) : elemAt 0 f i = 0 := by
  unfold elemAt
  rw [getD_eq_getElem?_getD, List.getElem?_eq_none]
  · rfl
  · rw [← h.length]
    unfold bytesToSectors at hi
    omega

/-- Storing the inode in its sector touches none of its blocks. -/
theorem FileOk.write_self (h : FileOk st.disk x n f) (hn : InodeOk o st x n)
    (hm : Mapped st.disk x n) (hx : o x = some (x, .self)) (b : Block) :
    FileOk (st.write x b).disk x n f := by
  have hw := hn.write b hx trivial
  have hdata : ∀ k, ptr st.disk x n (dataSlot k) ≠ 0 → ptr st.disk x n (dataSlot k) ≠ x := by
    intro k hp e
    have ho := (hn.place (dataSlot_ne_self k) hp).2
    rw [e, hx] at ho
    exact dataSlot_ne_self k (pair_inj ho).2.symm
  refine ⟨h.length, h.holds.frame hw.2 fun k hk => blockWrite_other (hdata k (hm.data k hk)),
    fun k hk hl hp => ?_⟩
  rw [hw.2] at hp ⊢
  exact (blockWrite_other (hdata k hp)).trans (h.spare k hk hl hp)

/-- The file with zeros up to its new length. -/
theorem elemAt_append_zeros (f : List UInt8) (k : Nat) :
    elemAt 0 (f ++ List.replicate k 0) = elemAt 0 f := by
  funext i
  unfold elemAt
  rw [getD_eq_getElem?_getD, getD_eq_getElem?_getD]
  by_cases hi : i < f.length
  · rw [List.getElem?_append_left hi]
  · rw [List.getElem?_append_right (by omega), List.getElem?_replicate,
      List.getElem?_eq_none (by omega : f.length ≤ i)]
    split
    · rfl
    · rfl

/-- **EXTENSION**: the file grows by zeros. -/
theorem Sound.extend_file (h : Sound o s) (hm : s.opens x = some m)
    {newLength : Nat} (hf : FileOk s.store.disk x m.data f) (hle : m.data.length ≤ newLength)
    (hlimit : bytesToSectors newLength ≤ 16524)
    (hok : (MavInode.inodeExtend s.store x m.data newLength).1 = true) :
    FileOk (MavInode.inodeExtend s.store x m.data newLength).2.1.disk x
      (MavInode.inodeExtend s.store x m.data newLength).2.2
      (f ++ List.replicate (newLength - f.length) 0) ∧
    (MavInode.inodeExtend s.store x m.data newLength).2.1.disk x =
      (MavInode.inodeExtend s.store x m.data newLength).2.2.encode ∧
    (MavInode.inodeExtend s.store x m.data newLength).2.2.type = m.data.type ∧
    (MavInode.inodeExtend s.store x m.data newLength).2.2.nlink = m.data.nlink := by
  have H := h.mem x m hm
  have hx := (h.self x H.live).2
  have hlen : newLength = (f ++ List.replicate (newLength - f.length) 0).length := by
    rw [length_append, length_replicate, ← hf.length]
    omega
  unfold MavInode.inodeExtend at hok ⊢
  by_cases hsame : bytesToSectors newLength = bytesToSectors m.data.length
  · simp only [if_pos hsame, and_self, and_true]
    refine ⟨?_, blockWrite_same _ _ _⟩
    have hgrown : FileOk s.store.disk x { m.data with length := newLength }
        (f ++ List.replicate (newLength - f.length) 0) := by
      refine ⟨hlen, ?_, ?_⟩
      · rw [elemAt_append_zeros]
        exact fun i hi => hf.holds i (hsame ▸ hi)
      · exact fun k hk hl => hf.spare k hk (hsame ▸ hl)
    exact hgrown.write_self (n := { m.data with length := newLength })
      ⟨H.inode.direct, H.inode.indirect, H.inode.doubly, H.inode.leaves⟩
      ⟨hlimit, fun k hk => H.mapped.data k (hsame ▸ hk)⟩ hx _
  · simp only [if_neg hsame] at hok ⊢
    obtain ⟨o', G⟩ := growBlocks_spec (bytesToSectors m.data.length) (bytesToSectors newLength)
      h.map H.inode
    generalize growBlocks (bytesToSectors m.data.length) (bytesToSectors newLength) s.store
      m.data = r at G hok ⊢
    obtain ⟨ok, st', n'⟩ := r
    cases ok with
    | false => exact nomatch hok
    | true =>
      refine ⟨?_, blockWrite_same _ _ _, G.type, G.nlink⟩
      have hmono : bytesToSectors m.data.length ≤ bytesToSectors newLength := by
        unfold bytesToSectors
        omega
      obtain ⟨hholds, hspare⟩ := G.holds _ (Or.inl rfl) H.inode hlimit
        (fun k h1 h2 => ⟨rfl, k, rfl, h1, h2, h2.trans_le hlimit⟩) hmono
        (fun i hi => ⟨H.mapped.data _ hi, hf.holds i hi⟩) hf.spare
        fun i hi => hf.elemAt_zero hi
      have hn' := G.inode (Or.inl rfl)
      have hgrown : FileOk st'.disk x { n' with length := newLength }
          (f ++ List.replicate (newLength - f.length) 0) :=
        ⟨hlen, elemAt_append_zeros f _ ▸ hholds, hspare⟩
      exact hgrown.write_self (n := { n' with length := newLength }) (o := o')
        { hn' with } ⟨hlimit, G.data hlimit H.mapped.data⟩
        ((G.grows.owner x (h.self x H.live).1).trans hx) _

/-- Data writes leave the pointers of every inode. -/
theorem Evolves.ptr_eq {N : Nat} (he : Evolves (dataOf x N) o st o' st') (hz : InodeOk o st z n) (a : Slot) :
    ptr st'.disk z n a = ptr st.disk z n a := by
  refine ptr_congr (fun y hy hnz => ?_) a
  obtain ⟨hu, ho | ho | ⟨i, ho⟩⟩ := hz.indexOf_owner hy hnz
  · refine he.disk y _ hu ho ?_
    rintro ⟨-, k, -, e⟩
    exact (dataSlot_ne_index k).1 e.symm
  · refine he.disk y _ hu ho ?_
    rintro ⟨-, k, -, e⟩
    exact (dataSlot_ne_index k).2.1 e.symm
  · refine he.disk y _ hu ho ?_
    rintro ⟨-, k, -, e⟩
    exact (dataSlot_ne_index k).2.2 i e.symm

/-- An inode's own sector is none of the data blocks. -/
theorem self_not_dataOf {N : Nat} : ¬ dataOf x N (z, .self) := by
  rintro ⟨-, k, -, e⟩
  exact dataSlot_ne_self k e.symm

/-- The data loop on a file that is long enough. -/
theorem Sound.writeLoop_file {buf : List UInt8} (h : Sound o s)
    (hm : s.opens x = some m) (hf : FileOk s.store.disk x m.data f)
    (hend : offset + buf.length ≤ m.data.length) :
    (MavInode.writeLoop m.data buf.length s.store buf offset 0).1 = buf.length ∧
    Evolves (dataOf x (bytesToSectors m.data.length)) o s.store o
      (MavInode.writeLoop m.data buf.length s.store buf offset 0).2 ∧
    FileOk (MavInode.writeLoop m.data buf.length s.store buf offset 0).2.disk x m.data
      (writeAt 0 f buf offset) := by
  have H := h.mem x m hm
  obtain ⟨hcount, hholds⟩ := writeLoop_holds buf.length s.store buf offset 0 _ H.inode H.mapped
    hf.holds le_rfl hend
  have he := writeLoop_evolves (o := o) buf.length s.store buf offset 0 H.inode H.mapped
  refine ⟨hcount.trans (Nat.zero_add _), he, ?_, ?_, ?_⟩
  · rw [length_writeAt, hf.length, Nat.max_eq_left (hf.length ▸ hend)]
  · rw [elemAt_writeAt]
    exact hholds
  · intro k hk hl hp
    rw [he.ptr_eq H.inode] at hp ⊢
    obtain ⟨hu, ho⟩ := H.inode.place (dataSlot_ne_self k) hp
    refine (he.disk _ _ hu ho ?_).trans (hf.spare k hk hl hp)
    rintro ⟨-, k', hk', e⟩
    have hkk := dataSlot_inj hk (hk'.trans_le H.mapped.limit) e
    omega

/-- Zeros that a write covers or that fill its gap need not be written before. -/
theorem writeAt_append_zeros (f buf : List UInt8) (offset : Nat) :
    writeAt 0 (f ++ List.replicate (offset + buf.length - f.length) 0) buf offset =
      writeAt 0 f buf offset := by
  refine ext_elemAt (z := 0) ?_ fun i _ => ?_
  · simp only [length_writeAt, length_append, length_replicate]
    omega
  · rw [elemAt_writeAt, elemAt_writeAt, elemAt_append_zeros]

/-- The file is long enough, or every sector it needs for the write is there. -/
def writeRoom (s : Store) (x : Sector) (n : InodeDisk) (size offset : Nat) : Prop :=
  bytesToSectors (offset + size) ≤ 16524 ∧
    (n.length < offset + size → (inodeExtend s x n (offset + size)).1 = true)

/-! ## The inode in its sector -/

theorem Agrees.data_ptr (h : Agrees n n') (hm : Mapped d x n) {k : Nat}
    (hk : k < bytesToSectors n.length) :
    ptr d x n' (dataSlot k) = ptr d x n (dataSlot k) := by
  by_cases hd : ∃ i, dataSlot k = .direct i
  · obtain ⟨i, e⟩ := hd
    have hi := eq_of_dataSlot_direct (hk.trans_le hm.limit) e
    rw [e]
    exact h.direct i (hi ▸ hk)
  · exact h.ptr_eq (reaches_of_ptr (fun i e => hd ⟨i, e⟩) (hm.data k hk))

/-- The inode that lags behind the one in memory is the same file, if its spare
    direct blocks are zero. -/
theorem Agrees.fileOk (h : Agrees n n') (hm : Mapped d x n) (hf : FileOk d x n' f)
    (hspare : ∀ i : Fin 12, bytesToSectors n.length ≤ i.val → n.direct i ≠ 0 →
      d (n.direct i) = zeroBlock) : FileOk d x n f := by
  refine ⟨h.length.symm.trans hf.length, fun i hi => ?_, fun k hk hl hp => ?_⟩
  · have hb := hf.holds i (h.length.symm ▸ hi)
    unfold byteAt at hb ⊢
    rw [h.data_ptr hm hi] at hb
    exact hb
  by_cases hd : ∃ i, dataSlot k = .direct i
  · obtain ⟨i, e⟩ := hd
    have hi := eq_of_dataSlot_direct hk e
    rw [e] at hp ⊢
    exact hspare i (hi ▸ hl) hp
  · have hr := reaches_of_ptr (fun i e => hd ⟨i, e⟩) hp
    have hs := hf.spare k hk (h.length.symm ▸ hl)
    rw [h.ptr_eq hr] at hs
    exact hs hp

theorem FileOk.direct_spare (h : FileOk d x n f) (i : Fin 12)
    (hi : bytesToSectors n.length ≤ i.val) (hp : n.direct i ≠ 0) :
    d (n.direct i) = zeroBlock := by
  have hs := h.spare i.val (i.isLt.trans (by decide)) hi
  rw [dataSlot_direct] at hs
  exact hs hp

end Files

end MavInode
