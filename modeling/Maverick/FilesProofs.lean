import Maverick.FileProofs

/-! # The files of a file system

The abstract view of the inode layer: every live inode is a file, a byte array with a type and a
link count. The inode in its sector and the one in memory are the same file, also after an
extension that failed. Each operation of the table is given by what it does to the files. -/

namespace MavInode

open MavBlock MavField MavRun MavByteFile Option
open Function (update update_self update_of_ne update_eq_self update_idem)

structure File where
  data : List UInt8
  type : Nat
  nlink : Nat
  deriving DecidableEq

/-- The files by inode number. -/
abbrev Files := Sector → Option File

/-- The inode is the file. -/
structure IsFile (d : Disk) (x : Sector) (n : InodeDisk) (f : File) : Prop where
  data : FileOk d x n f.data
  type : n.type = f.type
  nlink : n.nlink = f.nlink

/-- The files are what the device and the open inodes hold. -/
structure FilesOk (o : Owner) (F : Files) (s : Fs) : Prop where
  sound : Sound o s
  disk : ∀ x, s.live x → ∃ f, F x = some f ∧ IsFile s.store.disk x (s.onDisk x) f
  mem : ∀ x m f, s.opens x = some m → F x = some f → IsFile s.store.disk x m.data f
  gone : ∀ x, s.live x = false → F x = none

section Files

variable {o o' : Owner} {s s' : Fs} {st st' : Store} {x y z : Sector} {m m' : MemInode}
  {n n' : InodeDisk} {length : Nat} {type : InodeType} {F : Files} {f f' : File}

/-- An open inode and its file. -/
theorem FilesOk.opened (h : FilesOk o F s) (hm : s.opens x = some m) :
    ∃ f, F x = some f ∧ IsFile s.store.disk x m.data f ∧
      IsFile s.store.disk x (s.onDisk x) f := by
  obtain ⟨f, hF, hf⟩ := h.disk x (h.sound.mem x m hm).live
  exact ⟨f, hF, h.mem x m f hm hF, hf⟩

theorem Evolves.isFile (he : Evolves (ofInode x) o st o' st') (hz : InodeOk o st z n)
    (hm : Mapped st.disk z n) (hne : z ≠ x) (h : IsFile st.disk z n f) :
    IsFile st'.disk z n f :=
  ⟨he.fileOk hz hm hne h.data, h.type, h.nlink⟩

/-- The other files after a change of one inode. -/
theorem FilesOk.other (h : FilesOk o F s) (he : Evolves (ofInode x) o s.store o' st')
    (hz : s.live z) (hzx : z ≠ x) :
    InodeDisk.decode (st'.disk z) = s.onDisk z ∧
      (∃ f, F z = some f ∧ IsFile st'.disk z (s.onDisk z) f) ∧
      ∀ m f, s.opens z = some m → F z = some f → IsFile st'.disk z m.data f := by
  obtain ⟨hu, ho⟩ := h.sound.self z hz
  obtain ⟨f, hF, hf⟩ := h.disk z hz
  refine ⟨congrArg InodeDisk.decode (he.disk z _ hu ho hzx), ⟨f, hF, ?_⟩, fun m f hm hF => ?_⟩
  · exact he.isFile (h.sound.inode z hz) (h.sound.mapped z hz) hzx hf
  · have H := h.sound.mem z m hm
    exact he.isFile H.inode H.mapped hzx (h.mem z m f hm hF)

/-- **ONE FILE CHANGES**: an operation that writes sectors of the inode at `x`
    only gives that inode's file a new value. -/
theorem FilesOk.replace {o1 : Owner} (h : FilesOk o F s) (hs : Sound o' s') (v : Option File)
    (he : Evolves (ofInode x) o s.store o1 s'.store)
    (hrest : ∀ z, z ≠ x → s'.live z = s.live z ∧ s'.opens z = s.opens z)
    (hdisk : s'.live x → ∃ f, v = some f ∧ IsFile s'.store.disk x (s'.onDisk x) f)
    (hmem : ∀ m f, s'.opens x = some m → v = some f → IsFile s'.store.disk x m.data f)
    (hgone : s'.live x = false → v = none) : FilesOk o' (update F x v) s' := by
  refine ⟨hs, fun z hz => ?_, fun z m f hm hF => ?_, fun z hz => ?_⟩
  · by_cases hzx : z = x
    · subst hzx
      rw [update_self]
      exact hdisk hz
    · obtain ⟨hd, hf, -⟩ := h.other he ((hrest z hzx).1.symm.trans hz) hzx
      rw [update_of_ne hzx, Fs.onDisk, hd]
      exact hf
  · rcases update_cases hF with ⟨rfl, hv⟩ | ⟨hzx, hF⟩
    · exact hmem m f hm hv
    · have hm := (hrest z hzx).2.symm.trans hm
      exact (h.other he (h.sound.mem z m hm).live hzx).2.2 m f hm hF
  · by_cases hzx : z = x
    · rw [hzx, update_self]
      exact hgone (hzx ▸ hz)
    · rw [update_of_ne hzx]
      exact h.gone z ((hrest z hzx).1.symm.trans hz)

theorem FilesOk.change (h : FilesOk o F s) (m' : MemInode) (hx : s.live x)
    (he : Evolves (ofInode x) o s.store o' st')
    (hs : Sound o' { s.setMem x m' with store := st' })
    (hmem : IsFile st'.disk x m'.data f')
    (hdisk : IsFile st'.disk x (.decode (st'.disk x)) f') :
    FilesOk o' (update F x (some f')) { s.setMem x m' with store := st' } := by
  refine h.replace hs _ he (fun z hz => ⟨rfl, s.setMem_opens_of_ne m' hz⟩)
    (fun _ => ⟨f', rfl, hdisk⟩) (fun m f hm hf => ?_) fun hz => nomatch hx.symm.trans hz
  obtain rfl := some.inj ((s.setMem_opens_self x m').symm.trans hm)
  exact some.inj hf ▸ hmem

/-- The lagging inode of the changed file. -/
theorem Sound.lagging (h : Sound o s) (hm : s.opens x = some m)
    (hf : IsFile s.store.disk x m.data f)
    (hspare : ∀ i : Fin 12, bytesToSectors (s.onDisk x).length ≤ i.val →
      (s.onDisk x).direct i ≠ 0 → s.store.disk ((s.onDisk x).direct i) = zeroBlock) :
    IsFile s.store.disk x (s.onDisk x) f := by
  have H := h.mem x m hm
  exact ⟨H.agrees.fileOk (h.mapped x H.live) hf.data hspare, H.agrees.type.symm.trans hf.type,
    H.agrees.nlink.symm.trans hf.nlink⟩

/-! ## Reading -/

theorem FilesOk.read (h : FilesOk o F s) (hm : s.opens x = some m) (hF : F x = some f)
    (size offset : Nat) :
    inodeReadAt s.store.disk m.data size offset = readAt f.data size offset := by
  have hf := (h.mem x m f hm hF).data
  exact readLoop_eq (h.sound.mem x m hm).mapped hf.holds hf.length size size offset le_rfl

/-! ## Writing -/

/-- A spare direct block is written by nobody. -/
theorem Evolves.direct_spare {N : Nat} (he : Evolves (dataOf x N) o st o' st')
    (hn : InodeOk o st x n) (hN : N ≤ 16524) {i : Fin 12} (hi : N ≤ i.val)
    (hp : n.direct i ≠ 0) : st'.disk (n.direct i) = st.disk (n.direct i) := by
  obtain ⟨hu, ho⟩ := hn.direct i hp
  refine he.disk _ _ hu ho ?_
  rintro ⟨-, k, hk, e⟩
  have hki := eq_of_dataSlot_direct (hk.trans_le hN) e.symm
  omega

/-- The data loop on a file that is long enough changes its bytes. -/
theorem FilesOk.writeLoop (h : FilesOk o F s) (buf : List UInt8) (hm : s.opens x = some m)
    (hF : F x = some f) {offset : Nat} (hend : offset + buf.length ≤ m.data.length) :
    (writeLoop m.data buf.length s.store buf offset 0).1 = buf.length ∧
    FilesOk o (update F x (some { f with data := writeAt 0 f.data buf offset }))
      { s with store := (writeLoop m.data buf.length s.store buf offset 0).2 } := by
  have H := h.sound.mem x m hm
  have hf := h.mem x m f hm hF
  obtain ⟨f0, hF0, hf0⟩ := h.disk x H.live
  have hff : f0 = f := some.inj (hF0.symm.trans hF)
  subst hff
  obtain ⟨hcount, he, hfile⟩ := h.sound.writeLoop_file hm hf.data hend
  have hs := h.sound.writeLoop hm buf.length buf offset 0
  refine ⟨hcount, ?_⟩
  generalize MavInode.writeLoop m.data buf.length s.store buf offset 0 = r at *
  have hself := h.sound.self x H.live
  have hsector : r.2.disk x = s.store.disk x := he.disk x _ hself.1 hself.2 self_not_dataOf
  have hmem : IsFile r.2.disk x m.data { f0 with data := writeAt 0 f0.data buf offset } :=
    ⟨hfile, hf.type, hf.nlink⟩
  have hset : s.setMem x m = s := by
    unfold Fs.setMem
    rw [← hm, update_eq_self]
  have hs' : Sound o { s.setMem x m with store := r.2 } := by
    rw [hset]
    exact hs
  have hdisk := hs.lagging (f := { f0 with data := writeAt 0 f0.data buf offset }) hm hmem ?_
  · have hch := h.change _ H.live (he.mono fun t ht => ht.1) hs' hmem hdisk
    rw [hset] at hch
    exact hch
  · have honDisk : Fs.onDisk { s with store := r.2 } x = s.onDisk x :=
      congrArg InodeDisk.decode hsector
    rw [honDisk]
    intro i hi hp
    have hlen : bytesToSectors m.data.length ≤ i.val := H.agrees.length.symm ▸ hi
    rw [he.direct_spare (h.sound.inode x H.live) H.mapped.limit hlen hp]
    exact hf0.data.direct_spare i hi hp

/-- An extension that succeeds adds zeros. -/
theorem FilesOk.extend (h : FilesOk o F s) (hm : s.opens x = some m) (hF : F x = some f)
    {newLength : Nat} (hle : m.data.length ≤ newLength)
    (hlimit : bytesToSectors newLength ≤ 16524)
    (hok : (inodeExtend s.store x m.data newLength).1 = true) :
    ∃ o', FilesOk o' (update F x
        (some { f with data := f.data ++ List.replicate (newLength - f.data.length) 0 }))
      { s.setMem x { m with data := (inodeExtend s.store x m.data newLength).2.2 }
        with store := (inodeExtend s.store x m.data newLength).2.1 } := by
  have H := h.sound.mem x m hm
  have hf := h.mem x m f hm hF
  obtain ⟨o', he, hs⟩ := h.sound.inodeExtend hm hlimit (.inl hok)
  obtain ⟨hgrown, hstored, htype, hnlink⟩ := h.sound.extend_file hm hf.data hle hlimit hok
  generalize MavInode.inodeExtend s.store x m.data newLength = r at *
  have H' := hs.mem x _ (s.setMem_opens_self x _)
  have hfile : IsFile r.2.1.disk x r.2.2
      { f with data := f.data ++ List.replicate (newLength - f.data.length) 0 } :=
    ⟨hgrown, htype.trans hf.type, hnlink.trans hf.nlink⟩
  have hself : InodeDisk.decode (r.2.1.disk x) = r.2.2 := by
    rw [hstored]
    exact InodeDisk.decode_encode (H'.fits hs.map)
  refine ⟨o', h.change _ H.live he hs hfile ?_⟩
  rw [hself]
  exact hfile

/-- An extension that fails, cleanly, changes no file. -/
theorem FilesOk.extend_fails (h : FilesOk o F s) (hm : s.opens x = some m) {newLength : Nat}
    (hok : (inodeExtend s.store x m.data newLength).1 = false)
    (hclean : growClean (bytesToSectors m.data.length) (bytesToSectors newLength) s.store
      m.data) :
    ∃ o', FilesOk o' F { s.setMem x { m with data := (inodeExtend s.store x m.data newLength).2.2 }
      with store := (inodeExtend s.store x m.data newLength).2.1 } := by
  have H := h.sound.mem x m hm
  obtain ⟨f, hF, hf, hf0⟩ := h.opened hm
  unfold MavInode.inodeExtend at hok ⊢
  by_cases hsame : bytesToSectors newLength = bytesToSectors m.data.length
  · rw [if_pos hsame] at hok
    exact nomatch hok
  simp only [if_neg hsame] at hok ⊢
  obtain ⟨o', G⟩ := growBlocks_spec (bytesToSectors m.data.length) (bytesToSectors newLength)
    h.sound.map H.inode
  generalize growBlocks (bytesToSectors m.data.length) (bytesToSectors newLength) s.store
    m.data = r at G hok ⊢
  obtain ⟨ok, st', n'⟩ := r
  cases ok with
  | true => exact nomatch hok
  | false =>
    have hs := h.sound.grown hm G (.inr hclean)
    obtain ⟨hholds, hspare⟩ := G.holds m.data.length (.inr hclean) H.inode
      H.mapped.limit (fun k h1 h2 => by omega) le_rfl
      (fun i hi => ⟨H.mapped.data _ hi, hf.data.holds i hi⟩) hf.data.spare
      fun i hi => hf.data.elemAt_zero hi
    have hlen : n'.length = m.data.length := G.length
    rw [show { n' with length := m.data.length } = n' by rw [← hlen]] at hholds hspare
    have hfile : IsFile st'.disk x n' f :=
      ⟨⟨hlen.trans hf.data.length, hholds, hlen.symm ▸ hspare⟩, G.type.trans hf.type,
        G.nlink.trans hf.nlink⟩
    have hsector : st'.disk x = s.store.disk x :=
      (h.sound.grows_other H.inode G.grows H.live).1
    have hdisk := hs.lagging (f := f) (s.setMem_opens_self x _) hfile ?_
    · have hch := h.change _ H.live (H.inode.evolves G.grows) hs hfile hdisk
      rw [show update F x (some f) = F by rw [← hF, update_eq_self]] at hch
      exact ⟨o', hch⟩
    show ∀ i : Fin 12, bytesToSectors (InodeDisk.decode (st'.disk x)).length ≤ i.val →
      (InodeDisk.decode (st'.disk x)).direct i ≠ 0 →
        st'.disk ((InodeDisk.decode (st'.disk x)).direct i) = zeroBlock
    rw [hsector]
    intro i hi hp
    have hd := h.sound.inode x H.live
    have hk := hd.direct i hp
    refine Eq.trans (G.grows.disk _ hk.1 fun hidx => ?_) (hf0.data.direct_spare i hi hp)
    obtain ⟨-, ho | ho | ⟨j, ho⟩⟩ := H.inode.indexOf_owner hidx hp
    all_goals exact nomatch (pair_inj (hk.2.symm.trans ho)).2

/-- The write goes through: it is not denied, and the file is long enough or can be extended. -/
def writeGoes (s : Store) (x : Sector) (m : MemInode) (size offset : Nat) : Prop :=
  m.denyWriteCnt = 0 ∧
    (m.data.length < offset + size → (inodeExtend s x m.data (offset + size)).1 = true)

instance (s : Store) (x : Sector) (m : MemInode) (size offset : Nat) :
    Decidable (writeGoes s x m size offset) := inferInstanceAs (Decidable (_ ∧ (_ → _)))

/-- A write changes the inode's data in memory, and nothing else of it. -/
theorem inodeWriteAt_mem (s : Store) (x : Sector) (m : MemInode) (buf : List UInt8)
    (offset : Nat) : ∃ n', (inodeWriteAt s x m buf offset).2.2 = { m with data := n' } := by
  unfold inodeWriteAt
  split
  · exact ⟨m.data, rfl⟩
  · split
    · split
      · exact ⟨_, rfl⟩
      · exact ⟨_, rfl⟩
    · exact ⟨m.data, rfl⟩

section

variable (h : FilesOk o F s)

include h

/-- **WRITE AT**: a write that goes through returns its size and changes the
    file, any other returns 0 and changes none. -/
theorem FilesOk.write (hm : s.opens x = some m) (hF : F x = some f)
    (buf : List UInt8) (offset : Nat) (hc : m.denyWriteCnt = 0 →
      m.data.length < offset + buf.length → extendClean s.store m.data (offset + buf.length)) :
    ∃ o', (writeGoes s.store x m buf.length offset →
        (inodeWriteAt s.store x m buf offset).1 = buf.length ∧
        FilesOk o' (update F x (some { f with data := writeAt 0 f.data buf offset }))
          { s.setMem x (inodeWriteAt s.store x m buf offset).2.2 with
            store := (inodeWriteAt s.store x m buf offset).2.1 }) ∧
      (¬ writeGoes s.store x m buf.length offset →
        (inodeWriteAt s.store x m buf offset).1 = 0 ∧
        FilesOk o' F { s.setMem x (inodeWriteAt s.store x m buf offset).2.2 with
          store := (inodeWriteAt s.store x m buf offset).2.1 }) := by
  have hset : s.setMem x m = s := by
    unfold Fs.setMem
    rw [← hm, update_eq_self]
  unfold inodeWriteAt
  by_cases hdeny : m.denyWriteCnt ≠ 0
  · simp only [if_pos hdeny, hset]
    exact ⟨o, fun hg => absurd hg.1 hdeny, fun _ => ⟨trivial, h⟩⟩
  simp only [if_neg hdeny]
  have hdeny := not_not.mp hdeny
  by_cases hext : offset + buf.length > m.data.length
  · simp only [if_pos hext]
    obtain ⟨hlimit, hclean⟩ := hc hdeny hext
    cases hok : (inodeExtend s.store x m.data (offset + buf.length)).1 with
    | true =>
      have hgoes : writeGoes s.store x m buf.length offset := ⟨hdeny, fun _ => hok⟩
      obtain ⟨o', hfs⟩ := h.extend hm hF hext.le hlimit hok
      generalize inodeExtend s.store x m.data (offset + buf.length) = r at *
      obtain ⟨ok, st', n'⟩ := r
      subst hok
      have hF' := update_self x (some { f with
        data := f.data ++ List.replicate (offset + buf.length - f.data.length) 0 }) F
      have hlen : n'.length = offset + buf.length := by
        rw [(hfs.mem x _ _ (s.setMem_opens_self x _) hF').data.length]
        simp only [List.length_append, List.length_replicate]
        have := (h.mem x m f hm hF).data.length
        omega
      obtain ⟨hcount, hw⟩ := hfs.writeLoop buf (s.setMem_opens_self x _) hF' hlen.ge
      rw [update_idem, writeAt_append_zeros] at hw
      exact ⟨o', fun _ => ⟨hcount, hw⟩, fun hn => absurd hgoes hn⟩
    | false =>
      have hgrow : growClean (bytesToSectors m.data.length)
          (bytesToSectors (offset + buf.length)) s.store m.data := by
        refine hclean.resolve_left fun he => ?_
        unfold inodeExtend at hok
        rw [if_pos he] at hok
        exact nomatch hok
      have hstops : ¬ writeGoes s.store x m buf.length offset :=
        fun hg => Bool.false_ne_true (hok.symm.trans (hg.2 hext))
      obtain ⟨o', hfs⟩ := h.extend_fails hm hok hgrow
      generalize inodeExtend s.store x m.data (offset + buf.length) = r at *
      obtain ⟨ok, st', n'⟩ := r
      subst hok
      exact ⟨o', fun hg => absurd hg hstops, fun _ => ⟨rfl, hfs⟩⟩
  · simp only [if_neg hext]
    obtain ⟨hcount, hw⟩ := h.writeLoop buf hm hF (Nat.le_of_not_lt hext)
    rw [hset]
    exact ⟨o, fun _ => ⟨hcount, hw⟩, fun hn => absurd ⟨hdeny, fun h' => absurd h' hext⟩ hn⟩

/-! ## Opening, closing, counting links -/

theorem FilesOk.setMem (hs : Sound o (s.setMem x m))
    (hm : ∀ f, F x = some f → IsFile s.store.disk x m.data f) : FilesOk o F (s.setMem x m) := by
  refine ⟨hs, h.disk, fun z m' f hz hF => ?_, h.gone⟩
  rcases update_cases hz with ⟨rfl, ⟨⟩⟩ | ⟨-, hz⟩
  · exact hm f hF
  · exact h.mem z m' f hz hF

theorem FilesOk.dropMem (x : Sector) : FilesOk o F (s.dropMem x) := by
  exact ⟨h.sound.dropMem x, h.disk, fun z m f hz hF => h.mem z m f (of_update hz nofun).2 hF, h.gone⟩

/-- The inode in memory with other counts. -/
theorem FilesOk.recount (hm : s.opens x = some m) (hd : m'.data = m.data)
    (hr : m'.removed → 2 ≤ x) : FilesOk o F (s.setMem x m') := by
  have H := h.sound.mem x m hm
  refine h.setMem (h.sound.setMem ⟨H.live, hd ▸ H.inode, hd ▸ H.mapped, hd ▸ H.agrees, hr⟩) ?_
  intro f hF
  rw [hd]
  exact h.mem x m f hm hF

theorem FilesOk.openInode (hx : s.live x) :
    ∃ m, inodeOpen s x = some (s.setMem x m) ∧ FilesOk o F (s.setMem x m) ∧
      (∀ m0, s.opens x = some m0 → m = { m0 with openCnt := m0.openCnt + 1 }) ∧
      (s.opens x = none → m = ⟨1, false, 0, s.onDisk x⟩) := by
  unfold inodeOpen
  cases hm : s.opens x with
  | some m =>
    refine ⟨_, rfl, h.recount hm rfl (h.sound.mem x m hm).removed, ?_, nofun⟩
    intro m0 hm0
    rw [some.inj hm0]
  | none =>
    simp only [if_pos hx]
    refine ⟨_, rfl, h.setMem (h.sound.setMem ⟨hx, h.sound.inode x hx, h.sound.mapped x hx,
      Agrees.refl _, nofun⟩) ?_, nofun, fun _ => rfl⟩
    intro f hF
    obtain ⟨f', hF', hf'⟩ := h.disk x hx
    rw [← some.inj (hF'.symm.trans hF)]
    exact hf'

/-- Storing another link count. -/
theorem FilesOk.setNlink (hm : s.opens x = some m) (hF : F x = some f)
    {k : Nat} (hk : k < 2 ^ 32) :
    FilesOk o (update F x (some { f with nlink := k }))
      (s.setInode x { m with data.nlink := k }) := by
  have H := h.sound.mem x m hm
  have hf := h.mem x m f hm hF
  have hself := h.sound.self x H.live
  have hn : InodeOk o s.store x { m.data with nlink := k } :=
    ⟨H.inode.direct, H.inode.indirect, H.inode.doubly, H.inode.leaves⟩
  have hmap : Mapped s.store.disk x { m.data with nlink := k } := ⟨H.mapped.limit, H.mapped.data⟩
  have hfits : InodeDisk.Fits { m.data with nlink := k } := { H.fits h.sound.map with nlink := hk }
  have hfile : FileOk s.store.disk x { m.data with nlink := k } f.data :=
    ⟨hf.data.length, hf.data.holds, hf.data.spare⟩
  have hnew : IsFile (s.store.write x (InodeDisk.encode { m.data with nlink := k })).disk x
      { m.data with nlink := k } { f with nlink := k } :=
    ⟨hfile.write_self hn hmap hself.2 _, hf.type, rfl⟩
  refine h.change { m with data.nlink := k } H.live (.write _ hself.2 rfl)
    (h.sound.setInode _ H.live hn hfits hmap H.removed) hnew ?_
  rw [decode_write hfits]
  exact hnew

/-! ## Creating and giving back -/

/-- Releasing sectors changes no file. -/
theorem FilesOk.release (hs : Sound o { s with store := st' })
    (hd : st'.disk = s.store.disk) : FilesOk o F { s with store := st' } := by
  refine ⟨hs, fun z hz => ?_, fun z m f hm hF => ?_, h.gone⟩
  · show ∃ f, _ ∧ IsFile st'.disk z (.decode (st'.disk z)) f
    rw [hd]
    exact h.disk z hz
  · rw [hd]
    exact h.mem z m f hm hF

/-- The inode at `x` leaves the table with its file. -/
theorem FilesOk.kill (hx : 2 ≤ x) :
    FilesOk o (update F x none)
      { s.dropMem x with live := update s.live x false } := by
  exact h.replace (h.sound.kill hx) none (.refl ..)
    (fun z hz => ⟨update_of_ne hz .., s.dropMem_opens_of_ne hz⟩)
    (fun hz => nomatch (update_self ..).symm.trans hz) (fun _ _ _ => nofun) fun _ => rfl

/-- **CLOSE**: the last close of a removed inode without links ends its file,
    any other changes none. -/
theorem FilesOk.close (hm : s.opens x = some m)
    (hr : inodeClose s x = some s') :
    (m.lastClose → FilesOk o (update F x none) s') ∧
      (¬ m.lastClose → FilesOk o F s' ∧
        s' = if m.openCnt - 1 = 0 then s.dropMem x
          else s.setMem x { m with openCnt := m.openCnt - 1 }) := by
  have H := h.sound.mem x m hm
  have hs := h.sound.inodeClose hr
  rw [inodeClose_eq hm] at hr
  split at hr
  · next hlast =>
      refine ⟨fun _ => ?_, fun hn => absurd hlast hn⟩
      obtain ⟨st', hst, rfl⟩ := map_eq_some_iff.mp hr
      exact (h.kill (H.removed hlast.2.1)).release hs (releaseAll_some hst).1
  · next hno =>
      refine ⟨fun hn => absurd hn hno, fun _ => ⟨?_, (some.inj hr).symm⟩⟩
      rw [← some.inj hr]
      split
      · exact h.dropMem x
      · exact h.recount hm rfl H.removed

end

theorem elemAt_zeros (k : Nat) : elemAt 0 (List.replicate k (0 : UInt8)) = fun _ => 0 := by
  have h := elemAt_append_zeros [] k
  exact h

/-- A new file. -/
def newFile (length : Nat) (type : InodeType) : File := ⟨List.replicate length 0, type.code, 1⟩

theorem FilesOk.created (h : FilesOk o F s) (hx : s.live x = false) (hu : s.store.used x)
    (ho : o x = some (x, .self)) (hlimit : bytesToSectors length ≤ 16524)
    (hok : (growBlocks 0 (bytesToSectors length) s.store (blankInode length type)).1 = true) :
    ∃ st' o', inodeCreateInternal s.store x length type = some (true, st') ∧
      FilesOk o' (update F x (some (newFile length type)))
        { s with store := st', live := update s.live x true } := by
  have hblank := blankInode_ok o s.store x length type
  obtain ⟨o1, G⟩ := growBlocks_spec 0 (bytesToSectors length) h.sound.map hblank
  have hr : inodeCreateInternal s.store x length type = some (true,
      (growBlocks 0 (bytesToSectors length) s.store (blankInode length type)).2.1.write x
        (growBlocks 0 (bytesToSectors length) s.store (blankInode length type)).2.2.encode) := by
    unfold inodeCreateInternal
    generalize growBlocks 0 (bytesToSectors length) s.store (blankInode length type) = r at hok ⊢
    obtain ⟨ok, st', n'⟩ := r
    subst hok
    rfl
  obtain ⟨o', ho', hs, -⟩ := h.sound.inodeCreateInternal hx hu ho hlimit (.inl rfl) hr
  have hs := hs rfl
  generalize growBlocks 0 (bytesToSectors length) s.store (blankInode length type) = r at *
  obtain ⟨ok, st', n'⟩ := r
  subst hok
  have he : Evolves (ofInode x) o s.store o1 (st'.write x n'.encode) :=
    (hblank.evolves G.grows).trans (.write _ ((G.grows.owner x hu).trans ho) rfl)
  have hlen : n'.length = length := G.length
  have hn' := G.inode (.inl rfl)
  have hfits : n'.Fits := hn'.fits (G.grows.mapOk h.sound.map) (length_lt (hlen ▸ hlimit))
    ((show n'.type = type.code from G.type) ▸ type.code_lt)
    ((show n'.nlink = 1 from G.nlink) ▸ by decide)
  have hself := decode_write hfits st' x
  -- the new blocks are zero
  have hfile : FileOk st'.disk x n' (List.replicate length 0) := by
    obtain ⟨hholds, hspare⟩ := G.holds (g := fun _ => 0) _ (.inl rfl) hblank hlimit
      (fun k h1 h2 => ⟨rfl, k, rfl, h1, h2, h2.trans_le hlimit⟩) (Nat.zero_le _)
      (fun i hi => absurd hi (Nat.not_lt_zero _))
      (fun k _ _ hp => absurd (ptr_blank (dataSlot_ne_self k)) hp) fun _ _ => rfl
    rw [show { n' with length := length } = n' by rw [← hlen]] at hholds hspare
    refine ⟨hlen.trans List.length_replicate.symm, ?_, hlen.symm ▸ hspare⟩
    rw [elemAt_zeros]
    exact hholds
  refine ⟨_, o', hr, h.replace hs _ he (fun z hz => ⟨update_of_ne hz .., rfl⟩)
    (fun _ => ⟨_, rfl, ?_⟩) (fun m f hm => nomatch (h.sound.opens_none hx).symm.trans hm)
    fun hz => nomatch (update_self ..).symm.trans hz⟩
  rw [Fs.onDisk, hself]
  exact ⟨hfile.write_self hn' ⟨hlen ▸ hlimit, hlen ▸ G.data hlimit nofun⟩
    ((G.grows.owner x hu).trans ho) _, G.type, G.nlink⟩

end Files

end MavInode
