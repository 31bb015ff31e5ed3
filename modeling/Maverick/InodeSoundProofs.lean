import Maverick.InodeTableProofs

/-! # The table's invariant — every sector has one place

In memory or in its sector, an inode holds only sectors that are in use for it, and the blocks of
its length are there. The owners are the argument's, not the code's: a sector gets one when it is
allocated, and every operation writes only what its inode owns. -/

namespace MavInode

open MavBlock MavField MavRun Option
open Function (update update_of_ne update_eq_self update_idem)

/-- The data blocks of the file's length are there. -/
structure Mapped (d : Disk) (x : Sector) (n : InodeDisk) : Prop where
  limit : bytesToSectors n.length ≤ 16524
  data : ∀ k < bytesToSectors n.length, ptr d x n (dataSlot k) ≠ 0

/-- How an inode in its sector can lag behind the one in memory. -/
structure Agrees (d m : InodeDisk) : Prop where
  direct : ∀ i, i.val < bytesToSectors d.length → m.direct i = d.direct i
  indirect : d.indirect ≠ 0 → m.indirect = d.indirect
  doubly : d.doublyIndirect ≠ 0 → m.doublyIndirect = d.doublyIndirect
  length : m.length = d.length
  type : m.type = d.type
  nlink : m.nlink = d.nlink

theorem Agrees.refl (n : InodeDisk) : Agrees n n :=
  ⟨fun _ _ => rfl, fun _ => rfl, fun _ => rfl, rfl, rfl, rfl⟩

/-- What holds of an inode in memory. -/
structure MemOk (o : Owner) (s : Fs) (x : Sector) (m : MemInode) : Prop where
  live : s.live x
  inode : InodeOk o s.store x m.data
  mapped : Mapped s.store.disk x m.data
  agrees : Agrees (s.onDisk x) m.data
  removed : m.removed → 2 ≤ x

/-- **THE INVARIANT**: sectors are in use for one place of one inode. -/
structure Sound (o : Owner) (s : Fs) : Prop where
  map : MapOk s.store
  reserved : ∀ x < 2, s.store.used x ∧ (s.live x = false → o x = none ∨ o x = some (x, .self))
  self : ∀ x, s.live x → s.store.used x ∧ o x = some (x, .self)
  inode : ∀ x, s.live x → InodeOk o s.store x (s.onDisk x)
  mapped : ∀ x, s.live x → Mapped s.store.disk x (s.onDisk x)
  mem : ∀ x m, s.opens x = some m → MemOk o s x m

variable {P : Sector × Slot → Prop} {a : Slot} {d : Disk} {z : Sector}

section Sound

variable {o o' : Owner} {s : Fs} {st st' : Store} {x y : Sector} {m : MemInode} {n n' : InodeDisk}

/-! ## What can be written -/

/-- Places that hold no pointers: inodes' own sectors and data blocks. -/
def Slot.plain : Slot → Prop
  | .indirect | .doubly | .index _ => False
  | _ => True

theorem dataSlot_plain (k : Nat) : (dataSlot k).plain := by
  unfold dataSlot
  split
  · trivial
  · split <;> trivial

/-- A write that stays off an inode's index blocks leaves its pointers. -/
theorem InodeOk.write (h : InodeOk o st x n) (b : Block) (hy : o y = some (z, a)) (ha : a.plain) :
    InodeOk o (st.write y b) x n ∧ ∀ a, ptr (st.write y b).disk x n a = ptr st.disk x n a := by
  have hptr : ∀ a, ptr (st.write y b).disk x n a = ptr st.disk x n a := by
    refine ptr_congr fun w hw hnz => blockWrite_other ?_
    rintro rfl
    obtain ⟨-, ho | ho | ⟨i, ho⟩⟩ := h.indexOf_owner hw hnz
    all_goals
      rw [ho] at hy
      cases (pair_inj hy).2
      exact ha
  refine ⟨InodeOk.of_place fun a ha hp => ?_, hptr⟩
  rw [hptr] at hp ⊢
  exact h.place ha hp

theorem Mapped.of_ptr {d' : Disk} (h : Mapped d x n)
    (hp : ∀ a, ptr d' x n a = ptr d x n a) : Mapped d' x n :=
  ⟨h.limit, fun k hk => by rw [hp]; exact h.data k hk⟩

/-- **FRAME**: a change of the store that leaves the sectors of the live inodes and
    what is in place for them. -/
theorem Sound.frame (h : Sound o s) (hmap : MapOk st')
    (hres : ∀ z < 2, st'.used z ∧ (s.live z = false → o' z = none ∨ o' z = some (z, .self)))
    (hself : ∀ z, s.live z → st'.disk z = s.store.disk z ∧ st'.used z ∧ o' z = some (z, .self))
    (hok : ∀ z n, s.live z → InodeOk o s.store z n →
      InodeOk o' st' z n ∧ ∀ a, ptr st'.disk z n a = ptr s.store.disk z n a) :
    Sound o' { s with store := st' } := by
  have hdisk : ∀ z, s.live z → Fs.onDisk { s with store := st' } z = s.onDisk z :=
    fun z hz => congrArg InodeDisk.decode (hself z hz).1
  refine ⟨hmap, hres, fun z hz => (hself z hz).2, fun z hz => ?_, fun z hz => ?_, fun z m hm => ?_⟩
  · rw [hdisk z hz]
    exact (hok z _ hz (h.inode z hz)).1
  · rw [hdisk z hz]
    exact (h.mapped z hz).of_ptr (hok z _ hz (h.inode z hz)).2
  · have H := h.mem z m hm
    have hm := hok z _ H.live H.inode
    refine ⟨H.live, hm.1, H.mapped.of_ptr hm.2, ?_, H.removed⟩
    rw [hdisk z H.live]
    exact H.agrees

/-- A write to a data block. -/
theorem Sound.write_data (h : Sound o s) {k : Nat} (b : Block)
    (hy : o y = some (x, dataSlot k)) : Sound o { s with store := s.store.write y b } := by
  refine h.frame ⟨h.map.zero, h.map.range, h.map.size⟩ h.reserved (fun z hz => ?_)
    fun _ _ _ hn => hn.write b hy (dataSlot_plain k)
  refine ⟨blockWrite_other ?_, h.self z hz⟩
  rintro rfl
  rw [(h.self z hz).2] at hy
  exact dataSlot_ne_self k (pair_inj hy).2.symm

/-- A change of the store: what was in use stays so, for its place, and only
    sectors with a place in `P` are written. -/
structure Evolves (P : Sector × Slot → Prop) (o : Owner) (st : Store) (o' : Owner) (st' : Store) :
    Prop where
  used : ∀ y, st.used y → st'.used y
  owner : ∀ y, st.used y → o' y = o y
  disk : ∀ y t, st.used y → o y = some t → ¬ P t → st'.disk y = st.disk y

/-- The places of the inode at `x`. -/
def ofInode (x : Sector) (t : Sector × Slot) : Prop := t.1 = x

/-- The first `N` data blocks of the inode at `x`. -/
def dataOf (x : Sector) (N : Nat) (t : Sector × Slot) : Prop :=
  t.1 = x ∧ ∃ k < N, t.2 = dataSlot k

theorem Evolves.refl (P : Sector × Slot → Prop) (o : Owner) (st : Store) : Evolves P o st o st :=
  ⟨fun _ h => h, fun _ _ => rfl, fun _ _ _ _ _ => rfl⟩

theorem Evolves.mono {Q : Sector × Slot → Prop} (h : Evolves P o st o' st')
    (hPQ : ∀ t, P t → Q t) : Evolves Q o st o' st' :=
  { h with disk := fun y t hy ht hn => h.disk y t hy ht fun hp => hn (hPQ t hp) }

theorem Evolves.trans {o2 : Owner} {st2 : Store}
    (h : Evolves P o st o' st') (h' : Evolves P o' st' o2 st2) : Evolves P o st o2 st2 where
  used y hy := h'.used y (h.used y hy)
  owner y hy := (h'.owner y (h.used y hy)).trans (h.owner y hy)
  disk y t hy ht hn := (h'.disk y t (h.used y hy) ((h.owner y hy).trans ht) hn).trans
    (h.disk y t hy ht hn)

theorem Evolves.write (b : Block) {t : Sector × Slot}
    (hy : o y = some t) (ht : P t) : Evolves P o st o (st.write y b) := by
  refine ⟨fun _ h => h, fun _ _ => rfl, fun w t' _ hw hn => blockWrite_other ?_⟩
  rintro rfl
  exact hn (some.inj (hy.symm.trans hw) ▸ ht)

theorem InodeOk.evolves (hn : InodeOk o st x n) (hg : Grows (IndexOf st.disk n) o st o' st') :
    Evolves (ofInode x) o st o' st' := by
  refine ⟨hg.used, hg.owner, fun y t hy ht hne => ?_⟩
  by_cases h0 : y = 0
  · rw [h0]
    exact hg.zero
  · refine hg.disk y hy fun hi => ?_
    obtain ⟨-, ho | ho | ⟨i, ho⟩⟩ := hn.indexOf_owner hi h0
    all_goals exact hne (some.inj (ho.symm.trans ht) ▸ rfl)

/-! ## Storing an inode -/

theorem MemOk.setMem {m' : MemInode} (h : MemOk o s x m) :
    MemOk o (s.setMem z m') x m := { h with }

theorem Sound.setMem (h : Sound o s) (hm : MemOk o s x m) : Sound o (s.setMem x m) := by
  refine { h with mem := fun z m' hz => ?_ }
  rcases update_cases hz with ⟨rfl, ⟨⟩⟩ | ⟨-, hz⟩
  · exact hm.setMem
  · exact (h.mem z m' hz).setMem

theorem Sound.dropMem (h : Sound o s) (x : Sector) : Sound o (s.dropMem x) := by
  refine { h with mem := fun z m hz => ?_ }
  have H := h.mem z m (of_update hz nofun).2
  exact { H with }

theorem InodeOk.fits (h : InodeOk o st x n) (hm : MapOk st) (hl : n.length < 2 ^ 32)
    (ht : n.type < 2 ^ 32) (hn : n.nlink < 2 ^ 32) : n.Fits := by
  have hlt : ∀ p, (p ≠ 0 → st.used p) → p < 2 ^ 32 := by
    intro p hp
    by_cases hz : p = 0
    · rw [hz]
      decide
    · exact (hm.range p (hp hz)).trans_le hm.size
  exact ⟨fun i => hlt _ fun hz => (h.direct i hz).1, hlt _ fun hz => (h.indirect.1 hz).1,
    hlt _ fun hz => (h.doubly.1 hz).1, hl, ht, hn⟩

/-- The length of a file whose blocks are in range fits its field. -/
theorem length_lt (h : bytesToSectors n.length ≤ 16524) : n.length < 2 ^ 32 := by
  unfold bytesToSectors at h
  omega

theorem MemOk.fits (h : MemOk o s x m) (hm : MapOk s.store) : m.data.Fits :=
  h.inode.fits hm (length_lt h.mapped.limit) (h.agrees.type ▸ words_lt _ _)
    (h.agrees.nlink ▸ words_lt _ _)

theorem decode_write (hf : n.Fits) (st : Store) (x : Sector) :
    InodeDisk.decode ((st.write x n.encode).disk x) = n := by
  show InodeDisk.decode (blockWrite st.disk x n.encode x) = n
  rw [blockWrite_same, InodeDisk.decode_encode hf]

/-- Writing an inode to its sector. -/
theorem Sound.store_inode (h : Sound o s) (hu : s.store.used x) (ho : o x = some (x, .self))
    (hn : InodeOk o s.store x n) (hf : n.Fits) (hmap : Mapped s.store.disk x n)
    (hopen : s.opens x = none) :
    Sound o { s with store := s.store.write x n.encode, live := update s.live x true } := by
  have hself := decode_write hf s.store x
  have hdisk : ∀ z, z ≠ x →
      InodeDisk.decode ((s.store.write x n.encode).disk z) = s.onDisk z :=
    fun z hz => congrArg InodeDisk.decode (blockWrite_other hz)
  have hlive : ∀ z, z ≠ x → update s.live x true z = s.live z :=
    fun z hz => update_of_ne hz ..
  have hw : ∀ {z n'}, InodeOk o s.store z n' → _ :=
    fun hn' => hn'.write n.encode ho trivial
  refine ⟨⟨h.map.zero, h.map.range, h.map.size⟩, ?_, ?_, ?_, ?_, ?_⟩
  · intro z hz
    refine ⟨(h.reserved z hz).1, fun hl => ?_⟩
    by_cases hzx : z = x
    · exact Or.inr (hzx ▸ ho)
    · exact (h.reserved z hz).2 ((hlive z hzx).symm.trans hl)
  · intro z hz
    by_cases hzx : z = x
    · rw [hzx]
      exact ⟨hu, ho⟩
    · exact h.self z ((hlive z hzx).symm.trans hz)
  · intro z hz
    show InodeOk o (s.store.write x n.encode) z (.decode ((s.store.write x n.encode).disk z))
    by_cases hzx : z = x
    · subst hzx
      rw [hself]
      exact (hw hn).1
    · rw [hdisk z hzx]
      exact (hw (h.inode z ((hlive z hzx).symm.trans hz))).1
  · intro z hz
    show Mapped _ z (.decode ((s.store.write x n.encode).disk z))
    by_cases hzx : z = x
    · subst hzx
      rw [hself]
      exact hmap.of_ptr (hw hn).2
    · rw [hdisk z hzx]
      have hl := (hlive z hzx).symm.trans hz
      exact (h.mapped z hl).of_ptr (hw (h.inode z hl)).2
  · intro z m hm
    have H := h.mem z m hm
    have hzx : z ≠ x := by
      rintro rfl
      exact nomatch hopen.symm.trans hm
    refine ⟨(hlive z hzx).trans H.live, (hw H.inode).1, H.mapped.of_ptr (hw H.inode).2, ?_,
      H.removed⟩
    show Agrees (.decode ((s.store.write x n.encode).disk z)) m.data
    rw [hdisk z hzx]
    exact H.agrees

/-- Writing an open inode, changed in fields that are no pointers. -/
theorem Sound.setInode (h : Sound o s) (m' : MemInode) (hx : s.live x)
    (hn : InodeOk o s.store x m'.data) (hf : m'.data.Fits)
    (hmap : Mapped s.store.disk x m'.data) (hr : m'.removed → 2 ≤ x) :
    Sound o (s.setInode x m') := by
  have hstored := (h.dropMem x).store_inode (h.self x hx).1 (h.self x hx).2 hn hf hmap
    (s.dropMem_opens_self x)
  rw [show update (s.dropMem x).live x true = s.live from
    (congrArg _ hx.symm).trans (update_eq_self x s.live)] at hstored
  have hself : (s.setInode x m').onDisk x = m'.data := decode_write hf s.store x
  have hok : MemOk o { s.dropMem x with store := s.store.write x m'.data.encode } x m' := by
    have hw := hn.write m'.data.encode (h.self x hx).2 trivial
    refine ⟨hx, hw.1, hmap.of_ptr hw.2, ?_, hr⟩
    show Agrees ((s.setInode x m').onDisk x) m'.data
    rw [hself]
    exact Agrees.refl _
  have hset := hstored.setMem hok
  simp only [Fs.setMem, Fs.dropMem, update_idem] at hset
  exact hset

/-! ## Growing an inode of the table -/

/-- The index blocks of two inodes have nothing in common. -/
theorem InodeOk.index_disjoint (hx : InodeOk o st x n) (hz : InodeOk o st z n')
    (hne : z ≠ x) : IndexOf st.disk n y → IndexOf st.disk n' y → y = 0 := by
  intro h1 h2
  by_contra hnz
  have hown : ∀ {w n}, InodeOk o st w n → IndexOf st.disk n y → ∃ a, o y = some (w, a) := by
    intro w n hw hi
    obtain ⟨-, ho | ho | ⟨i, ho⟩⟩ := hw.indexOf_owner hi hnz
    · exact ⟨_, ho⟩
    · exact ⟨_, ho⟩
    · exact ⟨_, ho⟩
  obtain ⟨a, ha⟩ := hown hx h1
  obtain ⟨b, hb⟩ := hown hz h2
  exact hne (pair_inj (hb.symm.trans ha)).1

/-- The sector of an inode is none of another's, or its own, index blocks. -/
theorem InodeOk.self_not_index (hx : InodeOk o st x n) (hz : o z = some (z, .self))
    (hnz : z ≠ 0) : ¬ IndexOf st.disk n z := by
  intro hi
  obtain ⟨-, ho | ho | ⟨i, ho⟩⟩ := hx.indexOf_owner hi hnz
  · rw [hz] at ho
    exact nomatch (pair_inj ho).2
  · rw [hz] at ho
    exact nomatch (pair_inj ho).2
  · rw [hz] at ho
    exact nomatch (pair_inj ho).2

/-- The index block above the place is there. -/
def InodeDisk.reaches (n : InodeDisk) : Slot → Prop
  | .self => True
  | .direct _ => False
  | .indirect | .single _ => n.indirect ≠ 0
  | .doubly | .index _ | .leaf _ _ => n.doublyIndirect ≠ 0

theorem reaches_of_ptr (ha : ∀ i, a ≠ .direct i) (hp : ptr d x n a ≠ 0) : n.reaches a := by
  cases a with
  | self => trivial
  | direct i => exact absurd rfl (ha i)
  | indirect => exact hp
  | single i => exact ne_zero_of_ptrsAt hp
  | doubly => exact hp
  | index i => exact ne_zero_of_ptrsAt hp
  | leaf i j => exact ne_zero_of_ptrsAt (ne_zero_of_ptrsAt hp)

/-- Below a common index block both inodes read the same. -/
theorem Agrees.ptr_eq (h : Agrees n n') (ha : n.reaches a) : ptr d x n' a = ptr d x n a := by
  cases a with
  | self => rfl
  | direct i => exact ha.elim
  | indirect => exact h.indirect ha
  | single i =>
    show ptrsAt d n'.indirect i = ptrsAt d n.indirect i
    rw [h.indirect ha]
  | doubly => exact h.doubly ha
  | index i =>
    show ptrsAt d n'.doublyIndirect i = ptrsAt d n.doublyIndirect i
    rw [h.doubly ha]
  | leaf i j =>
    show ptrsAt d (ptrsAt d n'.doublyIndirect i) j = ptrsAt d (ptrsAt d n.doublyIndirect i) j
    rw [h.doubly ha]

/-- A place that keeps its sector in memory keeps it in the lagging inode. -/
theorem Grown.follows {K F : Slot → Prop} {C : Prop} {d0 : InodeDisk}
    (G : Grown K F C x o st n o' st' n') (h : Agrees d0 n) (h' : Agrees d0 n')
    (hK : K a) (ha : ∀ i, a ≠ .direct i) (hp : ptr st.disk x d0 a ≠ 0) :
    ptr st'.disk x d0 a = ptr st.disk x d0 a := by
  have hr := reaches_of_ptr ha hp
  calc ptr st'.disk x d0 a = ptr st'.disk x n' a := (h'.ptr_eq hr).symm
    _ = ptr st.disk x n a := G.kept a hK (by rw [h.ptr_eq hr]; exact hp)
    _ = ptr st.disk x d0 a := h.ptr_eq hr

/-- An inode whose index blocks are those of a well-formed one needs only its
    own direct pointers to be in order. -/
theorem Agrees.inodeOk (h : Agrees n n') (hn : InodeOk o st x n')
    (hd : ArrOk o st x .direct n.direct) : InodeOk o st x n := by
  refine InodeOk.of_place fun a ha hp => ?_
  by_cases hdir : ∃ i, a = .direct i
  · obtain ⟨i, rfl⟩ := hdir
    exact hd i hp
  · have e := h.ptr_eq (x := x) (d := st.disk) (reaches_of_ptr (fun i he => hdir ⟨i, he⟩) hp)
    rw [← e] at hp ⊢
    exact hn.place ha hp

/-- The blocks are there up to `new`, if those below `old` were. -/
theorem Grown.data {old new : Nat} {C : Prop} (G : Grown (keepsFrom old)
      (fun a => true = true ∧ ∃ k, a = dataSlot k ∧ old ≤ k ∧ k < new ∧ k < 16524) C x o st n o' st' n')
    (hnew : new ≤ 16524) (h : ∀ k < old, ptr st.disk x n (dataSlot k) ≠ 0) :
    ∀ k < new, ptr st'.disk x n' (dataSlot k) ≠ 0 := by
  intro k hk
  by_cases hold : k < old
  · rw [G.kept _ (keepsFrom_dataSlot hold) (h k hold)]
    exact h k hold
  · exact G.full _ ⟨rfl, k, rfl, Nat.le_of_not_lt hold, hk, hk.trans_le hnew⟩

/-- What the growth of the inode at `x` leaves of the other inodes. -/
theorem Sound.grows_other (h : Sound o s) (hn : InodeOk o s.store x n)
    (hg : Grows (IndexOf s.store.disk n) o s.store o' st') (hz : s.live z) :
    st'.disk z = s.store.disk z ∧ st'.used z ∧ o' z = some (z, .self) := by
  obtain ⟨hu, ho⟩ := h.self z hz
  refine ⟨?_, hg.used z hu, (hg.owner z hu).trans ho⟩
  by_cases hnz : z = 0
  · rw [hnz]
    exact hg.zero
  · exact hg.disk z hu (hn.self_not_index ho hnz)

/-- **GROWTH** of an open inode keeps the invariant. -/
theorem Sound.grown (h : Sound o s) (hm : s.opens x = some m) {F : Slot → Prop} {C : Prop}
    (G : Grown (keepsFrom (bytesToSectors m.data.length)) F C x o s.store m.data o' st' n')
    (hC : C) : Sound o' { s.setMem x { m with data := n' } with store := st' } := by
  have H := h.mem x m hm
  have hself : ∀ z, s.live z → _ := fun z hz => h.grows_other H.inode G.grows hz
  have hdisk : ∀ z, s.live z → InodeDisk.decode (st'.disk z) = s.onDisk z :=
    fun z hz => congrArg InodeDisk.decode (hself z hz).1
  have hother : ∀ {z n}, z ≠ x → InodeOk o s.store z n → _ := fun hzx hz =>
    hz.grows G.grows fun _ h1 h2 => InodeOk.index_disjoint H.inode hz hzx h1 h2
  have hmem := G.inode hC
  have hagree : Agrees (s.onDisk x) n' := by
    refine ⟨fun i hi => ?_, fun hnz => ?_, fun hnz => ?_, G.length.trans H.agrees.length,
      G.type.trans H.agrees.type, G.nlink.trans H.agrees.nlink⟩
    · have hp := H.mapped.data i (H.agrees.length ▸ hi)
      rw [dataSlot_direct] at hp
      rw [← H.agrees.direct i hi]
      exact G.kept (.direct i) (fun j e => Slot.direct.inj e ▸ H.agrees.length ▸ hi) hp
    · have e := H.agrees.indirect hnz
      rw [← e] at hnz ⊢
      exact G.kept .indirect nofun hnz
    · have e := H.agrees.doubly hnz
      rw [← e] at hnz ⊢
      exact G.kept .doubly nofun hnz
  have hkept : ∀ k < bytesToSectors m.data.length,
      ptr st'.disk x n' (dataSlot k) = ptr s.store.disk x m.data (dataSlot k) :=
    fun k hk => G.kept _ (keepsFrom_dataSlot hk) (H.mapped.data k hk)
  have hmapped : Mapped st'.disk x n' := by
    refine ⟨G.length ▸ H.mapped.limit, fun k hk => ?_⟩
    rw [G.length] at hk
    rw [hkept k hk]
    exact H.mapped.data k hk
  -- the inode in its sector keeps its direct pointers and shares the index blocks
  have hdiskOk : InodeOk o' st' x (s.onDisk x) :=
    hagree.inodeOk hmem ((h.inode x H.live).direct.grows G.grows)
  have hdiskMapped : Mapped st'.disk x (s.onDisk x) := by
    refine ⟨(h.mapped x H.live).limit, fun k hk => ?_⟩
    have hp := (h.mapped x H.live).data k hk
    have hk' : k < bytesToSectors m.data.length := H.agrees.length ▸ hk
    by_cases hdir : ∃ i, dataSlot k = .direct i
    · obtain ⟨i, e⟩ := hdir
      rw [e] at hp ⊢
      exact hp
    · have hd : ∀ i, dataSlot k ≠ .direct i := fun i e => hdir ⟨i, e⟩
      have hfollow := G.follows H.agrees hagree (keepsFrom_dataSlot hk') hd hp
      rw [hfollow]
      exact hp
  refine ⟨G.grows.mapOk h.map, ?_, fun z hz => (hself z hz).2, ?_, ?_, ?_⟩
  · intro z hz
    have hr := h.reserved z hz
    rw [G.grows.owner z hr.1]
    exact ⟨G.grows.used z hr.1, hr.2⟩
  · intro z hz
    show InodeOk o' st' z (.decode (st'.disk z))
    rw [hdisk z hz]
    by_cases hzx : z = x
    · subst hzx
      exact hdiskOk
    · exact (hother hzx (h.inode z hz)).1
  · intro z hz
    show Mapped st'.disk z (.decode (st'.disk z))
    rw [hdisk z hz]
    by_cases hzx : z = x
    · subst hzx
      exact hdiskMapped
    · exact (h.mapped z hz).of_ptr (hother hzx (h.inode z hz)).2
  · intro z m' hz
    rcases update_cases hz with ⟨rfl, ⟨⟩⟩ | ⟨hzx, hz⟩
    · refine ⟨H.live, hmem, hmapped, ?_, H.removed⟩
      show Agrees (.decode (st'.disk z)) n'
      rw [hdisk z H.live]
      exact hagree
    · have H' := h.mem z m' hz
      refine ⟨H'.live, (hother hzx H'.inode).1, H'.mapped.of_ptr (hother hzx H'.inode).2, ?_,
        H'.removed⟩
      show Agrees (.decode (st'.disk z)) m'.data
      rw [hdisk z H'.live]
      exact H'.agrees

/-! ## Writing data -/

/-- `byte_to_sector` finds the data block where the index has one. -/
theorem blockSector_eq {k : Nat} (hk : k < 16524) (hp : ptr d x n (dataSlot k) ≠ 0) :
    blockSector d n k = ptr d x n (dataSlot k) := by
  have hnz : ∀ {p : Nat} {i : Fin 128}, ptrsAt d p i ≠ 0 → words (d p) i = ptrsAt d p i := by
    intro p i hi
    rw [ptrsAt_of_ne d (ne_zero_of_ptrsAt hi)]
  unfold blockSector
  unfold dataSlot at hp ⊢
  by_cases h1 : k < 12
  · rw [dif_pos h1, dif_pos h1]
    rfl
  rw [dif_neg h1] at hp ⊢
  rw [dif_neg h1]
  by_cases h2 : k < 140
  · rw [dif_pos h2] at hp ⊢
    rw [dif_pos (by omega)]
    exact hnz hp
  rw [dif_neg h2] at hp ⊢
  rw [dif_neg (by omega), dif_pos (by omega)]
  have hi : ptrsAt d n.doublyIndirect ⟨(k - 140) / 128 % 128, by omega⟩ ≠ 0 :=
    ne_zero_of_ptrsAt hp
  have hmod : (⟨(k - 140) / 128, by omega⟩ : Fin 128) = ⟨(k - 140) / 128 % 128, by omega⟩ :=
    Fin.ext (Nat.mod_eq_of_lt (by omega)).symm
  rw [hmod, hnz hi]
  exact hnz hp

theorem div_lt_sectors {pos len : Nat} (h : pos < len) : pos / 512 < bytesToSectors len := by
  unfold bytesToSectors
  omega

/-- The sector of a byte of the file. -/
theorem Mapped.byteToSector (h : Mapped d x n) {pos : Nat} (hpos : pos < n.length) :
    byteToSector d n pos = ptr d x n (dataSlot (pos / 512)) := by
  have hk := div_lt_sectors hpos
  unfold MavInode.byteToSector
  rw [if_neg (by omega)]
  exact blockSector_eq (hk.trans_le h.limit) (h.data _ hk)

theorem chunkSize_pos {size offset : Nat} (h : chunkSize n size offset ≠ 0) :
    offset < n.length ∧ 0 < size := by
  unfold chunkSize at h
  omega

/-- **DATA LOOP**: it keeps what a write to a data block of the file keeps. -/
theorem writeLoop_keeps {P : Store → Prop}
    (hP : ∀ st y k b, k < bytesToSectors n.length → o y = some (x, dataSlot k) → P st →
      P (st.write y b)) (fuel : Nat) (st : Store) (buf : List UInt8) (offset done : Nat) :
    InodeOk o st x n → Mapped st.disk x n → P st → P (writeLoop n fuel st buf offset done).2 := by
  induction fuel generalizing st buf offset done with
  | zero => exact fun _ _ h => h
  | succ fuel ih =>
    intro hn hm h
    unfold writeLoop
    by_cases hc : chunkSize n buf.length offset = 0
    · simp only [hc, if_true]
      exact h
    simp only [hc, if_false]
    have hk := div_lt_sectors (chunkSize_pos hc).1
    have hplace := hn.place (dataSlot_ne_self _) (hm.data _ hk)
    rw [← hm.byteToSector (chunkSize_pos hc).1] at hplace
    have hw := fun b => hn.write b hplace.2 (dataSlot_plain _)
    exact ih _ _ _ _ (hw _).1 (hm.of_ptr (hw _).2) (hP _ _ _ _ hk hplace.2 h)

theorem Sound.writeLoop (h : Sound o s) (hm : s.opens x = some m) (fuel : Nat)
    (buf : List UInt8) (offset done : Nat) :
    Sound o { s with store := (writeLoop m.data fuel s.store buf offset done).2 } :=
  writeLoop_keeps (P := fun st => Sound o { s with store := st })
    (fun _ _ _ b _ hy h => h.write_data b hy) _ _ _ _ _ (h.mem x m hm).inode
    (h.mem x m hm).mapped h

/-! ## Extending -/

theorem Sound.inodeExtend (h : Sound o s) (hm : s.opens x = some m) {newLength : Nat}
    (hlimit : bytesToSectors newLength ≤ 16524)
    (hclean : (inodeExtend s.store x m.data newLength).1 = true ∨
      growClean (bytesToSectors m.data.length) (bytesToSectors newLength) s.store m.data) :
    ∃ o', Evolves (ofInode x) o s.store o' (inodeExtend s.store x m.data newLength).2.1 ∧
      Sound o' { s.setMem x { m with data := (inodeExtend s.store x m.data newLength).2.2 }
        with store := (inodeExtend s.store x m.data newLength).2.1 } := by
  have H := h.mem x m hm
  unfold MavInode.inodeExtend at hclean ⊢
  by_cases hsame : bytesToSectors newLength = bytesToSectors m.data.length
  · simp only [if_pos hsame]
    refine ⟨o, .write _ (h.self x H.live).2 rfl,
      h.setInode { m with data.length := newLength } H.live
      ⟨H.inode.direct, H.inode.indirect, H.inode.doubly, H.inode.leaves⟩ ?_ ?_ H.removed⟩
    · exact { H.fits h.map with length := length_lt (n := { m.data with length := newLength }) hlimit }
    · exact ⟨hlimit, fun k hk => H.mapped.data k (hsame ▸ hk)⟩
  simp only [if_neg hsame] at hclean ⊢
  obtain ⟨o', G⟩ := growBlocks_spec (bytesToSectors m.data.length) (bytesToSectors newLength)
    h.map H.inode
  generalize growBlocks (bytesToSectors m.data.length) (bytesToSectors newLength) s.store
    m.data = r at G hclean ⊢
  obtain ⟨ok, st', n'⟩ := r
  cases ok with
  | false => exact ⟨o', H.inode.evolves G.grows, h.grown hm G hclean⟩
  | true =>
    have hg := h.grown hm G (Or.inl rfl)
    have H' := hg.mem x _ (s.setMem_opens_self x _)
    -- the new blocks are there up to the new length
    have hmapped : Mapped st'.disk x { n' with length := newLength } :=
      ⟨hlimit, G.data hlimit H.mapped.data⟩
    have hset := hg.setInode { m with data := { n' with length := newLength } } H'.live
      ⟨H'.inode.direct, H'.inode.indirect, H'.inode.doubly, H'.inode.leaves⟩
      { H'.fits hg.map with
        length := length_lt (n := { n' with length := newLength }) hlimit }
      hmapped H'.removed
    refine ⟨o', (H.inode.evolves G.grows).trans (.write _ (hg.self x H'.live).2 rfl), ?_⟩
    simp only [Fs.setInode, Fs.setMem, update_idem] at hset
    exact hset

end Sound

end MavInode
