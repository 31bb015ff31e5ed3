import Maverick.ReclaimProofs

/-! # Capacity — lengths without blocks

An inode has places for 16524 data blocks. The allocation loops of `inode_create_internal` and
`inode_extend` stop at the last of them without failing and the length is stored as requested, so
the length is covered by the block map exactly up to that many blocks. -/

namespace MavInode

open MavBlock MavField MavRun

section Capacity

variable {o o' : Owner} {s st st' : Store} {x : Sector} {n n' : InodeDisk} {length : Nat}
  {type : InodeType}

/-! ## The length and the block map -/

/-- Every block of the length has a sector in the index tree, found within the
    arrays of pointers. -/
def Covered (d : Disk) (x : Sector) (n : InodeDisk) : Prop :=
  ∀ k < bytesToSectors n.length, (k - 140) / 128 < 128 ∧ ptr d x n (dataSlot k) ≠ 0

theorem covered_iff {d : Disk} : Covered d x n ↔ Mapped d x n := by
  constructor
  · intro h
    refine ⟨?_, fun k hk => (h k hk).2⟩
    by_contra hlimit
    have hlast := (h 16524 (by omega)).1
    omega
  · intro h k hk
    have hlimit := h.limit
    exact ⟨by omega, h.data k hk⟩

/-- A new inode that could be created has its length, and its blocks if there
    are places for them. -/
theorem create_mapped (hm : MapOk s) (hx : s.used x) (hlen : length < 2 ^ 31)
    (hr : inodeCreateInternal s x length type = some (true, st')) :
    (InodeDisk.decode (st'.disk x)).length = length ∧
      (bytesToSectors length ≤ 16524 → Mapped st'.disk x (.decode (st'.disk x))) := by
  obtain ⟨o', G⟩ := growBlocks_spec 0 (bytesToSectors length) hm
    (blankInode_ok (fun _ => some (x, .self)) s x length type)
  unfold inodeCreateInternal at hr
  generalize growBlocks 0 (bytesToSectors length) s (blankInode length type) = r at G hr
  obtain ⟨ok, st, n⟩ := r
  cases ok with
  | false =>
    obtain ⟨_, -, h⟩ := Option.map_eq_some_iff.mp hr
    exact nomatch h
  | true =>
    obtain ⟨-, rfl⟩ := pair_inj hr
    have hn := G.inode (.inl rfl)
    have hl : n.length = length := G.length
    have htype : n.type = type.code := G.type
    have hnlink : n.nlink = 1 := G.nlink
    have hfits := hn.fits (G.grows.mapOk hm) (show n.length < _ by omega) (htype ▸ type.code_lt)
      (hnlink ▸ by decide)
    rw [decode_write hfits]
    exact ⟨hl, fun hlimit => Mapped.of_ptr ⟨hl ▸ hlimit, hl ▸ G.data hlimit nofun⟩
      (hn.write n.encode (G.grows.owner x hx) trivial).2⟩

/-- So has an inode that could be extended. -/
theorem extend_mapped (hm : MapOk s) (hx : s.used x) (ho : o x = some (x, .self))
    (hn : InodeOk o s x n) (hmap : Mapped s.disk x n)
    (hr : (inodeExtend s x n length).1 = true) :
    (inodeExtend s x n length).2.2.length = length ∧ (bytesToSectors length ≤ 16524 →
      Mapped (inodeExtend s x n length).2.1.disk x (inodeExtend s x n length).2.2) := by
  unfold inodeExtend at hr ⊢
  by_cases hsame : bytesToSectors length = bytesToSectors n.length
  · rw [if_pos hsame]
    have hw := (hn.write { n with length := length }.encode ho trivial).2
    exact ⟨rfl, fun hlimit =>
      ⟨hlimit, fun k hk => (hw (dataSlot k)).trans_ne (hmap.data k (hsame ▸ hk))⟩⟩
  rw [if_neg hsame] at hr ⊢
  obtain ⟨o', G⟩ := growBlocks_spec (bytesToSectors n.length) (bytesToSectors length) hm hn
  generalize growBlocks (bytesToSectors n.length) (bytesToSectors length) s n = r at G hr ⊢
  obtain ⟨ok, st, n'⟩ := r
  cases ok with
  | false => exact nomatch hr
  | true =>
    have hw := ((G.inode (.inl rfl)).write { n' with length := length }.encode
      ((G.grows.owner x hx).trans ho) trivial).2
    exact ⟨rfl, fun hlimit =>
      ⟨hlimit, fun k hk => (hw (dataSlot k)).trans_ne (G.data hlimit hmap.data k hk)⟩⟩

/-- **THE LENGTH IS COVERED UP TO 16524 BLOCKS**, and no further: a creation or
    an extension that succeeds leaves the blocks of the length in the index
    tree exactly if there are places for them. -/
theorem length_covered_iff (hm : MapOk s) (hx : s.used x) (ho : o x = some (x, .self))
    (hn : InodeOk o s x n) (hmap : Mapped s.disk x n) (hlen : length < 2 ^ 31) :
    (∀ type st', inodeCreateInternal s x length type = some (true, st') →
      (Covered st'.disk x (.decode (st'.disk x)) ↔ bytesToSectors length ≤ 16524)) ∧
    ((inodeExtend s x n length).1 = true →
      (Covered (inodeExtend s x n length).2.1.disk x (inodeExtend s x n length).2.2 ↔
        bytesToSectors length ≤ 16524)) := by
  simp only [covered_iff]
  constructor
  · intro type st' hr
    obtain ⟨hl, hcov⟩ := create_mapped hm hx hlen hr
    exact ⟨fun h => hl ▸ h.limit, hcov⟩
  · intro hr
    obtain ⟨hl, hcov⟩ := extend_mapped hm hx ho hn hmap hr
    exact ⟨fun h => hl ▸ h.limit, hcov⟩

/-- An empty device of `size` sectors. -/
def emptyStore (size : Nat) : Store := (booted (fun _ => zeroBlock) size).store

theorem emptyStore_ok {size : Nat} (h : 67 ≤ size) (hmax : size ≤ 2 ^ 32) :
    MapOk (emptyStore size) :=
  (booted_sound (fun _ => zeroBlock) h hmax).map

/-- One block of data, at sector 67. -/
def oneBlock : InodeDisk := { blankInode 512 .file with direct := fun i => if i = 0 then 67 else 0 }

/-- A file of one block is extended to three. -/
theorem length_covered_three_blocks :
    let s : Store := { emptyStore 80 with used := fun y => y < 68 }
    (inodeExtend s 1 oneBlock 1536).1 = true ∧
      Covered (inodeExtend s 1 oneBlock 1536).2.1.disk 1 (inodeExtend s 1 oneBlock 1536).2.2 := by
  intro s
  have hok : (inodeExtend s 1 oneBlock 1536).1 = true := by decide +kernel
  refine ⟨hok, ((length_covered_iff (o := fun y => some (1, if y = 67 then .direct 0 else .self))
    ⟨rfl, fun y hy => ?_, by decide⟩ rfl rfl (.of_place fun a ha hp => ?_) ⟨by decide, ?_⟩
    (by decide)).2 hok).mpr (by decide)⟩
  · exact (of_decide_eq_true hy).trans (by decide : 68 < 80)
  · cases a with
    | direct i =>
      by_cases hi : i = 0
      · subst hi
        exact ⟨rfl, rfl⟩
      · exact absurd (if_neg hi) hp
    | _ => exact absurd (ptr_blank ha : ptr s.disk 1 (blankInode 512 .file) _ = 0) hp
  · intro k hk
    obtain rfl : k = 0 := Nat.lt_one_iff.mp hk
    decide

/-! A file with all its blocks: word `i` of the index block at sector `y` is
`128 y + i`. -/

def fullStore : Store where
  disk y := ofWords fun i => 128 * y + i.val
  used y := y < 2 ^ 21
  size := 2 ^ 21

def fullInode : InodeDisk where
  direct i := 72 + i.val
  indirect := 70
  doublyIndirect := 71
  length := 8460288
  type := inodeTypeFile
  nlink := 1

/-- The sectors of that file. -/
def fullPtr : Slot → Nat
  | .self => 69
  | .direct i => 72 + i.val
  | .indirect => 70
  | .single i => 8960 + i.val
  | .doubly => 71
  | .index i => 9088 + i.val
  | .leaf i j => 128 * (9088 + i.val) + j.val

def fullOwner : Owner := fun y =>
  if y = 69 then some (69, .self)
  else if y = 70 then some (69, .indirect)
  else if y = 71 then some (69, .doubly)
  else if y < 84 then some (69, .direct ⟨(y - 72) % 12, by omega⟩)
  else if y < 9088 then some (69, .single ⟨y % 128, by omega⟩)
  else if y < 9216 then some (69, .index ⟨y % 128, by omega⟩)
  else some (69, .leaf ⟨y / 128 % 128, by omega⟩ ⟨y % 128, by omega⟩)

theorem fullPtr_owner (a : Slot) :
    0 < fullPtr a ∧ fullPtr a < 2 ^ 21 ∧ fullOwner (fullPtr a) = some (69, a) := by
  cases a <;> grind [fullPtr, fullOwner]

theorem ptr_full (a : Slot) : ptr fullStore.disk 69 fullInode a = fullPtr a := by
  have hw : ∀ y, 0 < y → y < 2 ^ 24 → ∀ i, ptrsAt fullStore.disk y i = 128 * y + i.val := by
    intro y hy hlt i
    rw [ptrsAt_of_ne _ (by omega)]
    exact congrFun (words_ofWords (w := fun i : Fin 128 => 128 * y + i.val) fun i => by omega) i
  cases a with
  | single i => exact hw 70 (by decide) (by decide) i
  | index i => exact hw 71 (by decide) (by decide) i
  | leaf i j =>
    show ptrsAt fullStore.disk (ptrsAt fullStore.disk 71 i) j = _
    rw [hw 71 (by decide) (by decide) i]
    exact hw _ (by omega) (by omega) j
  | _ => rfl

/-- **A FILE OUTGROWS ITS BLOCK MAP**: one byte is written after the last block
    an inode can have; the extension takes no sector and succeeds. -/
theorem full_file_grows :
    MapOk fullStore ∧ fullStore.used 69 ∧ fullOwner 69 = some (69, .self) ∧
      InodeOk fullOwner fullStore 69 fullInode ∧ Mapped fullStore.disk 69 fullInode ∧
      (inodeExtend fullStore 69 fullInode 8460289).1 = true ∧
      ¬ Covered (inodeExtend fullStore 69 fullInode 8460289).2.1.disk 69
        (inodeExtend fullStore 69 fullInode 8460289).2.2 := by
  have hlen : (inodeExtend fullStore 69 fullInode 8460289).2.2.length = 8460289 := by
    decide +kernel
  refine ⟨⟨rfl, fun y hy => of_decide_eq_true hy, by decide⟩, by decide, rfl,
    InodeOk.of_place fun a _ _ => ?_, ⟨by decide, fun k _ => ?_⟩, by decide +kernel, fun h => ?_⟩
  · rw [ptr_full]
    exact ⟨decide_eq_true (fullPtr_owner a).2.1, (fullPtr_owner a).2.2⟩
  · rw [ptr_full]
    exact Nat.pos_iff_ne_zero.mp (fullPtr_owner _).1
  · exact absurd (hlen ▸ (covered_iff.mp h).limit) (by decide)

end Capacity

end MavInode
