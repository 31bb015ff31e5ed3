import Maverick.InodeSoundProofs

/-! # No sector is shared

Creations, extending writes, removals and final closes keep the table's invariant, so the sectors of
live inodes are in use, distinct, and disjoint from inode to inode. The exception is an extension
or a creation that runs out of sectors below a new index block: the block is named by the inode but
was never written, and the next operation trusts what the sector held before. -/

namespace MavInode

open MavBlock MavField MavRun List
open Function (update update_self update_of_ne)

section Sharing

variable {o o' : Owner} {s s' : Fs} {st st' : Store} {x y : Sector} {m : MemInode}
  {n n' : InodeDisk} {length : Nat} {type : InodeType}

/-! ## Giving sectors back -/

theorem releaseAll_some {L : List Sector} {st st' : Store} : releaseAll st L = some st' →
    st'.disk = st.disk ∧ st'.size = st.size ∧ ∀ y, st'.used y ↔ st.used y ∧ y ∉ L := by
  induction L generalizing st st' with
  | nil =>
    intro h
    rw [← Option.some.inj h]
    exact ⟨rfl, rfl, fun y => ⟨fun hy => ⟨hy, nofun⟩, fun hy => hy.1⟩⟩
  | cons x xs ih =>
    intro h
    obtain ⟨st1, hx, h⟩ := Option.bind_eq_some_iff.mp h
    obtain ⟨-, rfl⟩ := of_guard hx
    obtain ⟨h1, h2, h3⟩ := ih h
    refine ⟨h1, h2, fun y => (h3 y).trans ?_⟩
    by_cases hyx : y = x
    · subst hyx
      simp
    · simp only [update_of_ne hyx, mem_cons, hyx, false_or]

theorem mem_nonzero {k : Nat} {a : Fin k → Nat} {y : Sector} :
    y ∈ nonzero a ↔ y ≠ 0 ∧ ∃ i, a i = y := by
  unfold nonzero
  simp only [mem_filter, mem_map, mem_finRange, true_and, decide_eq_true_eq]
  exact and_comm

/-- `inode_deallocate` releases the sectors of the inode's places. -/
theorem mem_blockList {d : Disk} (h : y ∈ blockList d n) :
    y ≠ 0 ∧ ∃ a, a ≠ .self ∧ ptr d x n a = y := by
  rcases mem_append.mp h with h | h
  · rcases mem_append.mp h with h | h
    · obtain ⟨hnz, i, rfl⟩ := mem_nonzero.mp h
      exact ⟨hnz, .direct i, nofun, rfl⟩
    split at h
    · exact nomatch h
    · rename_i hi
      rcases mem_append.mp h with h | h
      · obtain ⟨hnz, i, rfl⟩ := mem_nonzero.mp h
        exact ⟨hnz, .single i, nofun, congrFun (ptrsAt_of_ne d hi) i⟩
      · rw [mem_singleton.mp h]
        exact ⟨hi, .indirect, nofun, rfl⟩
  · split at h
    · exact nomatch h
    rename_i hi
    rcases mem_append.mp h with h | h
    · obtain ⟨p, hp, h⟩ := mem_flatMap.mp h
      obtain ⟨hpz, i, rfl⟩ := mem_nonzero.mp hp
      have hidx : ptrsAt d n.doublyIndirect i = words (d n.doublyIndirect) i :=
        congrFun (ptrsAt_of_ne d hi) i
      rcases mem_append.mp h with h | h
      · obtain ⟨hnz, j, rfl⟩ := mem_nonzero.mp h
        refine ⟨hnz, .leaf i j, nofun, ?_⟩
        show ptrsAt d (ptrsAt d n.doublyIndirect i) j = _
        rw [hidx, ptrsAt_of_ne d hpz]
      · rw [mem_singleton.mp h]
        exact ⟨hpz, .index i, nofun, hidx⟩
    · rw [mem_singleton.mp h]
      exact ⟨hi, .doubly, nofun, rfl⟩

theorem InodeOk.blockList_owner (h : InodeOk o st x n) (hy : y ∈ blockList st.disk n) :
    ∃ a, o y = some (x, a) := by
  obtain ⟨hnz, a, ha, rfl⟩ := mem_blockList (x := x) hy
  exact ⟨a, (h.place ha hnz).2⟩

/-- The inode at `x` leaves the table. -/
theorem Sound.kill (h : Sound o s) (hx : 2 ≤ x) :
    Sound o { s.dropMem x with live := update s.live x false } := by
  have hlive : ∀ z, update s.live x false z = true → s.live z = true :=
    fun _ hz => (of_update hz nofun).2
  refine ⟨h.map, ?_, fun z hz => h.self z (hlive z hz), fun z hz => h.inode z (hlive z hz),
    fun z hz => h.mapped z (hlive z hz), ?_⟩
  · intro z hz
    refine ⟨(h.reserved z hz).1, fun hl => (h.reserved z hz).2 ?_⟩
    exact (update_of_ne (hz.trans_le hx).ne ..).symm.trans hl
  · intro z m hm
    obtain ⟨hzx, hm⟩ := of_update hm nofun
    have H := h.mem z m hm
    exact { H with live := (update_of_ne hzx ..).trans H.live }

/-- Releasing sectors of a sector number that holds no inode. -/
theorem Sound.release (h : Sound o s) (hx : s.live x = false) (hx2 : 2 ≤ x) {L : List Sector}
    (hL : ∀ y ∈ L, ∃ a, o y = some (x, a)) (hr : releaseAll s.store L = some st') :
    Sound o { s with store := st' } := by
  obtain ⟨hdisk, hsize, hused⟩ := releaseAll_some hr
  have hkeep : ∀ {y z a}, s.live z → s.store.used y → o y = some (z, a) → st'.used y := by
    intro y z a hz hu ho
    refine (hused y).mpr ⟨hu, fun hyL => ?_⟩
    obtain ⟨b, hb⟩ := hL y hyL
    obtain rfl := (pair_inj (ho.symm.trans hb)).1
    exact nomatch hz.symm.trans hx
  have hres : ∀ z < 2, st'.used z := by
    intro z hz
    refine (hused z).mpr ⟨(h.reserved z hz).1, fun hzL => ?_⟩
    obtain ⟨a, ha⟩ := hL z hzL
    have hzx : z ≠ x := (hz.trans_le hx2).ne
    by_cases hl : s.live z
    · rw [(h.self z hl).2] at ha
      exact hzx (pair_inj ha).1
    · rcases (h.reserved z hz).2 (by simpa using hl) with ho | ho
      · exact nomatch ho.symm.trans ha
      · rw [ho] at ha
        exact hzx (pair_inj ha).1
  refine h.frame ⟨hres 0 Nat.zero_lt_two, fun y hy => ?_, hsize ▸ h.map.size⟩
    (fun z hz => ⟨hres z hz, (h.reserved z hz).2⟩) (fun z hz => ⟨congrFun hdisk z, ?_⟩)
    fun z n hz hn => ⟨InodeOk.of_place fun a ha hp => ?_, fun a => by rw [hdisk]⟩
  · rw [hsize]
    exact h.map.range y ((hused y).mp hy).1
  · obtain ⟨hu, ho⟩ := h.self z hz
    exact ⟨hkeep hz hu ho, ho⟩
  · rw [hdisk] at hp ⊢
    obtain ⟨hu, ho⟩ := hn.place ha hp
    exact ⟨hkeep hz hu ho, ho⟩

/-! ## Creating -/

theorem Sound.opens_none (h : Sound o s) (hx : s.live x = false) : s.opens x = none := by
  cases hm : s.opens x with
  | none => rfl
  | some m => exact nomatch hx.symm.trans (h.mem x m hm).live

/-- A free sector is claimed for an inode. -/
theorem Sound.allocate (h : Sound o s) (hal : allocateOne s.store = some (x, st')) :
    Sound (update o x (some (x, .self))) { s with store := st' } ∧
      s.live x = false ∧ 2 ≤ x ∧ st'.used x := by
  obtain ⟨-, hg, hu, -⟩ := grows_allocate (o := o) h.map hal (x, .self) zeroBlock
  obtain ⟨hfree, -, rfl⟩ := allocateOne_some hal
  have hne : ∀ z, s.store.used z → z ≠ x := by
    rintro z hz rfl
    exact nomatch hz.symm.trans hfree
  have hlive : s.live x = false := by
    by_contra hl
    exact hne x (h.self x (by simpa using hl)).1 rfl
  have hx2 : 2 ≤ x := by
    by_contra hlt
    exact hne x (h.reserved x (Nat.lt_of_not_le hlt)).1 rfl
  refine ⟨h.frame (hg.mapOk h.map) (fun z hz => ?_) (fun z hz => ⟨rfl, ?_⟩)
    fun _ _ _ hn => hn.grows hg fun _ hw => hw.elim, hlive, hx2, hu⟩
  · have hr := h.reserved z hz
    rw [hg.owner z hr.1]
    exact ⟨hg.used z hr.1, hr.2⟩
  · have hs := h.self z hz
    exact ⟨hg.used z hs.1, (hg.owner z hs.1).trans hs.2⟩

/-- A new inode names no sector. -/
theorem ptr_blank {d : Disk} {a : Slot} (ha : a ≠ .self) :
    ptr d x (blankInode length type) a = 0 := by
  have hz : ∀ i, ptrsAt d 0 i = 0 := fun i => congrFun (ptrsAt_zero d) i
  cases a with
  | self => exact absurd rfl ha
  | single i => exact hz i
  | index i => exact hz i
  | leaf i j =>
    show ptrsAt d (ptrsAt d 0 i) j = 0
    rw [hz, hz]
  | _ => rfl

theorem indexOf_blank {d : Disk} (h : IndexOf d (blankInode length type) y) : y = 0 := by
  rcases h with h | h | ⟨i, h⟩
  · exact h
  · exact h
  · exact h.trans (congrFun (ptrsAt_zero d) i)

theorem blankInode_ok (o : Owner) (st : Store) (x : Sector) (length : Nat) (type : InodeType) :
    InodeOk o st x (blankInode length type) :=
  InodeOk.of_place fun _ ha hp => absurd (ptr_blank ha) hp

/-- The growth of a new inode leaves the inodes of the table alone. -/
theorem Sound.grows_blank (h : Sound o s)
    (hg : Grows (IndexOf s.store.disk (blankInode length type)) o s.store o' st') :
    Sound o' { s with store := st' } := by
  refine h.frame (hg.mapOk h.map) (fun z hz => ?_)
    (fun z hz => h.grows_other (blankInode_ok o s.store z length type) hg hz)
    fun _ _ _ hn => hn.grows hg fun _ hi _ => indexOf_blank hi
  have hr := h.reserved z hz
  rw [hg.owner z hr.1]
  exact ⟨hg.used z hr.1, hr.2⟩

theorem InodeType.code_lt (type : InodeType) : type.code < 2 ^ 32 := by
  cases type <;> decide

/-- **CREATING** an inode in a sector of its own. -/
theorem Sound.inodeCreateInternal (h : Sound o s) (hx : s.live x = false) (hu : s.store.used x)
    (ho : o x = some (x, .self)) (hlimit : bytesToSectors length ≤ 16524) {ok : Bool}
    (hclean : ok = true ∨ growClean 0 (bytesToSectors length) s.store (blankInode length type))
    (hr : inodeCreateInternal s.store x length type = some (ok, st')) :
    ∃ o', o' x = some (x, .self) ∧
      (ok = true → Sound o' { s with store := st', live := update s.live x true }) ∧
      (ok = false → 2 ≤ x → Sound o' { s with store := st' }) := by
  obtain ⟨o', G⟩ := growBlocks_spec 0 (bytesToSectors length) h.map
    (blankInode_ok o s.store x length type)
  unfold MavInode.inodeCreateInternal at hr
  generalize growBlocks 0 (bytesToSectors length) s.store (blankInode length type) = r at G hr
  obtain ⟨ok', st1, n⟩ := r
  have hs := h.grows_blank G.grows
  have ho' : o' x = some (x, .self) := (G.grows.owner x hu).trans ho
  refine ⟨o', ho', ?_⟩
  cases ok' with
  | true =>
    have hn := G.inode (.inl rfl)
    obtain ⟨rfl, rfl⟩ := pair_inj hr
    refine ⟨fun _ => ?_, nofun⟩
    have hlen : n.length = length := G.length
    have hmapped : Mapped st1.disk x n := ⟨hlen ▸ hlimit, hlen ▸ G.data hlimit nofun⟩
    have htype : n.type = type.code := G.type
    have hnlink : n.nlink = 1 := G.nlink
    exact hs.store_inode (G.grows.used x hu) ho' hn
      (hn.fits hs.map (length_lt hmapped.limit) (htype ▸ type.code_lt) (hnlink ▸ by decide))
      hmapped (h.opens_none hx)
  | false =>
    -- what was taken so far is given back
    obtain ⟨st2, hrel, hr⟩ := Option.map_eq_some_iff.mp hr
    obtain ⟨rfl, rfl⟩ := Prod.mk.inj hr
    have hn := G.inode (.inr (hclean.resolve_left nofun))
    refine ⟨nofun, fun _ hx2 => ?_⟩
    exact hs.release hx hx2 (fun y hy => hn.blockList_owner hy) hrel

theorem freeMapRelease_eq (st : Store) (x : Sector) :
    freeMapRelease st x = releaseAll st [x] := by
  show _ = (freeMapRelease st x).bind fun st => some st
  cases freeMapRelease st x <;> rfl

theorem freeMapRelease_disk {st st' : Store} (h : freeMapRelease st x = some st') :
    st'.disk = st.disk := by
  obtain ⟨-, h⟩ := Option.ite_none_right_eq_some.mp h
  rw [← Option.some.inj h]

/-- If the creation stops below a new index block, its sector held zeros. -/
def createClean (s : Fs) (length : Nat) (type : InodeType) : Prop :=
  bytesToSectors length ≤ 16524 ∧
    match allocateOne s.store with
    | none => True
    | some (_, st) => growClean 0 (bytesToSectors length) st (blankInode length type)

theorem Sound.create (h : Sound o s) (hc : createClean s length type)
    (hr : create s length type = some s') : ∃ o', Sound o' s' := by
  obtain ⟨hlimit, hclean⟩ := hc
  unfold MavInode.create at hr
  cases hal : allocateOne s.store with
  | none =>
    rw [hal] at hr
    exact ⟨o, Option.some.inj hr ▸ h⟩
  | some r =>
    obtain ⟨x, st⟩ := r
    rw [hal] at hr hclean
    simp only at hr hclean
    obtain ⟨hs, hlive, hx2, hu⟩ := h.allocate hal
    have hcreated {ok st1} (hci : MavInode.inodeCreateInternal st x length type = some (ok, st1)) :=
      hs.inodeCreateInternal hlive hu (update_self ..) hlimit (.inr hclean) hci
    split at hr
    · exact nomatch hr
    · next hci =>
        obtain ⟨o', -, htrue, -⟩ := hcreated hci
        exact ⟨o', Option.some.inj hr ▸ htrue rfl⟩
    · next hci =>
        obtain ⟨o', ho', -, hfalse⟩ := hcreated hci
        obtain ⟨st2, hrel, rfl⟩ := Option.map_eq_some_iff.mp hr
        rw [freeMapRelease_eq] at hrel
        refine ⟨o', (hfalse rfl hx2).release hlive hx2 (fun y hy => ?_) hrel⟩
        rw [mem_singleton.mp hy]
        exact ⟨_, ho'⟩

/-- A reserved sector is claimed for its inode. -/
theorem Sound.claim (h : Sound o s) (hx : x < 2) (hlive : s.live x = false) :
    Sound (update o x (some (x, .self))) s := by
  have hother : ∀ {y z a}, a ≠ Slot.self → o y = some (z, a) →
      update o x (some (x, .self)) y = some (z, a) := by
    intro y z a ha hy
    refine (update_of_ne ?_ ..).trans hy
    rintro rfl
    rcases (h.reserved y hx).2 hlive with ho | ho
    · exact nomatch ho.symm.trans hy
    · exact ha (pair_inj (ho.symm.trans hy)).2.symm
  refine h.frame h.map (fun z hz => ?_) (fun z hz => ⟨rfl, ?_⟩) fun z n _ hn =>
    ⟨.of_place fun a ha hp => ⟨(hn.place ha hp).1, hother ha (hn.place ha hp).2⟩, fun _ => rfl⟩
  · by_cases hzx : z = x
    · subst hzx
      exact ⟨(h.reserved z hz).1, fun _ => .inr (update_self ..)⟩
    · rw [update_of_ne hzx]
      exact h.reserved z hz
  · have hzx : z ≠ x := by
      rintro rfl
      exact nomatch hlive.symm.trans hz
    rw [update_of_ne hzx]
    exact h.self z hz

theorem Sound.format (h : Sound o s) (hlimit : bytesToSectors length ≤ 16524)
    (hr : format s x length type = some s') : ∃ o', Sound o' s' := by
  obtain ⟨hx, hr⟩ := Option.ite_none_right_eq_some.mp hr
  split at hr
  · next hci =>
      obtain ⟨o', -, htrue, -⟩ := (h.claim hx.1 hx.2).inodeCreateInternal hx.2
        (h.reserved x hx.1).1 (update_self ..) hlimit (.inl rfl) hci
      exact ⟨o', Option.some.inj hr ▸ htrue rfl⟩
  · exact nomatch hr

/-! ## Writing and closing -/

/-- If the extension stops below a new index block, its sector held zeros. -/
def extendClean (s : Store) (n : InodeDisk) (newLength : Nat) : Prop :=
  bytesToSectors newLength ≤ 16524 ∧
    (bytesToSectors newLength = bytesToSectors n.length ∨
      growClean (bytesToSectors n.length) (bytesToSectors newLength) s n)

/-- A growth that succeeds is clean. -/
theorem growClean_of_ok {old new : Nat} (h : (growBlocks old new st n).1 = true) :
    growClean old new st n := by
  unfold growBlocks at h
  unfold growClean
  split
  · trivial
  rename_i st1 d hd
  rw [hd] at h
  simp only at h
  split
  · trivial
  rename_i hnew
  rw [if_neg hnew] at h
  split
  · rename_i hi
    rw [hi] at h
    cases h
  rename_i hi
  rw [hi] at h
  simp only at h
  split
  · trivial
  · rename_i hnew'
    rw [if_neg hnew'] at h
    split
    · rename_i hdbl
      rw [hdbl] at h
      cases h
    · trivial

theorem extendClean_of_ok {newLength : Nat} (hlimit : bytesToSectors newLength ≤ 16524)
    (h : (MavInode.inodeExtend st x n newLength).1 = true) : extendClean st n newLength := by
  refine ⟨hlimit, ?_⟩
  by_cases hsame : bytesToSectors newLength = bytesToSectors n.length
  · exact .inl hsame
  · refine .inr (growClean_of_ok ?_)
    unfold MavInode.inodeExtend at h
    rw [if_neg hsame] at h
    split at h
    · exact nomatch h
    · rename_i hg
      rw [hg]

theorem Sound.inodeWriteAt (h : Sound o s) (hm : s.opens x = some m) {buf : List UInt8}
    {offset : Nat} (hc : m.denyWriteCnt = 0 → m.data.length < offset + buf.length →
      extendClean s.store m.data (offset + buf.length)) :
    ∃ o', Sound o' { s.setMem x (inodeWriteAt s.store x m buf offset).2.2 with
      store := (inodeWriteAt s.store x m buf offset).2.1 } := by
  have H := h.mem x m hm
  unfold MavInode.inodeWriteAt
  by_cases hdeny : m.denyWriteCnt ≠ 0
  · rw [if_pos hdeny]
    exact ⟨o, h.setMem H⟩
  rw [if_neg hdeny]
  split
  · rename_i hext
    obtain ⟨hlimit, hclean⟩ := hc (not_not.mp hdeny) hext
    have hclean' : (MavInode.inodeExtend s.store x m.data (offset + buf.length)).1 = true ∨
        growClean (bytesToSectors m.data.length) (bytesToSectors (offset + buf.length)) s.store
          m.data := by
      rcases hclean with he | hg
      · refine .inl ?_
        unfold MavInode.inodeExtend
        rw [if_pos he]
      · exact .inr hg
    obtain ⟨o', -, hs⟩ := h.inodeExtend hm hlimit hclean'
    generalize MavInode.inodeExtend s.store x m.data (offset + buf.length) = r at hs ⊢
    obtain ⟨ok, st', n'⟩ := r
    cases ok with
    | false => exact ⟨o', hs⟩
    | true =>
      exact ⟨o', hs.writeLoop (s.setMem_opens_self x _) buf.length buf offset 0⟩
  · have hs := h.setMem H
    exact ⟨o, hs.writeLoop (s.setMem_opens_self x _) buf.length buf offset 0⟩

/-- Where a close gives the inode back. -/
def MemInode.lastClose (m : MemInode) : Prop :=
  m.openCnt - 1 = 0 ∧ m.removed = true ∧ m.data.nlink = 0
deriving Decidable

/-- What a close does; the inode's own sector goes first, then its blocks. -/
theorem inodeClose_eq (hm : s.opens x = some m) : inodeClose s x =
    if m.lastClose then (releaseAll s.store (x :: blockList s.store.disk m.data)).map fun st =>
      { s.dropMem x with store := st, live := update s.live x false }
    else some (if m.openCnt - 1 = 0 then s.dropMem x
      else s.setMem x { m with openCnt := m.openCnt - 1 }) := by
  have hall : ((freeMapRelease s.store x).bind fun st => inodeDeallocate st m.data) =
      releaseAll s.store (x :: blockList s.store.disk m.data) := by
    rw [releaseAll]
    cases hf : freeMapRelease s.store x with
    | none => rw [Option.bind_none, Option.bind_none]
    | some st => rw [Option.bind_some, Option.bind_some, inodeDeallocate, freeMapRelease_disk hf]
  unfold inodeClose MemInode.lastClose
  simp only [hm, hall]
  by_cases hlast : m.openCnt - 1 = 0
  · simp only [hlast, if_true, true_and]
  · simp only [hlast, if_false, false_and]

theorem Sound.inodeClose (h : Sound o s) (hr : inodeClose s x = some s') : Sound o s' := by
  cases hm : s.opens x with
  | none =>
    simp only [MavInode.inodeClose, hm] at hr
    exact nomatch hr
  | some m =>
    have H := h.mem x m hm
    rw [inodeClose_eq hm] at hr
    split at hr
    · next hlast =>
        obtain ⟨st', hrel, rfl⟩ := Option.map_eq_some_iff.mp hr
        refine (h.kill (H.removed hlast.2.1)).release (update_self ..)
          (H.removed hlast.2.1) (fun y hy => ?_) hrel
        rcases mem_cons.mp hy with rfl | hy
        · exact ⟨_, (h.self _ H.live).2⟩
        · exact H.inode.blockList_owner hy
    · rw [← Option.some.inj hr]
      split
      · exact h.dropMem x
      · exact h.setMem { H with }

/-! ## Steps and runs -/

/-- The operation ends within the blocks an inode can name, and if it runs out
    of sectors below a new index block, that sector held only zeros. -/
def opClean (s : Fs) : Op → Prop
  | .create none length type => createClean s length type
  | .create (some _) length _ => bytesToSectors length ≤ 16524
  | .write x buf offset =>
    match s.opens x with
    | none => True
    | some m => m.denyWriteCnt = 0 → m.data.length < offset + buf.length →
        extendClean s.store m.data (offset + buf.length)
  | _ => True

theorem onOpen_some {f : MemInode → Option Fs} (h : onOpen s x f = some s') :
    ∃ m, s.opens x = some m ∧ f m = some s' :=
  Option.bind_eq_some_iff.mp h

/-- **STEP**: a clean operation keeps the invariant. -/
theorem Sound.step (h : Sound o s) {op : Op} (hc : opClean s op) (hr : step s op = some s') :
    ∃ o', Sound o' s' := by
  cases op with
  | create place length type =>
    cases place with
    | none => exact h.create hc hr
    | some x => exact h.format hc hr
  | openInode x =>
    refine ⟨o, ?_⟩
    simp only [MavInode.step, inodeOpen] at hr
    split at hr
    · next m hm =>
        have H := h.mem x m hm
        rw [← Option.some.inj hr]
        exact h.setMem { H with }
    · obtain ⟨hl, rfl⟩ := of_guard hr
      exact h.setMem ⟨hl, h.inode x hl, h.mapped x hl, Agrees.refl _, nofun⟩
  | close x => exact ⟨o, h.inodeClose hr⟩
  | remove x =>
    obtain ⟨m, hm, hr⟩ := onOpen_some hr
    have H := h.mem x m hm
    obtain ⟨hx, hr⟩ := Option.ite_none_left_eq_some.mp hr
    rw [← Option.some.inj hr]
    exact ⟨o, h.setMem { H with removed := fun _ => Nat.le_of_not_lt hx }⟩
  | incNlink x =>
    obtain ⟨m, hm, hr⟩ := onOpen_some hr
    have H := h.mem x m hm
    rw [← Option.some.inj hr]
    exact ⟨o, h.setInode _ H.live ⟨H.inode.direct, H.inode.indirect, H.inode.doubly, H.inode.leaves⟩
      { H.fits h.map with nlink := Nat.mod_lt _ (by decide) } ⟨H.mapped.limit, H.mapped.data⟩
      H.removed⟩
  | decNlink x =>
    obtain ⟨m, hm, hr⟩ := onOpen_some hr
    have H := h.mem x m hm
    obtain ⟨-, hr⟩ := Option.ite_none_left_eq_some.mp hr
    rw [← Option.some.inj hr]
    exact ⟨o, h.setInode _ H.live ⟨H.inode.direct, H.inode.indirect, H.inode.doubly, H.inode.leaves⟩
      { H.fits h.map with nlink := (Nat.sub_le _ 1).trans_lt (H.fits h.map).nlink }
      ⟨H.mapped.limit, H.mapped.data⟩ H.removed⟩
  | denyWrite x | allowWrite x =>
    obtain ⟨m, hm, hr⟩ := onOpen_some hr
    have H := h.mem x m hm
    obtain ⟨-, hr⟩ := Option.ite_none_left_eq_some.mp hr
    rw [← Option.some.inj hr]
    exact ⟨o, h.setMem { H with }⟩
  | write x buf offset =>
    obtain ⟨m, hm, hr⟩ := onOpen_some hr
    simp only [opClean, hm] at hc
    rw [← Option.some.inj hr]
    exact h.inodeWriteAt hm hc

theorem booted_sound (disk : Disk) {size : Nat} (hsize : 67 ≤ size) (hmax : size ≤ 2 ^ 32) :
    Sound (fun _ => none) (booted disk size) := by
  refine ⟨⟨rfl, fun y hy => ?_, hmax⟩, fun x hx => ⟨?_, fun _ => .inl rfl⟩,
    nofun, nofun, nofun, nofun⟩
  · exact (of_decide_eq_true hy).trans_le hsize
  · exact decide_eq_true (hx.trans (by decide))

/-- **RUN**: the invariant holds in every state a clean run reaches. -/
theorem sound_run (disk : Disk) {size : Nat} (hsize : 67 ≤ size) (hmax : size ≤ 2 ^ 32)
    {ops : List Op} (hG : Guarded MavInode.step opClean (booted disk size) ops)
    (hr : exec MavInode.step (booted disk size) ops = some s) : ∃ o, Sound o s :=
  exec_inv (I := fun s => ∃ o, Sound o s) (fun _ _ _ ⟨_, h⟩ hc hs => h.step hc hs) ops _ s
    ⟨_, booted_sound disk hsize hmax⟩ hG hr

/-! ## Disjoint sectors -/

/-- The inode at `x` as it stands in its sector, and in memory if it is open. -/
def Fs.Version (s : Fs) (x : Sector) (n : InodeDisk) : Prop :=
  n = s.onDisk x ∨ ∃ m, s.opens x = some m ∧ n = m.data

/-- The sectors of the live inodes are in use, without duplicates, and disjoint
    from inode to inode. -/
structure NoSharing (s : Fs) : Prop where
  used : ∀ x n, s.live x → s.Version x n → ∀ a, (a = .self ∨ ptr s.store.disk x n a ≠ 0) →
    s.store.used (ptr s.store.disk x n a)
  distinct : ∀ x n, s.live x → s.Version x n → ∀ a b, ptr s.store.disk x n a ≠ 0 →
    ptr s.store.disk x n a = ptr s.store.disk x n b → a = b
  disjoint : ∀ x y n n', s.live x → s.live y → x ≠ y → s.Version x n → s.Version y n' → ∀ a b,
    ptr s.store.disk x n a ≠ 0 → ptr s.store.disk x n a ≠ ptr s.store.disk y n' b

/-- Every place of a live inode owns its sector. -/
theorem Sound.owned (h : Sound o s) (hx : s.live x) (hv : s.Version x n) {a : Slot}
    (ha : a = .self ∨ ptr s.store.disk x n a ≠ 0) :
    s.store.used (ptr s.store.disk x n a) ∧ o (ptr s.store.disk x n a) = some (x, a) := by
  have hn : InodeOk o s.store x n := by
    rcases hv with rfl | ⟨m, hm, rfl⟩
    · exact h.inode x hx
    · exact (h.mem x m hm).inode
  by_cases hs : a = .self
  · subst hs
    exact h.self x hx
  · exact hn.place hs (ha.resolve_left hs)

theorem Sound.noSharing (h : Sound o s) : NoSharing s where
  used x n hx hv a ha := (h.owned hx hv ha).1
  distinct x n hx hv a b hnz e := by
    have h1 := (h.owned hx hv (.inr hnz)).2
    have h2 := (h.owned hx hv (a := b) (.inr (e ▸ hnz))).2
    rw [e] at h1
    exact (pair_inj (h1.symm.trans h2)).2
  disjoint x y n n' hx hy hxy hv hv' a b hnz e := by
    have h1 := (h.owned hx hv (.inr hnz)).2
    have h2 := (h.owned hy hv' (a := b) (.inr (e ▸ hnz))).2
    rw [e] at h1
    exact hxy (pair_inj (h1.symm.trans h2)).1

/-- **NO SECTOR SHARING**: in every state reached by a run whose operations are
    all clean, the sectors of the live inodes are in use, distinct and
    disjoint. -/
theorem no_sector_sharing (disk : Disk) {size : Nat} (hsize : 67 ≤ size) (hmax : size ≤ 2 ^ 32)
    {ops : List Op} {t : Fs} (hG : Guarded MavInode.step opClean (booted disk size) ops)
    (hr : exec MavInode.step (booted disk size) ops = some t) : NoSharing t := by
  obtain ⟨o, h⟩ := sound_run disk hsize hmax hG hr
  exact h.noSharing

end Sharing

/-! ## Files without index blocks -/

/-- The operation names direct blocks only. -/
def Op.direct : Op → Prop
  | .create _ length _ => bytesToSectors length ≤ 12
  | .write _ buf offset => bytesToSectors (offset + buf.length) ≤ 12
  | _ => True

instance (op : Op) : Decidable op.direct := by
  cases op <;> unfold Op.direct <;> infer_instance

theorem growClean_of_direct {old new : Nat} (h : new ≤ 12) (s : Store) (n : InodeDisk) :
    growClean old new s n := by
  unfold growClean
  split
  · trivial
  · rw [if_pos h]
    trivial

/-- Without index blocks every operation is clean. -/
theorem opClean_of_direct {op : Op} (h : op.direct) (s : Fs) : opClean s op := by
  cases op with
  | create place length type =>
    have hle : bytesToSectors length ≤ 16524 := h.trans (by decide)
    cases place with
    | some x => exact hle
    | none =>
      refine ⟨hle, ?_⟩
      split
      · trivial
      · exact growClean_of_direct h _ _
  | write x buf offset =>
    simp only [opClean]
    split
    · trivial
    · exact fun _ _ => ⟨h.trans (by decide), .inr (growClean_of_direct h _ _)⟩
  | _ => trivial

/-- A file is created, extended over its first block, and reopened. -/
def directRun : List Op :=
  [.create (some 1) 0 .dir, .create none 1 .file, .openInode 67, .write 67 [7] 600, .close 67,
    .openInode 67]

theorem no_sector_sharing_directRun :
    ∃ t, exec step (booted (fun _ => zeroBlock) 80) directRun = some t ∧ NoSharing t := by
  obtain ⟨t, ht⟩ := Option.isSome_iff_exists.mp
    (by decide +kernel : (exec step (booted (fun _ => zeroBlock) 80) directRun).isSome)
  refine ⟨t, ht, no_sector_sharing (fun _ => zeroBlock) (by decide) (by decide) ?_ ht⟩
  refine guarded_of_mem _ _ fun op hop => opClean_of_direct ?_
  revert op
  decide

/-! ## An index block that was never written

On a device with 14 sectors left, a file takes 13 and a directory the last one; the directory is
removed. A write past the twelfth block of the file takes that sector as its index block and finds
no sector for the data. The file in memory now has an index block whose words are those of the
removed directory: the type 1 is read as the sector of the root directory. -/

def staleRun : List Op :=
  [.create (some 1) 0 .dir, .create none 6144 .file, .create none 0 .dir, .openInode 80,
    .decNlink 80, .remove 80, .close 80, .openInode 67, .write 67 [1] 6144]

theorem failed_extension_shares_root :
    ∃ t, exec step (booted (fun _ => zeroBlock) 81) staleRun = some t ∧ ¬ NoSharing t := by
  have hrun : ((exec step (booted (fun _ => zeroBlock) 81) staleRun).map fun t =>
      (t.live 67, t.live 1, (t.opens 67).map fun m => ptr t.store.disk 67 m.data (.single 15))) =
        some (true, true, some 1) := by decide +kernel
  obtain ⟨t, ht, hfinal⟩ := Option.map_eq_some_iff.mp hrun
  simp only [Prod.mk.injEq] at hfinal
  obtain ⟨hfile, hroot, hmem⟩ := hfinal
  obtain ⟨m, hm, hptr⟩ := Option.map_eq_some_iff.mp hmem
  refine ⟨t, ht, fun hns => ?_⟩
  refine hns.disjoint 67 1 m.data (t.onDisk 1) hfile hroot (by decide) (Or.inr ⟨m, hm, rfl⟩)
    (Or.inl rfl) (.single 15) .self ?_ hptr
  rw [hptr]
  decide

end MavInode
