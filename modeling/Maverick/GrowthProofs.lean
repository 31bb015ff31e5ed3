import Maverick.InodeProofs

/-! # Growing an inode — the three levels together

`inode_create` and `inode_extend` fill the direct pointers, then the index block, then the second
level. Each stage is a growth of the whole inode: the places filled before keep their sectors, new
places get fresh ones, and nothing that was in use is written except the inode's own index blocks.
Two growths in a row are one, so the stages compose. -/

namespace MavInode

open MavBlock MavField MavRun

variable {k : Nat} {n : InodeDisk} {ok : Bool}

section Growth

variable {W : Sector → Prop} {o o' : Owner} {s s' : Store} {x : Sector}

/-! ## The whole inode -/

/-- The places of an inode other than its own sector are in use for it. -/
structure InodeOk (o : Owner) (s : Store) (x : Sector) (n : InodeDisk) : Prop where
  direct : ArrOk o s x .direct n.direct
  indirect : IdxOk o s x .indirect .single n.indirect
  doubly : IdxOk o s x .doubly .index n.doublyIndirect
  leaves : ∀ i, ArrOk o s x (.leaf i) (ptrsAt s.disk (ptrsAt s.disk n.doublyIndirect i))

theorem InodeOk.place (h : InodeOk o s x n) {a : Slot} (ha : a ≠ .self)
    (hp : ptr s.disk x n a ≠ 0) :
    s.used (ptr s.disk x n a) ∧ o (ptr s.disk x n a) = some (x, a) := by
  cases a with
  | self => exact absurd rfl ha
  | direct i => exact h.direct i hp
  | indirect => exact h.indirect.1 hp
  | single i => exact h.indirect.2 i hp
  | doubly => exact h.doubly.1 hp
  | index i => exact h.doubly.2 i hp
  | leaf i j => exact h.leaves i j hp

/-- Two places of an inode that hold the same sector are the same place. -/
theorem InodeOk.slot_inj (h : InodeOk o s x n) {a b : Slot} (ha : a ≠ .self)
    (hb : b ≠ .self) (hnz : ptr s.disk x n a ≠ 0) (e : ptr s.disk x n a = ptr s.disk x n b) :
    a = b := by
  have ho := (h.place hb (e ▸ hnz)).2
  rw [← e, (h.place ha hnz).2] at ho
  exact (pair_inj ho).2

/-- The index blocks of an inode. -/
def IndexOf (d : Disk) (n : InodeDisk) (y : Sector) : Prop :=
  y = n.indirect ∨ y = n.doublyIndirect ∨ ∃ i, y = ptrsAt d n.doublyIndirect i

theorem InodeOk.indexOf_owner (h : InodeOk o s x n) {y : Sector}
    (hy : IndexOf s.disk n y) (hnz : y ≠ 0) :
    s.used y ∧ (o y = some (x, .indirect) ∨ o y = some (x, .doubly) ∨
      ∃ i, o y = some (x, .index i)) := by
  rcases hy with rfl | rfl | ⟨i, rfl⟩
  · exact ⟨(h.indirect.1 hnz).1, .inl (h.indirect.1 hnz).2⟩
  · exact ⟨(h.doubly.1 hnz).1, .inr (.inl (h.doubly.1 hnz).2)⟩
  · exact ⟨(h.doubly.2 i hnz).1, .inr (.inr ⟨i, (h.doubly.2 i hnz).2⟩)⟩

/-- The inode reads the same pointers while its index blocks stay as they are. -/
theorem ptr_congr {d d' : Disk} (h : ∀ y, IndexOf d n y → y ≠ 0 → d' y = d y) (a : Slot) :
    ptr d' x n a = ptr d x n a := by
  have h1 : ptrsAt d' n.indirect = ptrsAt d n.indirect := ptrsAt_congr (h _ (.inl rfl))
  have h2 : ptrsAt d' n.doublyIndirect = ptrsAt d n.doublyIndirect :=
    ptrsAt_congr (h _ (.inr (.inl rfl)))
  have h3 : ∀ i, ptrsAt d' (ptrsAt d n.doublyIndirect i) = ptrsAt d (ptrsAt d n.doublyIndirect i) :=
    fun i => ptrsAt_congr (h _ (.inr (.inr ⟨i, rfl⟩)))
  cases a with
  | single i => exact congrFun h1 i
  | index i => exact congrFun h2 i
  | leaf i j => simp only [ptr, h2, h3]
  | _ => rfl

theorem InodeOk.of_place (h : ∀ a, a ≠ .self → ptr s.disk x n a ≠ 0 →
      s.used (ptr s.disk x n a) ∧ o (ptr s.disk x n a) = some (x, a)) : InodeOk o s x n :=
  ⟨fun i => h (.direct i) nofun, ⟨h .indirect nofun, fun i => h (.single i) nofun⟩,
   ⟨h .doubly nofun, fun i => h (.index i) nofun⟩,
   fun i j => h (.leaf i j) nofun⟩

/-- An inode keeps its sectors through a growth that does not write its index blocks. -/
theorem InodeOk.grows (h : InodeOk o s x n) (hg : Grows W o s o' s')
    (hW : ∀ y, W y → IndexOf s.disk n y → y = 0) :
    InodeOk o' s' x n ∧ ∀ a, ptr s'.disk x n a = ptr s.disk x n a := by
  have hptr : ∀ a, ptr s'.disk x n a = ptr s.disk x n a :=
    ptr_congr fun y hy hnz =>
      hg.disk y (h.indexOf_owner hy hnz).1 fun hw => hnz (hW y hw hy)
  refine ⟨InodeOk.of_place fun a ha hp => ?_, hptr⟩
  rw [hptr] at hp ⊢
  obtain ⟨h1, h2⟩ := h.place ha hp
  exact ⟨hg.used _ h1, (hg.owner _ h1).trans h2⟩

/-- The place of data block `k`. -/
def dataSlot (k : Nat) : Slot :=
  if h : k < 12 then .direct ⟨k, h⟩
  else if h : k < 140 then .single ⟨k - 12, by omega⟩
  else .leaf ⟨(k - 140) / 128 % 128, by omega⟩ ⟨(k - 140) % 128, by omega⟩

/-- If the growth stops below a new index block, that sector held only zeros:
    it is named by the inode, but nothing was written to it. -/
def growClean (old new : Nat) (s : Store) (n : InodeDisk) : Prop :=
  match fillSlots false (slots 12 old (new - old)) s n.direct with
  | (false, _, _) => True
  | (true, s, _) =>
    if new ≤ 12 then True
    else
      match fillIndex (old - 12) (new - max old 12) s n.indirect with
      | (false, s, q) => n.indirect = 0 → q ≠ 0 → ∀ i, words (s.disk q) i = 0
      | (true, s, _) =>
        if new ≤ 140 then True
        else
          match growDouble old new s n.doublyIndirect with
          | (false, s, q) => n.doublyIndirect = 0 → q ≠ 0 → ∀ i, words (s.disk q) i = 0
          | (true, _, _) => True

/-- What a growth from the inode `n` to `n'` does: the places in `K` keep their
    sectors, those in `F` get one. If `C` holds, the inode is well formed
    again, and what is new is fresh, and zero where it is data. -/
structure Grown (K F : Slot → Prop) (C : Prop) (x : Sector) (o : Owner) (s : Store)
    (n : InodeDisk) (o' : Owner) (s' : Store) (n' : InodeDisk) : Prop where
  grows : Grows (IndexOf s.disk n) o s o' s'
  length : n'.length = n.length
  type : n'.type = n.type
  nlink : n'.nlink = n.nlink
  kept : ∀ a, K a → ptr s.disk x n a ≠ 0 → ptr s'.disk x n' a = ptr s.disk x n a
  full : ∀ a, F a → ptr s'.disk x n' a ≠ 0
  inode : C → InodeOk o' s' x n'
  fresh : C → ∀ a, ptr s'.disk x n' a ≠ ptr s.disk x n a → s.used (ptr s'.disk x n' a) = false
  zero : C → ∀ k, ptr s'.disk x n' (dataSlot k) ≠ ptr s.disk x n (dataSlot k) →
    s'.disk (ptr s'.disk x n' (dataSlot k)) = zeroBlock

theorem dataSlot_direct (i : Fin 12) : dataSlot i.val = .direct i := dif_pos i.isLt

theorem dataSlot_ne_self (k : Nat) : dataSlot k ≠ .self := by
  unfold dataSlot
  split
  · exact nofun
  · split <;> exact nofun

theorem dataSlot_ne_index (k : Nat) :
    dataSlot k ≠ .indirect ∧ dataSlot k ≠ .doubly ∧ ∀ i, dataSlot k ≠ .index i := by
  unfold dataSlot
  split
  · exact ⟨nofun, nofun, nofun⟩
  · split <;> exact ⟨nofun, nofun, nofun⟩

/-- The data blocks of an inode are none of its index blocks. -/
theorem InodeOk.data_not_index (h : InodeOk o s x n)
    (hp : ptr s.disk x n (dataSlot k) ≠ 0) : ¬ IndexOf s.disk n (ptr s.disk x n (dataSlot k)) := by
  intro hi
  have hd := (h.place (dataSlot_ne_self k) hp).2
  obtain ⟨h1, h2, h3⟩ := dataSlot_ne_index k
  obtain ⟨-, ho | ho | ⟨i, ho⟩⟩ := h.indexOf_owner hi hp
  · exact h1 (pair_inj (hd.symm.trans ho)).2
  · exact h2 (pair_inj (hd.symm.trans ho)).2
  · exact h3 i (pair_inj (hd.symm.trans ho)).2

section Stages

variable {K K1 F F1 F2 : Slot → Prop} {C C1 C2 : Prop} {n1 n2 : InodeDisk}

theorem Grown.mono {n' : InodeDisk} (h : Grown K1 F1 C1 x o s n o' s' n')
    (hK : ∀ a, K a → K1 a) (hF : ∀ a, F a → F1 a) (hC : C → C1) :
    Grown K F C x o s n o' s' n' :=
  { h with
    kept := fun a ha => h.kept a (hK a ha)
    full := fun a ha => h.full a (hF a ha)
    inode := fun hc => h.inode (hC hc)
    fresh := fun hc => h.fresh (hC hc)
    zero := fun hc => h.zero (hC hc) }

/-- What stood at an index place before the second growth and was in use before
    the first one stood there before the first one. -/
theorem Grown.indexOf {s1 : Store} {o1 : Owner} (h : Grown K F C x o s n o1 s1 n1) (hC : C)
    {y : Sector} (hu : s.used y) (hy : IndexOf s1.disk n1 y) : IndexOf s.disk n y := by
  have hback : ∀ a, y = ptr s1.disk x n1 a → y = ptr s.disk x n a := by
    intro a ha
    by_contra hne
    have hf := h.fresh hC a (ha ▸ hne)
    rw [← ha, hu] at hf
    exact nomatch hf
  rcases hy with hy | hy | ⟨i, hy⟩
  · exact .inl (hback .indirect hy)
  · exact .inr (.inl (hback .doubly hy))
  · exact .inr (.inr ⟨i, hback (.index i) hy⟩)

/-- **TWO GROWTHS** of an inode, the first one complete, are one. -/
theorem Grown.trans {s1 s2 : Store} {o1 o2 : Owner} (hm : MapOk s)
    (h1 : Grown K F1 C1 x o s n o1 s1 n1)
    (h2 : Grown (fun _ => True) F2 C2 x o1 s1 n1 o2 s2 n2) (hC : C1) :
    Grown K (fun a => F1 a ∨ F2 a) C2 x o s n o2 s2 n2 where
  grows := h1.grows.trans h2.grows (fun _ _ h => h) fun _ hu hy => h1.indexOf hC hu hy
  length := h2.length.trans h1.length
  type := h2.type.trans h1.type
  nlink := h2.nlink.trans h1.nlink
  kept a ha hp := by
    have e := h1.kept a ha hp
    rw [← e] at hp
    exact (h2.kept a trivial hp).trans e
  full a ha := by
    rcases ha with h | h
    · have hp := h1.full a h
      rw [h2.kept a trivial hp]
      exact hp
    · exact h2.full a h
  inode := h2.inode
  fresh hc a hne := by
    by_cases e : ptr s2.disk x n2 a = ptr s1.disk x n1 a
    · rw [e] at hne ⊢
      exact h1.fresh hC a hne
    · exact h1.grows.unused (h2.fresh hc a e)
  zero hc k hne := by
    by_cases e : ptr s2.disk x n2 (dataSlot k) = ptr s1.disk x n1 (dataSlot k)
    · rw [e] at hne ⊢
      have hnz : ptr s1.disk x n1 (dataSlot k) ≠ 0 := hm.ne_zero (h1.fresh hC _ hne)
      -- the second growth writes index blocks only
      rw [h2.grows.disk _ ((h1.inode hC).place (dataSlot_ne_self k) hnz).1
        ((h1.inode hC).data_not_index hnz)]
      exact h1.zero hC k hne
    · exact h2.zero hc k e

/-! ## The three stages -/

/-- An index block that could not be filled reads as before; a new one reads as
    empty if its sector held zeros. -/
theorem ptrsAt_unfilled {d d' : Disk} {p q : Nat} (hsame : p ≠ 0 → q = p)
    (hfailed : q ≠ 0 → d' q = d q)
    (hc : p ≠ 0 ∨ (p = 0 → q ≠ 0 → ∀ i, words (d' q) i = 0)) : ptrsAt d' q = ptrsAt d p := by
  by_cases hp : p = 0
  · rw [hp, ptrsAt_zero]
    by_cases hq : q = 0
    · rw [hq, ptrsAt_zero]
    · rw [ptrsAt_of_ne _ hq]
      exact funext (hc.resolve_left (not_not.mpr hp) hp hq)
  · rw [hsame hp] at hfailed ⊢
    exact ptrsAt_congr hfailed

/-- A place that got the sector `p`: it is the inode's now, it was free, and it is
    zero where it is data. -/
structure NewPlace (x : Sector) (s : Store) (o' : Owner) (s' : Store) (a : Slot) (p : Nat) :
    Prop where
  place : p ≠ 0 → s'.used p ∧ o' p = some (x, a)
  fresh : s.used p = false
  zero : ∀ k, dataSlot k = a → s'.disk p = zeroBlock

/-- A stage is known by what it keeps, what it fills and the places it gives another sector. -/
theorem Grown.of_new {n' : InodeDisk} (h : InodeOk o s x n) (hg : Grows W o s o' s')
    (hW : ∀ y, W y → IndexOf s.disk n y)
    (hrest : n'.length = n.length ∧ n'.type = n.type ∧ n'.nlink = n.nlink)
    (hkept : ∀ a, K a → ptr s.disk x n a ≠ 0 → ptr s'.disk x n' a = ptr s.disk x n a)
    (hfull : ∀ a, F a → ptr s'.disk x n' a ≠ 0)
    (hnew : C → ∀ a, ptr s'.disk x n' a ≠ ptr s.disk x n a →
      NewPlace x s o' s' a (ptr s'.disk x n' a)) : Grown K F C x o s n o' s' n' := by
  refine ⟨hg.trans (Grows.refl (fun _ => False) ..) (fun _ _ => hW _) (fun _ _ hw => hw.elim),
    hrest.1, hrest.2.1, hrest.2.2, hkept, hfull, fun hc => .of_place fun a ha hp => ?_,
    fun hc a hne => (hnew hc a hne).fresh, fun hc k hne => (hnew hc _ hne).zero k rfl⟩
  by_cases he : ptr s'.disk x n' a = ptr s.disk x n a
  · rw [he] at hp ⊢
    obtain ⟨h1, h2⟩ := h.place ha hp
    exact ⟨hg.used _ h1, (hg.owner _ h1).trans h2⟩
  · exact (hnew hc a he).place hp

/-- The direct pointers below `old` are kept, and every other place is. -/
def keepsFrom (old : Nat) (a : Slot) : Prop := ∀ i, a = .direct i → i.val < old

theorem grown_direct (old cnt : Nat) (hm : MapOk s) (h : InodeOk o s x n)
    {d : Fin 12 → Nat} (hr : fillSlots false (slots 12 old cnt) s n.direct = (ok, s', d)) :
    ∃ o', Grown (keepsFrom old)
      (fun a => ok = true ∧ ∃ i : Fin 12, a = .direct i ∧ old ≤ i.val ∧ i.val < old + cnt)
      True x o s n o' s' { n with direct := d } := by
  obtain ⟨o', F⟩ := fillSlots_spec false (slots 12 old cnt) o s n.direct (slots_nodup ..) hm h.direct
  rw [hr] at F
  -- no index block is written
  have hptr : ∀ a, ptr s'.disk x n a = ptr s.disk x n a :=
    (h.grows F.grows fun _ hw => hw.elim).2
  have hother : ∀ a, (∀ i, a ≠ .direct i) →
      ptr s'.disk x { n with direct := d } a = ptr s.disk x n a := by
    intro a ha
    rw [← hptr a]
    cases a with
    | direct i => exact absurd rfl (ha i)
    | _ => rfl
  refine ⟨o', .of_new h F.grows (fun _ hw => hw.elim) ⟨rfl, rfl, rfl⟩ ?_ ?_ ?_⟩
  · intro a ha _
    by_cases hd : ∃ i, a = .direct i
    · obtain ⟨i, rfl⟩ := hd
      refine F.other i fun hi => ?_
      have h1 := ha i rfl
      have h2 := (mem_slots.mp hi).1
      omega
    · exact hother a fun i e => hd ⟨i, e⟩
  · rintro a ⟨hok, i, rfl, hi⟩
    exact F.full hok i (mem_slots.mpr hi)
  · intro _ a hne
    cases a with
    | direct i => exact ⟨F.arr i, (F.zero i hne).2, fun _ _ => (F.zero i hne).1⟩
    | _ => exact (hne (hother _ nofun)).elim

theorem grown_indirect (start cnt : Nat) (hm : MapOk s) (h : InodeOk o s x n) {q : Nat}
    (hr : fillIndex start cnt s n.indirect = (ok, s', q)) :
    ∃ o', Grown (fun _ => True)
      (fun a => ok = true ∧ ∃ i : Fin 128, a = .single i ∧ start ≤ i.val ∧ i.val < start + cnt)
      (ok = true ∨ (n.indirect = 0 → q ≠ 0 → ∀ i, words (s'.disk q) i = 0)) x o s n o' s' { n with indirect := q } := by
  obtain ⟨o', F⟩ := fillIndex_spec (fun i => (nofun : Slot.single i ≠ .indirect))
    start cnt hm h.indirect
  rw [hr] at F
  -- of the index blocks only the first one is written
  have hsame : ∀ a, a ≠ .self → a ≠ .indirect → ptr s.disk x n a ≠ 0 →
      s'.disk (ptr s.disk x n a) = s.disk (ptr s.disk x n a) := fun a ha hi hnz =>
    F.grows.disk _ (h.place ha hnz).1 fun e => hi (h.slot_inj ha nofun hnz e)
  have hdbl : ptrsAt s'.disk n.doublyIndirect = ptrsAt s.disk n.doublyIndirect :=
    ptrsAt_congr (hsame .doubly nofun nofun)
  have hleaf : ∀ i, ptrsAt s'.disk (ptrsAt s.disk n.doublyIndirect i) =
      ptrsAt s.disk (ptrsAt s.disk n.doublyIndirect i) :=
    fun i => ptrsAt_congr (hsame (.index i) nofun nofun)
  have hother : ∀ a, a ≠ .indirect → (∀ i, a ≠ .single i) →
      ptr s'.disk x { n with indirect := q } a = ptr s.disk x n a := by
    intro a ha ha'
    cases a with
    | indirect => exact absurd rfl ha
    | single i => exact absurd rfl (ha' i)
    | index i => exact congrFun hdbl i
    | leaf i j => simp only [ptr, hdbl, hleaf]
    | _ => rfl
  refine ⟨o', .of_new h F.grows (fun _ => .inl) ⟨rfl, rfl, rfl⟩ ?_ ?_ ?_⟩
  · intro a _ hp
    cases a with
    | indirect => exact F.same hp
    | single i =>
      cases ok with
      | false => exact congrFun (ptrsAt_unfilled F.same (F.failed rfl) (.inl (ne_zero_of_ptrsAt hp))) i
      | true => exact F.kept rfl i hp
    | _ => exact hother _ nofun nofun
  · rintro a ⟨hok, i, rfl, hi⟩
    exact F.full hok i (mem_slots.mpr hi)
  · intro hc a hne
    cases a with
    | indirect =>
      have hnz : n.indirect = 0 := not_not.mp fun hnz => hne (F.same hnz)
      exact ⟨F.place, F.fresh hnz fun hq => hne (Eq.trans hq hnz.symm),
        fun k e => absurd e (dataSlot_ne_index k).1⟩
    | single i =>
      cases ok with
      | true => exact ⟨(F.done rfl).2 i, (F.zero rfl i hne).2, fun _ _ => (F.zero rfl i hne).1⟩
      | false =>
        exact absurd (congrFun (ptrsAt_unfilled F.same (F.failed rfl)
          (.inr (hc.resolve_left nofun))) i) hne
    | _ => exact (hne (hother _ nofun nofun)).elim

theorem leaf_div_lt {t : Nat} (ht : t < 16384) : t / 128 < 128 := by
  omega

theorem leaf_mod_lt (t : Nat) : t % 128 < 128 := by
  omega

theorem grown_doubly (old new : Nat) (hm : MapOk s) (h : InodeOk o s x n) {q : Nat}
    (hr : growDouble old new s n.doublyIndirect = (ok, s', q)) :
    ∃ o', Grown (fun _ => True)
      (fun a => ok = true ∧ ∃ t : Nat, ∃ ht : t < 16384, a = .leaf ⟨t / 128, leaf_div_lt ht⟩
        ⟨t % 128, leaf_mod_lt t⟩ ∧ old - 140 ≤ t ∧ t < new - 140)
      (ok = true ∨ (n.doublyIndirect = 0 → q ≠ 0 → ∀ i, words (s'.disk q) i = 0)) x o s n o' s' { n with doublyIndirect := q } := by
  obtain ⟨o', F⟩ := growDouble_spec old new hm h.doubly h.leaves
  rw [hr] at F
  -- the index block of the first level is not written
  have hind : n.indirect ≠ 0 → s'.disk n.indirect = s.disk n.indirect := by
    intro hnz
    have hinj := fun b hb => h.slot_inj (a := .indirect) (b := b) nofun hb hnz
    refine F.grows.disk _ (h.indirect.1 hnz).1 ?_
    rintro (e | ⟨i, e⟩)
    · exact nomatch hinj .doubly nofun e
    · exact nomatch hinj (.index i) nofun e
  have hother : ∀ a, a ≠ .doubly → (∀ i, a ≠ .index i) → (∀ i j, a ≠ .leaf i j) →
      ptr s'.disk x { n with doublyIndirect := q } a = ptr s.disk x n a := by
    intro a ha ha' ha''
    cases a with
    | doubly => exact absurd rfl ha
    | index i => exact absurd rfl (ha' i)
    | leaf i j => exact absurd rfl (ha'' i j)
    | single i => exact congrFun (ptrsAt_congr hind) i
    | _ => rfl
  have hindex : ok = false → _ := fun hok => ptrsAt_unfilled F.same (F.failed hok)
  refine ⟨o', .of_new h F.grows (fun _ => .inr) ⟨rfl, rfl, rfl⟩ ?_ ?_ ?_⟩
  · intro a _ hp
    have hidx : ∀ i, ptrsAt s.disk n.doublyIndirect i ≠ 0 →
        ptrsAt s'.disk q i = ptrsAt s.disk n.doublyIndirect i := by
      intro i hi
      cases ok with
      | false => exact congrFun (hindex rfl (.inl (ne_zero_of_ptrsAt hi))) i
      | true => exact F.index rfl i hi
    cases a with
    | doubly => exact F.same hp
    | index i => exact hidx i hp
    | leaf i j =>
      show ptrsAt s'.disk (ptrsAt s'.disk q i) j = _
      rw [hidx i (ne_zero_of_ptrsAt hp)]
      exact F.kept i j hp
    | _ => exact hother _ nofun nofun nofun
  · rintro a ⟨hok, t, ht, rfl, h1, h2⟩
    exact F.full hok t h1 h2 ht
  · intro hc a hne
    cases a with
    | doubly =>
      have hnz : n.doublyIndirect = 0 := not_not.mp fun hnz => hne (F.same hnz)
      exact ⟨F.place, F.fresh hnz fun hq => hne (Eq.trans hq hnz.symm),
        fun k e => absurd e (dataSlot_ne_index k).2.1⟩
    | index i =>
      cases ok with
      | true =>
        exact ⟨(F.done rfl).2 i, F.newIndex rfl i hne, fun k e => absurd e ((dataSlot_ne_index k).2.2 i)⟩
      | false => exact absurd (congrFun (hindex rfl (.inr (hc.resolve_left nofun))) i) hne
    | leaf i j =>
      cases ok with
      | true => exact ⟨F.leaf rfl i j, (F.zero rfl i j hne).2, fun _ _ => (F.zero rfl i j hne).1⟩
      | false =>
        simp only [ptr, hindex rfl (.inr (hc.resolve_left nofun))] at hne ⊢
        exact ⟨F.before i j, (F.spare i j hne).2, fun _ _ => (F.spare i j hne).1⟩
    | _ => exact (hne (hother _ nofun nofun nofun)).elim

/-! ## All stages -/

/-- Which data blocks each stage fills. -/
theorem dataSlot_cases (hk : k < 16524) : (∃ i : Fin 12, i.val = k ∧ dataSlot k = .direct i) ∨
    (∃ i : Fin 128, i.val + 12 = k ∧ dataSlot k = .single i) ∨
    ∃ t, ∃ ht : t < 16384, t + 140 = k ∧
      dataSlot k = .leaf ⟨t / 128, by omega⟩ ⟨t % 128, by omega⟩ := by
  unfold dataSlot
  by_cases h1 : k < 12
  · exact .inl ⟨⟨k, h1⟩, rfl, dif_pos h1⟩
  rw [dif_neg h1]
  by_cases h2 : k < 140
  · refine .inr (.inl ⟨⟨k - 12, by omega⟩, ?_, dif_pos h2⟩)
    show k - 12 + 12 = k
    omega
  · rw [dif_neg h2]
    refine .inr (.inr ⟨k - 140, by omega, by omega, ?_⟩)
    have hmod : (k - 140) / 128 % 128 = (k - 140) / 128 := Nat.mod_eq_of_lt (by omega)
    simp only [hmod]

/-- The data block a place is for. -/
def blockOf : Slot → Nat
  | .direct i => i.val
  | .single i => i.val + 12
  | .leaf i j => 128 * i.val + j.val + 140
  | _ => 0

theorem blockOf_dataSlot (hk : k < 16524) : blockOf (dataSlot k) = k := by
  rcases dataSlot_cases hk with ⟨i, hi, e⟩ | ⟨i, hi, e⟩ | ⟨t, ht, hi, e⟩
  · rw [e]
    exact hi
  · rw [e]
    exact hi
  · rw [e]
    show 128 * (t / 128) + t % 128 + 140 = k
    omega

theorem eq_of_dataSlot_direct {i : Fin 12} (hk : k < 16524)
    (h : dataSlot k = .direct i) : k = i.val :=
  (blockOf_dataSlot hk).symm.trans (congrArg blockOf h)

theorem dataSlot_inj {k' : Nat} (hk : k < 16524) (hk' : k' < 16524)
    (h : dataSlot k = dataSlot k') : k = k' := by
  rw [← blockOf_dataSlot hk, h, blockOf_dataSlot hk']

theorem keepsFrom_dataSlot {old : Nat} (hk : k < old) : keepsFrom old (dataSlot k) := by
  intro i e
  unfold dataSlot at e
  split at e
  · rw [← Slot.direct.inj e]
    exact hk
  · split at e
    · exact nomatch e
    · exact nomatch e

/-- **GROWING** an inode from `old` to `new` data blocks. -/
theorem growBlocks_spec (old new : Nat) (hm : MapOk s) (h : InodeOk o s x n) :
    ∃ o', Grown (keepsFrom old)
      (fun a => (growBlocks old new s n).1 = true ∧
        ∃ k, a = dataSlot k ∧ old ≤ k ∧ k < new ∧ k < 16524)
      ((growBlocks old new s n).1 = true ∨ growClean old new s n) x o s n o'
      (growBlocks old new s n).2.1 (growBlocks old new s n).2.2 := by
  unfold growBlocks growClean
  cases hd : fillSlots false (slots 12 old (new - old)) s n.direct with
  | mk ok r =>
  obtain ⟨s1, d⟩ := r
  obtain ⟨o1, G1⟩ := grown_direct old (new - old) hm h hd
  cases ok with
  | false =>
    exact ⟨o1, G1.mono (fun _ ha => ha) (fun _ ha => absurd ha.1 Bool.false_ne_true) fun _ => trivial⟩
  | true =>
    simp only
    by_cases h12 : new ≤ 12
    · rw [if_pos h12, if_pos h12]
      refine ⟨o1, G1.mono (fun _ ha => ha) ?_ fun _ => trivial⟩
      rintro a ⟨-, k, rfl, hk⟩
      rcases dataSlot_cases hk.2.2 with ⟨i, hi, e⟩ | ⟨i, hi, e⟩ | ⟨t, ht, hi, e⟩
      · exact ⟨rfl, i, e, by omega, by omega⟩
      · omega
      · omega
    rw [if_neg h12, if_neg h12]
    cases hi : fillIndex (old - 12) (new - max old 12) s1 n.indirect with
    | mk ok r =>
    obtain ⟨s2, q⟩ := r
    obtain ⟨o2, G2⟩ := grown_indirect (old - 12) (new - max old 12) (G1.grows.mapOk hm)
      (G1.inode trivial) hi
    have G12 := G1.trans hm G2 trivial
    cases ok with
    | false =>
      exact ⟨o2, G12.mono (fun _ ha => ha) (fun _ ha => absurd ha.1 Bool.false_ne_true) fun hc => hc⟩
    | true =>
      simp only
      by_cases h140 : new ≤ 140
      · rw [if_pos h140, if_pos h140]
        refine ⟨o2, G12.mono (fun _ ha => ha) ?_ fun _ => .inl rfl⟩
        rintro a ⟨-, k, rfl, hk⟩
        rcases dataSlot_cases hk.2.2 with ⟨i, hi, e⟩ | ⟨i, hi, e⟩ | ⟨t, ht, hi, e⟩
        · exact .inl ⟨rfl, i, e, by omega, by omega⟩
        · exact .inr ⟨rfl, i, e, by omega, by omega⟩
        · omega
      rw [if_neg h140, if_neg h140]
      cases hdbl : growDouble old new s2 n.doublyIndirect with
      | mk ok r =>
      obtain ⟨o3, G3⟩ := grown_doubly old new (G12.grows.mapOk hm) (G2.inode (.inl rfl)) hdbl
      have G := G12.trans hm G3 (.inl rfl)
      refine ⟨o3, G.mono (fun _ ha => ha) ?_ ?_⟩
      · rintro a ⟨hok, k, rfl, hk⟩
        rcases dataSlot_cases hk.2.2 with ⟨i, hi, e⟩ | ⟨i, hi, e⟩ | ⟨t, ht, hi, e⟩
        · exact .inl (.inl ⟨rfl, i, e, by omega, by omega⟩)
        · exact .inl (.inr ⟨rfl, i, e, by omega, by omega⟩)
        · exact .inr ⟨hok, t, ht, e, by omega, by omega⟩
      · intro hc
        cases ok with
        | false => exact hc
        | true => exact .inl rfl

end Stages

end Growth

end MavInode
