import Maverick.BlockProofs

/-! # RAID — striping, mirroring and rotating parity

`raid_read` and `raid_write` spread the logical sectors of the array over its disks. Level 5 keeps
one parity sector in every row; the parity disk moves one disk to the left from row to row, and the
data disk of a sector is found by a loop that counts the disks of the row without it.

The two facts everything rests on: the loop's result has a closed form (`raid5DataDisk_eq`), from
which the placement is seen to be injective and to avoid the parity; and the read-modify-write of a
row changes two of its members by the same XOR (`rowParity_write`), so that the XOR of a row is what
it was. -/

namespace MavRaid

open MavBlock List
open Function (update update_self update_of_ne update_apply)

/-- `enum raid_level`. -/
inductive Level where
  | raid0 | raid1 | raid5
  deriving DecidableEq, Repr

/-- `struct raid`, with the contents and the `block_size` of each disk. -/
structure RaidDevice where
  level : Level
  stripeSize : Nat
  numDisks : Nat
  disks : Nat → Disk
  size : Nat → Nat
  totalSectors : Nat

/-- The smallest of the disk sizes, as `raid_init` finds it. -/
def minDiskSectors (size : Nat → Nat) (numDisks : Nat) : Nat :=
  (List.range' 1 (numDisks - 1)).foldl
    (fun least i => if size i < least then size i else least) (size 0)

/-- `raid_init`, once the disks are found; `total_sectors` has 32 bits. -/
def raidInit (level : Level) (stripeSize numDisks : Nat) (size : Nat → Nat)
    (disks : Nat → Disk) : RaidDevice where
  level := level
  stripeSize := if 0 < stripeSize then stripeSize else 1
  numDisks := numDisks
  disks := disks
  size := size
  totalSectors := match level with
    | .raid0 => numDisks * minDiskSectors size numDisks % 2 ^ 32
    | .raid1 => minDiskSectors size numDisks
    | .raid5 => (numDisks - 1) * minDiskSectors size numDisks % 2 ^ 32

/-! ## Placement -/

def RaidDevice.raid0DiskForSector (r : RaidDevice) (sector : Nat) : Nat :=
  sector / r.stripeSize % r.numDisks

def RaidDevice.raid0PhysicalSector (r : RaidDevice) (sector : Nat) : Nat :=
  sector / r.stripeSize / r.numDisks * r.stripeSize + sector % r.stripeSize

def RaidDevice.raid5ParityDisk (r : RaidDevice) (stripe : Nat) : Nat :=
  r.numDisks - 1 - stripe % r.numDisks

/-- The loop of `raid5_data_disk` from disk `d` on, `left` disks to go and
    `cnt` data disks passed. -/
def dataDiskLoop (parityDisk posInStripe : Nat) : Nat → Nat → Nat → Nat
  | 0, _, _ => 0
  | left + 1, d, cnt =>
    if d = parityDisk then dataDiskLoop parityDisk posInStripe left (d + 1) cnt
    else if cnt = posInStripe then d
    else dataDiskLoop parityDisk posInStripe left (d + 1) (cnt + 1)

def RaidDevice.raid5DataDisk (r : RaidDevice) (sector : Nat) : Nat :=
  dataDiskLoop (r.raid5ParityDisk (sector / (r.numDisks - 1)))
    (sector % (r.numDisks - 1)) r.numDisks 0 0

def RaidDevice.raid5PhysicalSector (r : RaidDevice) (sector : Nat) : Nat :=
  sector / (r.numDisks - 1)

/-! ## Reading and writing -/

/-- `block_read` of a member disk; `check_sector` stops the kernel past its end. -/
def RaidDevice.blockRead (r : RaidDevice) (disk : Nat) (phys : Nat) : Option Block :=
  if phys < r.size disk then some (r.disks disk phys) else none

/-- The member disks with one sector replaced. -/
def RaidDevice.put (r : RaidDevice) (disk : Nat) (phys : Nat) (b : Block) : RaidDevice :=
  { r with disks := fun e => if e = disk then blockWrite (r.disks e) phys b else r.disks e }

/-- `block_write` of a member disk. -/
def RaidDevice.blockWrite (r : RaidDevice) (disk : Nat) (phys : Nat) (b : Block) :
    Option RaidDevice :=
  if phys < r.size disk then some (r.put disk phys b) else none

/-- Byte by byte XOR of two sectors. -/
def xorBlock (a b : Block) : Block := fun j => a j ^^^ b j

def RaidDevice.raidRead (r : RaidDevice) (sector : Nat) : Option Block :=
  if sector < r.totalSectors then
    match r.level with
    | .raid0 => r.blockRead (r.raid0DiskForSector sector) (r.raid0PhysicalSector sector)
    | .raid1 => r.blockRead 0 sector
    | .raid5 => r.blockRead (r.raid5DataDisk sector) (r.raid5PhysicalSector sector)
  else none

/-- The read-modify-write of level 5. -/
def RaidDevice.raid5Write (r : RaidDevice) (sector : Nat) (buffer : Block) :
    Option RaidDevice := do
  let dataDisk := r.raid5DataDisk sector
  let parityDisk := r.raid5ParityDisk (sector / (r.numDisks - 1))
  let phys := r.raid5PhysicalSector sector
  let oldData ← r.blockRead dataDisk phys
  let oldParity ← r.blockRead parityDisk phys
  let r' ← r.blockWrite dataDisk phys buffer
  r'.blockWrite parityDisk phys (xorBlock (xorBlock oldParity oldData) buffer)

/-- `raid_write`; `none` is the stop at a failed assertion. -/
def RaidDevice.raidWrite (r : RaidDevice) (sector : Nat) (buffer : Block) :
    Option RaidDevice :=
  if sector < r.totalSectors then
    match r.level with
    | .raid0 =>
      r.blockWrite (r.raid0DiskForSector sector) (r.raid0PhysicalSector sector) buffer
    | .raid1 => (List.range r.numDisks).foldlM (fun r i => r.blockWrite i sector buffer) r
    | .raid5 => r.raid5Write sector buffer
  else none

/-- A sequence of `raid_write` calls. -/
def RaidDevice.raidWrites (r : RaidDevice) (ws : List (Nat × Block)) : Option RaidDevice :=
  ws.foldlM (fun r w => r.raidWrite w.1 w.2) r

def raid5ComputeParity (data : List Block) : Block :=
  data.foldl xorBlock (fun _ => 0)

/-- The XOR over all disks of one row. -/
def RaidDevice.rowParity (r : RaidDevice) (row : Nat) : Block :=
  raid5ComputeParity ((List.range r.numDisks).map fun d => r.disks d row)

/-- What reads are to return after the writes `ws`: the last data written, or
    what was found before. -/
def lastWritten (found : Nat → Option Block) (ws : List (Nat × Block)) :
    Nat → Option Block :=
  ws.foldl (fun c w => Function.update c w.1 (some w.2)) found

/-! ## All writes -/

/-- If every write keeps the array as set up and changes what is read at its own
    sector only, reads find the last data written. -/
theorem raidWrites_reads {I : RaidDevice → Prop} {total : Nat}
    (hwrite : ∀ r s b, I r → s < total → ∃ r', r.raidWrite s b = some r' ∧ I r' ∧
      ∀ t < total, r'.raidRead t = update r.raidRead s (some b) t)
    (ws : List (Nat × Block)) {r : RaidDevice} (hr : I r) (hws : ∀ w ∈ ws, w.1 < total) :
    ∃ r', r.raidWrites ws = some r' ∧ I r' ∧
      ∀ s < total, r'.raidRead s = lastWritten r.raidRead ws s := by
  induction ws using List.reverseRecOn with
  | nil => exact ⟨r, rfl, hr, fun _ _ => rfl⟩
  | append_singleton ws w ih =>
    obtain ⟨hws, hw⟩ := forall_mem_append.mp hws
    obtain ⟨q, hq, hI, hread⟩ := ih hws
    obtain ⟨r', hr', hI', hupd⟩ := hwrite q w.1 w.2 hI (hw w mem_cons_self)
    refine ⟨r', ?_, hI', fun s hs => ?_⟩
    · unfold RaidDevice.raidWrites at hq ⊢
      rw [foldlM_append, hq]
      simp [hr']
    · have hlast : lastWritten r.raidRead (ws ++ [w])
          = update (lastWritten r.raidRead ws) w.1 (some w.2) :=
        foldl_append ..
      rw [hupd s hs, hlast, update_apply, update_apply, hread s hs]

/-! ## The XOR of a row -/

theorem xorBlock_comm (a b : Block) : xorBlock a b = xorBlock b a :=
  funext fun j => UInt8.xor_comm (a j) (b j)

theorem xorBlock_assoc (a b c : Block) :
    xorBlock (xorBlock a b) c = xorBlock a (xorBlock b c) :=
  funext fun j => UInt8.xor_assoc (a j) (b j) (c j)

@[simp] theorem xorBlock_self (a : Block) : xorBlock a a = fun _ => 0 :=
  funext fun _ => UInt8.xor_self

@[simp] theorem xorBlock_zero (a : Block) : xorBlock a (fun _ => 0) = a :=
  funext fun _ => UInt8.xor_zero

@[simp] theorem zero_xorBlock (a : Block) : xorBlock (fun _ => 0) a = a :=
  funext fun _ => UInt8.zero_xor

@[simp] theorem xorBlock_cancel (a b : Block) : xorBlock a (xorBlock a b) = b := by
  rw [← xorBlock_assoc, xorBlock_self, zero_xorBlock]

/-- Sectors with XOR zero are equal. -/
theorem eq_of_xorBlock {a b : Block} (h : xorBlock a b = fun _ => 0) : a = b := by
  have hb : xorBlock (xorBlock a b) b = a := by
    rw [xorBlock_assoc, xorBlock_self, xorBlock_zero]
  rw [h, zero_xorBlock] at hb
  exact hb.symm

theorem parity_perm {l l' : List Block} (h : l.Perm l') :
    raid5ComputeParity l = raid5ComputeParity l' := by
  have : RightCommutative xorBlock := ⟨fun a b c => by
    rw [xorBlock_assoc, xorBlock_comm b, ← xorBlock_assoc]⟩
  exact h.foldl_eq (fun _ => 0)

theorem foldl_xorBlock (l : List Block) : ∀ a,
    l.foldl xorBlock a = xorBlock a (raid5ComputeParity l) := by
  induction l with
  | nil => intro a; exact (xorBlock_zero a).symm
  | cons b l ih =>
    intro a
    show l.foldl xorBlock (xorBlock a b)
      = xorBlock a (l.foldl xorBlock (xorBlock (fun _ => 0) b))
    rw [ih, ih, zero_xorBlock, xorBlock_assoc]

theorem parity_cons (b : Block) (l : List Block) :
    raid5ComputeParity (b :: l) = xorBlock b (raid5ComputeParity l) := by
  show l.foldl xorBlock (xorBlock (fun _ => 0) b) = _
  rw [foldl_xorBlock, zero_xorBlock]

/-- One member taken out of a row. -/
theorem parity_split (f : Nat → Block) {n d : Nat} (hd : d < n) :
    raid5ComputeParity ((List.range n).map f)
      = xorBlock (f d) (raid5ComputeParity (((List.range n).filter (· ≠ d)).map f)) := by
  have hperm : (List.range n).Perm (d :: (List.range n).filter (· ≠ d)) := by
    have h := perm_cons_erase (mem_range.mpr hd)
    rw [nodup_range.erase_eq_filter] at h
    rw [filter_congr fun e _ => show (e != d) = decide (e ≠ d) by
      cases h : e == d <;> simp_all [bne]] at h
    exact h
  rw [parity_perm (hperm.map f), map_cons, parity_cons]

/-- One member of a row replaced: the XOR changes by the old and the new one. -/
theorem parity_update (f : Nat → Block) {n d : Nat} (hd : d < n) (v : Block) :
    raid5ComputeParity ((List.range n).map (update f d v))
      = xorBlock (xorBlock v (f d)) (raid5ComputeParity ((List.range n).map f)) := by
  have hrest : ((List.range n).filter (· ≠ d)).map (update f d v)
      = ((List.range n).filter (· ≠ d)).map f := by
    refine map_congr_left fun e he => ?_
    have hne : e ≠ d := of_decide_eq_true (mem_filter.mp he).2
    exact update_of_ne hne v f
  rw [parity_split _ hd, parity_split f hd, hrest, update_self, xorBlock_assoc, xorBlock_cancel]

/-! ## Where level 5 puts a sector -/

/-- The loop returns the position, moved past the parity disk. -/
theorem dataDiskLoop_eq {n parityDisk pos : Nat} (hp : parityDisk < n) (hpos : pos < n - 1) :
    ∀ left d cnt, left + d = n → cnt = (if d ≤ parityDisk then d else d - 1) → cnt ≤ pos →
      dataDiskLoop parityDisk pos left d cnt = if pos < parityDisk then pos else pos + 1 := by
  intro left
  -- the counter runs with `d` up to the parity disk and one behind it after
  induction left with
  | zero =>
    intro d cnt hd hcnt hle
    split at hcnt <;> omega
  | succ left ih =>
    intro d cnt hd hcnt hle
    rw [dataDiskLoop]
    split
    · refine ih _ _ (by omega) ?_ hle
      rw [hcnt, if_pos (by omega), if_neg (by omega)]
      omega
    · split
      · split at hcnt <;> split <;> omega
      · refine ih _ _ (by omega) ?_ (by omega)
        split at hcnt <;> split <;> omega

/-- A level 5 array of `n` disks with `m` sectors each. -/
structure Raid5 (n m : Nat) (r : RaidDevice) : Prop where
  level : r.level = .raid5
  disks : r.numDisks = n
  three : 3 ≤ n
  size : ∀ d, r.size d = m
  total : r.totalSectors = (n - 1) * m

section Raid5
variable {n m : Nat} {r : RaidDevice}

section

variable (h : Raid5 n m r)

include h

theorem Raid5.parity_lt (row : Nat) : r.raid5ParityDisk row < n := by
  have hn := h.three
  show r.numDisks - 1 - row % r.numDisks < n
  rw [h.disks]
  omega

theorem raid5DataDisk_eq (s : Nat) :
    r.raid5DataDisk s = if s % (n - 1) < r.raid5ParityDisk (s / (n - 1))
      then s % (n - 1) else s % (n - 1) + 1 := by
  have hn := h.three
  have hpos : s % (n - 1) < n - 1 := Nat.mod_lt _ (by omega)
  unfold RaidDevice.raid5DataDisk
  rw [h.disks]
  exact dataDiskLoop_eq (h.parity_lt _) hpos n 0 0 (by omega) rfl (Nat.zero_le _)

theorem Raid5.phys_eq (s : Nat) : r.raid5PhysicalSector s = s / (n - 1) := by
  unfold RaidDevice.raid5PhysicalSector
  rw [h.disks]

theorem Raid5.data_lt (s : Nat) : r.raid5DataDisk s < n := by
  have hn := h.three
  have hpos : s % (n - 1) < n - 1 := Nat.mod_lt _ (by omega)
  rw [raid5DataDisk_eq h]
  split <;> omega

/-- A data sector is never the parity of its row. -/
theorem Raid5.data_ne_parity (s : Nat) :
    r.raid5DataDisk s ≠ r.raid5ParityDisk (r.raid5PhysicalSector s) := by
  rw [raid5DataDisk_eq h, h.phys_eq]
  split <;> omega

theorem Raid5.phys_lt {s : Nat} (hs : s < (n - 1) * m) : r.raid5PhysicalSector s < m := by
  rw [h.phys_eq]
  exact Nat.div_lt_of_lt_mul hs

/-- Different sectors lie at different places. -/
theorem Raid5.place_injective {s t : Nat}
    (hd : r.raid5DataDisk s = r.raid5DataDisk t)
    (hp : r.raid5PhysicalSector s = r.raid5PhysicalSector t) : s = t := by
  rw [h.phys_eq, h.phys_eq] at hp
  rw [raid5DataDisk_eq h, raid5DataDisk_eq h, hp] at hd
  have hmod : s % (n - 1) = t % (n - 1) := by
    split at hd <;> split at hd <;> omega
  rw [← Nat.div_add_mod s (n - 1), ← Nat.div_add_mod t (n - 1), hp, hmod]

/-! ## One write -/

/-- What a level 5 write leaves. -/
def RaidDevice.rewritten (r : RaidDevice) (s : Nat) (b : Block) : RaidDevice :=
  let phys := r.raid5PhysicalSector s
  let parity := r.raid5ParityDisk phys
  (r.put (r.raid5DataDisk s) phys b).put parity phys
    (xorBlock (xorBlock (r.disks parity phys) (r.disks (r.raid5DataDisk s) phys)) b)

theorem Raid5.put (d : Nat) (phys : Nat) (b : Block) : Raid5 n m (r.put d phys b) :=
  { h with }

theorem Raid5.raidWrite_eq {s : Nat} (hs : s < (n - 1) * m) (b : Block) :
    r.raidWrite s b = some (r.rewritten s b) := by
  have hrow : ∀ d, r.raid5PhysicalSector s < r.size d := by
    intro d
    rw [h.size]
    exact h.phys_lt hs
  have hread : ∀ d, r.blockRead d (r.raid5PhysicalSector s)
      = some (r.disks d (r.raid5PhysicalSector s)) := fun d => if_pos (hrow d)
  have hput : ∀ (q : RaidDevice) d c, q.size = r.size →
      q.blockWrite d (r.raid5PhysicalSector s) c
        = some (q.put d (r.raid5PhysicalSector s) c) := by
    intro q d c hq
    refine if_pos ?_
    rw [hq]
    exact hrow d
  unfold RaidDevice.raidWrite
  rw [if_pos (h.total ▸ hs), h.level]
  unfold RaidDevice.raid5Write
  simp only [hread, hput r _ _ rfl, Option.bind_eq_bind, Option.bind_some]
  exact hput _ _ _ rfl

theorem Raid5.raidRead_eq {s : Nat} (hs : s < (n - 1) * m) :
    r.raidRead s = some (r.disks (r.raid5DataDisk s) (r.raid5PhysicalSector s)) := by
  unfold RaidDevice.raidRead
  rw [if_pos (h.total ▸ hs), h.level]
  refine if_pos ?_
  rw [h.size]
  exact h.phys_lt hs

end

/-- The sectors of the disks after a write. -/
theorem rewritten_disks (r : RaidDevice) (s : Nat) (b : Block) (d : Nat) (row : Nat) :
    (r.rewritten s b).disks d row =
      if row = r.raid5PhysicalSector s then
        update
          (update (fun e => r.disks e row) (r.raid5DataDisk s) b)
          (r.raid5ParityDisk row)
          (xorBlock (xorBlock (r.disks (r.raid5ParityDisk row) row)
            (r.disks (r.raid5DataDisk s) row)) b) d
      else r.disks d row := by
  by_cases hrow : row = r.raid5PhysicalSector s
  · rw [if_pos hrow, hrow]
    by_cases hp : d = r.raid5ParityDisk (r.raid5PhysicalSector s)
    · rw [hp, update_self]
      simp [RaidDevice.rewritten, RaidDevice.put]
    · by_cases hd : d = r.raid5DataDisk s
      · simp [RaidDevice.rewritten, RaidDevice.put, hd, hd ▸ hp]
      · simp [RaidDevice.rewritten, RaidDevice.put, hp, hd]
  · simp only [RaidDevice.rewritten, RaidDevice.put]
    split <;> split <;> simp [blockWrite_other hrow]

/-- **PARITY**: a write leaves the XOR of every row as it is. -/
theorem Raid5.rowParity_write (h : Raid5 n m r) (s : Nat) (b : Block) (row : Nat) :
    (r.rewritten s b).rowParity row = r.rowParity row := by
  show raid5ComputeParity ((List.range r.numDisks).map fun d => (r.rewritten s b).disks d row) = _
  unfold RaidDevice.rowParity
  rw [h.disks]
  simp only [rewritten_disks]
  by_cases hrow : row = r.raid5PhysicalSector s
  · simp only [if_pos hrow]
    have hne := h.data_ne_parity s
    rw [← hrow] at hne
    rw [parity_update _ (h.parity_lt row), parity_update _ (h.data_lt s), update_of_ne hne.symm]
    -- the new parity carries exactly the change of the data sector
    generalize raid5ComputeParity _ = p
    generalize r.disks (r.raid5ParityDisk row) row = q
    generalize r.disks (r.raid5DataDisk s) row = x
    calc xorBlock (xorBlock (xorBlock (xorBlock q x) b) q) (xorBlock (xorBlock b x) p)
        = xorBlock (xorBlock q (xorBlock q (xorBlock x b))) (xorBlock (xorBlock b x) p) := by
          rw [xorBlock_comm _ q, xorBlock_assoc q x b]
      _ = xorBlock (xorBlock x b) (xorBlock (xorBlock x b) p) := by
          rw [xorBlock_cancel, xorBlock_comm b x]
      _ = p := xorBlock_cancel ..
  · simp only [if_neg hrow]

/-- A write changes what is read at its own sector only. -/
theorem Raid5.raidRead_rewritten (h : Raid5 n m r) {s t : Nat} (b : Block)
    (ht : t < (n - 1) * m) :
    (r.rewritten s b).raidRead t = update r.raidRead s (some b) t := by
  have h' : Raid5 n m (r.rewritten s b) := (h.put _ _ _).put _ _ _
  rw [h'.raidRead_eq ht]
  show some ((r.rewritten s b).disks (r.raid5DataDisk t) (r.raid5PhysicalSector t)) = _
  rw [rewritten_disks]
  have hnp := h.data_ne_parity t
  by_cases hts : t = s
  · rw [hts, if_pos rfl, update_of_ne (hts ▸ hnp), update_self, update_self]
  · rw [update_of_ne hts, h.raidRead_eq ht]
    by_cases hrow : r.raid5PhysicalSector t = r.raid5PhysicalSector s
    · have hd : r.raid5DataDisk t ≠ r.raid5DataDisk s :=
        fun hd => hts (h.place_injective hd hrow)
      rw [if_pos hrow, update_of_ne hnp, update_of_ne hd]
    · rw [if_neg hrow]

/-- After any writes: the array is as it was set up, reads find the last data
    written, and the XOR of each row has not changed. -/
theorem Raid5.raidWrites_spec (ws : List (Nat × Block)) (h : Raid5 n m r)
    (hws : ∀ w ∈ ws, w.1 < (n - 1) * m) :
    ∃ r', r.raidWrites ws = some r' ∧
      (Raid5 n m r' ∧ ∀ row, r'.rowParity row = r.rowParity row) ∧
      ∀ s < (n - 1) * m, r'.raidRead s = lastWritten r.raidRead ws s := by
  refine raidWrites_reads ?_ ws ⟨h, fun _ => rfl⟩ hws
  rintro q s b ⟨hq, hpar⟩ hs
  exact ⟨_, hq.raidWrite_eq hs b,
    ⟨(hq.put _ _ _).put _ _ _, fun row => (hq.rowParity_write s b row).trans (hpar row)⟩,
    fun t ht => hq.raidRead_rewritten b ht⟩

/-- In a row with XOR zero every member is the parity of the others. -/
theorem Raid5.lost_disk (h : Raid5 n m r) {row : Nat}
    (hzero : r.rowParity row = fun _ => 0) {d : Nat} (hd : d < n) :
    raid5ComputeParity (((List.range n).filter (· ≠ d)).map fun e => r.disks e row)
      = r.disks d row := by
  unfold RaidDevice.rowParity at hzero
  rw [h.disks, parity_split (fun e => r.disks e row) hd] at hzero
  exact (eq_of_xorBlock hzero).symm

end Raid5

theorem minDiskSectors_common (m n : Nat) : minDiskSectors (fun _ => m) n = m := by
  unfold minDiskSectors
  generalize List.range' 1 (n - 1) = is
  induction is with
  | nil => rfl
  | cons i is ih => rw [foldl_cons, if_neg (Nat.lt_irrefl m)]; exact ih

theorem raid5_raidInit {n m : Nat} (stripe : Nat) (hn : 3 ≤ n) (hsize : (n - 1) * m < 2 ^ 32)
    (disks : Nat → Disk) : Raid5 n m (raidInit .raid5 stripe n (fun _ => m) disks) := by
  refine ⟨rfl, rfl, hn, fun _ => rfl, ?_⟩
  show (n - 1) * minDiskSectors (fun _ => m) n % 2 ^ 32 = _
  rw [minDiskSectors_common, Nat.mod_eq_of_lt hsize]

/-- **RAID 5**: a level 5 array of three or more equal disks whose rows have XOR
    zero. After any sequence of writes, each sector reads as last written;
    sectors lie at different places, on rows the disks have, and never on a
    parity; every row still has XOR zero, and any one disk is the parity of the
    others. -/
theorem raid5_stores_and_survives {n m : Nat} (hn : 3 ≤ n) (hsize : (n - 1) * m < 2 ^ 32)
    (stripe : Nat) (disks : Nat → Disk)
    (hzero : ∀ row < m,
      (raidInit .raid5 stripe n (fun _ => m) disks).rowParity row = fun _ => 0)
    (ws : List (Nat × Block)) (hws : ∀ w ∈ ws, w.1 < (n - 1) * m) :
    ∃ r', (raidInit .raid5 stripe n (fun _ => m) disks).raidWrites ws = some r' ∧
      (∀ s < (n - 1) * m, ∃ b, r'.raidRead s = some b ∧
        r'.raidRead s =
          lastWritten (raidInit .raid5 stripe n (fun _ => m) disks).raidRead ws s) ∧
      (∀ s t, r'.raid5DataDisk s = r'.raid5DataDisk t →
        r'.raid5PhysicalSector s = r'.raid5PhysicalSector t → s = t) ∧
      (∀ s, r'.raid5DataDisk s < n ∧
        ∀ row, (r'.raid5DataDisk s, r'.raid5PhysicalSector s)
          ≠ (r'.raid5ParityDisk row, row)) ∧
      (∀ s < (n - 1) * m, r'.raid5PhysicalSector s < m) ∧
      (∀ row < m, r'.rowParity row = fun _ => 0) ∧
      (∀ d < n, ∀ row < m, r'.disks d row = raid5ComputeParity
        (((List.range n).filter (· ≠ d)).map fun e => r'.disks e row)) := by
  obtain ⟨r', hrun, ⟨h5, hpar⟩, hread⟩ :=
    (raid5_raidInit stripe hn hsize disks).raidWrites_spec ws hws
  have hrow : ∀ row < m, r'.rowParity row = fun _ => 0 := by
    intro row hlt
    rw [hpar, hzero row hlt]
  refine ⟨r', hrun, fun s hs => ⟨_, h5.raidRead_eq hs, hread s hs⟩,
    fun s t => h5.place_injective, fun s => ⟨h5.data_lt s, ?_⟩, fun s => h5.phys_lt, hrow,
    fun d hd row hlt => (h5.lost_disk (hrow row hlt) hd).symm⟩
  intro row heq
  obtain ⟨hd, hp⟩ := Prod.mk.inj heq
  exact h5.data_ne_parity s (hp ▸ hd)

/-- Three blank disks of two sectors, with the first two rows written. -/
theorem raid5_three_disks : ∃ r',
    (raidInit .raid5 1 3 (fun _ => 2) fun _ _ _ => 0).raidWrites
      [(0, fun _ => 5), (3, fun _ => 9), (0, fun _ => 6)] = some r' ∧
    r'.raidRead 0 = some (fun _ => 6) ∧ r'.raidRead 3 = some (fun _ => 9) ∧
    (r'.raid5DataDisk 0 = r'.raid5DataDisk 3 →
      r'.raid5PhysicalSector 0 ≠ r'.raid5PhysicalSector 3) ∧
    (r'.raid5DataDisk 3, r'.raid5PhysicalSector 3) ≠ (r'.raid5ParityDisk 1, 1) ∧
    r'.raid5PhysicalSector 3 < 2 ∧ (∀ row < 2, r'.rowParity row = fun _ => 0) ∧
    r'.disks 1 0 = raid5ComputeParity
      (((List.range 3).filter (· ≠ 1)).map fun e => r'.disks e 0) := by
  obtain ⟨r', hrun, hread, hplace, hparity, hphys, hrow, hlost⟩ :=
    raid5_stores_and_survives (n := 3) (m := 2) (by decide) (by decide) 1 (fun _ _ _ => 0)
      (fun row _ => funext fun _ => by
        simp [RaidDevice.rowParity, raidInit, raid5ComputeParity, List.range, List.range.loop])
      [(0, fun _ => 5), (3, fun _ => 9), (0, fun _ => 6)] (by simp)
  obtain ⟨-, -, h0⟩ := hread 0 (by decide)
  obtain ⟨-, -, h3⟩ := hread 3 (by decide)
  exact ⟨r', hrun, h0, h3, fun hd hp => absurd (hplace 0 3 hd hp) (by decide), (hparity 3).2 1,
    hphys 3 (by decide), hrow, hlost 1 (by decide) 0 (by decide)⟩

/-! ## Level 0 -/

theorem minDiskSectors_le (size : Nat → Nat) {n d : Nat} (hd : d < n) :
    minDiskSectors size n ≤ size d := by
  have hfold : ∀ (is : List Nat) (least : Nat),
      let m := is.foldl (fun least i => if size i < least then size i else least) least
      m ≤ least ∧ ∀ i ∈ is, m ≤ size i := by
    intro is
    induction is with
    | nil => exact fun _ => ⟨Nat.le_refl _, nofun⟩
    | cons i is ih =>
      intro least
      obtain ⟨hle, hall⟩ := ih (if size i < least then size i else least)
      refine ⟨hle.trans (by split <;> omega), forall_mem_cons.mpr ⟨hle.trans ?_, hall⟩⟩
      split <;> omega
  obtain ⟨h0, hi⟩ := hfold (List.range' 1 (n - 1)) (size 0)
  rcases Nat.eq_zero_or_pos d with rfl | hpos
  · exact h0
  · exact hi d (mem_range'_1.mpr (by omega))

/-- A level 0 array of `n` disks with `m` sectors or more, in stripes of `s`. -/
structure Raid0 (n s m : Nat) (r : RaidDevice) : Prop where
  level : r.level = .raid0
  stripe : r.stripeSize = s
  disks : r.numDisks = n
  pos : 0 < n ∧ 0 < s
  size : ∀ d < n, m ≤ r.size d
  total : r.totalSectors = n * m

/-- What is asked of the placement: different sectors lie at different places,
    all of them below `m`, and reads find the last data written. -/
def RaidDevice.Striped (r : RaidDevice) (m : Nat) : Prop :=
  (∀ a < r.totalSectors, ∀ b < r.totalSectors,
    r.raid0DiskForSector a = r.raid0DiskForSector b →
    r.raid0PhysicalSector a = r.raid0PhysicalSector b → a = b) ∧
  (∀ a < r.totalSectors, r.raid0PhysicalSector a < m) ∧
  ∀ ws : List (Nat × Block), (∀ w ∈ ws, w.1 < r.totalSectors) →
    ∃ r', r.raidWrites ws = some r' ∧
      ∀ a < r.totalSectors, r'.raidRead a = lastWritten r.raidRead ws a

section Raid0
variable {n s m : Nat} {r : RaidDevice} (h : Raid0 n s m r)
include h

theorem Raid0.phys_eq (a : Nat) : r.raid0PhysicalSector a = a / s / n * s + a % s := by
  unfold RaidDevice.raid0PhysicalSector
  rw [h.stripe, h.disks]

theorem Raid0.disk_eq (a : Nat) : r.raid0DiskForSector a = a / s % n := by
  unfold RaidDevice.raid0DiskForSector
  rw [h.stripe, h.disks]

theorem Raid0.place_injective {a b : Nat} (hd : r.raid0DiskForSector a = r.raid0DiskForSector b)
    (hp : r.raid0PhysicalSector a = r.raid0PhysicalSector b) : a = b := by
  rw [h.disk_eq, h.disk_eq] at hd
  rw [h.phys_eq, h.phys_eq, Nat.mul_comm _ s, Nat.mul_comm _ s] at hp
  have hround : a / s / n = b / s / n := by
    have hdiv := congrArg (· / s) hp
    simpa [Nat.mul_add_div h.pos.2, Nat.div_eq_of_lt (Nat.mod_lt _ h.pos.2)] using hdiv
  have hofs : a % s = b % s := by
    have hmod := congrArg (· % s) hp
    simpa [Nat.mul_add_mod] using hmod
  have hstripe : a / s = b / s := by
    rw [← Nat.div_add_mod (a / s) n, ← Nat.div_add_mod (b / s) n, hround, hd]
  rw [← Nat.div_add_mod a s, ← Nat.div_add_mod b s, hstripe, hofs]

theorem Raid0.phys_lt (hdvd : s ∣ m) {a : Nat} (ha : a < n * m) :
    r.raid0PhysicalSector a < m := by
  obtain ⟨q, rfl⟩ := hdvd
  have hrow : a / s / n < q := by
    rw [Nat.div_div_eq_div_mul, Nat.div_lt_iff_lt_mul (Nat.mul_pos h.pos.2 h.pos.1)]
    exact ha.trans_eq (by rw [Nat.mul_left_comm, Nat.mul_comm n, Nat.mul_left_comm])
  calc r.raid0PhysicalSector a = a / s / n * s + a % s := h.phys_eq a
    _ < a / s / n * s + s := Nat.add_lt_add_left (Nat.mod_lt _ h.pos.2) _
    _ = s * (a / s / n + 1) := by rw [Nat.mul_comm, Nat.mul_succ]
    _ ≤ s * q := Nat.mul_le_mul_left _ hrow

theorem Raid0.room (hdvd : s ∣ m) {a : Nat} (ha : a < n * m) :
    r.raid0PhysicalSector a < r.size (r.raid0DiskForSector a) := by
  refine (h.phys_lt hdvd ha).trans_le (h.size _ ?_)
  rw [h.disk_eq]
  exact Nat.mod_lt _ h.pos.1

theorem Raid0.raidRead_eq (hdvd : s ∣ m) {a : Nat} (ha : a < n * m) :
    r.raidRead a = some (r.disks (r.raid0DiskForSector a) (r.raid0PhysicalSector a)) := by
  unfold RaidDevice.raidRead
  rw [if_pos (h.total ▸ ha), h.level]
  exact if_pos (h.room hdvd ha)

theorem Raid0.raidWrite_spec (hdvd : s ∣ m) {a : Nat} (b : Block) (ha : a < n * m) :
    ∃ r', r.raidWrite a b = some r' ∧ Raid0 n s m r' ∧
      ∀ t < n * m, r'.raidRead t = update r.raidRead a (some b) t := by
  have h' : Raid0 n s m (r.put (r.raid0DiskForSector a) (r.raid0PhysicalSector a) b) :=
    { h with }
  refine ⟨_, ?_, h', fun t ht => ?_⟩
  · unfold RaidDevice.raidWrite
    rw [if_pos (h.total ▸ ha), h.level]
    exact if_pos (h.room hdvd ha)
  rw [h'.raidRead_eq hdvd ht]
  show some ((if r.raid0DiskForSector t = r.raid0DiskForSector a then _ else _ : Disk)
    (r.raid0PhysicalSector t)) = _
  by_cases hta : t = a
  · rw [hta, if_pos rfl, update_self, blockWrite_same]
  · rw [update_of_ne hta, h.raidRead_eq hdvd ht]
    split
    · next hd => exact congrArg some (blockWrite_other fun hp => hta (h.place_injective hd hp))
    · rfl

/-- The sector after the last whole round lies past the end when the disks do not
    hold a whole number of stripes. -/
theorem Raid0.phys_past (hn : 2 ≤ n) (hdvd : ¬ s ∣ m) :
    ∃ a < n * m, r.raid0PhysicalSector a = m := by
  have hr : 0 < m % s := Nat.emod_pos_of_not_dvd hdvd
  have hlt := Nat.mod_lt m h.pos.2
  have hm := Nat.div_add_mod m s
  refine ⟨s * (n * (m / s)) + m % s, ?_, ?_⟩
  · calc s * (n * (m / s)) + m % s < s * (n * (m / s)) + n * (m % s) :=
        Nat.add_lt_add_left ((Nat.lt_mul_iff_one_lt_left hr).mpr hn) _
      _ = n * (s * (m / s) + m % s) := by rw [Nat.mul_left_comm, Nat.mul_add]
      _ = n * m := by rw [hm]
  · rw [h.phys_eq, Nat.mul_add_div h.pos.2, Nat.div_eq_of_lt hlt, Nat.add_zero,
      Nat.mul_div_cancel_left _ h.pos.1, Nat.mul_add_mod, Nat.mod_eq_of_lt hlt, Nat.mul_comm, hm]

end Raid0

/-- **RAID 0**: the logical sectors are all of the disks, and they are placed on
    different sectors within the smallest disk, where reads find the last data
    written, exactly when that disk holds a whole number of stripes. -/
theorem raid0_striped_iff {n s : Nat} (hn : 2 ≤ n) (hs : 1 ≤ s) (size : Nat → Nat)
    (disks : Nat → Disk) (hsize : n * minDiskSectors size n < 2 ^ 32) :
    (raidInit .raid0 s n size disks).totalSectors = n * minDiskSectors size n ∧
    ((raidInit .raid0 s n size disks).Striped (minDiskSectors size n)
      ↔ s ∣ minDiskSectors size n) := by
  have h : Raid0 n s (minDiskSectors size n) (raidInit .raid0 s n size disks) :=
    ⟨rfl, if_pos hs, rfl, ⟨by omega, hs⟩, fun d hd => minDiskSectors_le size hd,
      Nat.mod_eq_of_lt hsize⟩
  refine ⟨h.total, fun hst => ?_, fun hdvd => ?_⟩
  · by_contra hdvd
    obtain ⟨a, ha, hphys⟩ := h.phys_past hn hdvd
    exact (hst.2.1 a (h.total ▸ ha)).ne hphys
  · unfold RaidDevice.Striped
    rw [h.total]
    refine ⟨fun a _ b _ => h.place_injective, fun a => h.phys_lt hdvd, fun ws hws => ?_⟩
    obtain ⟨r', hrun, -, hread⟩ :=
      raidWrites_reads (fun q a b hq => hq.raidWrite_spec hdvd b) ws h hws
    exact ⟨r', hrun, hread⟩

/-- Three disks of eight sectors in stripes of four. -/
theorem raid0_striped_four :
    (raidInit .raid0 4 3 (fun _ => 8) fun _ _ _ => 0).Striped 8 :=
  (raid0_striped_iff (by decide) (by decide) (fun _ => 8) _ (by decide)).2.mpr (by decide)

/-- Two disks of three sectors in stripes of two: the last two logical sectors
    are placed on sectors 2 and 3 of the first disk, and the second stops the
    kernel. -/
theorem raid0_half_stripe :
    let r := raidInit .raid0 2 2 (fun _ => 3) fun _ _ _ => 0
    5 < r.totalSectors ∧ ¬ r.Striped 3 ∧ r.raid0PhysicalSector 5 = 3 ∧ r.raidRead 5 = none :=
  ⟨by decide, fun h => absurd (h.2.1 5 (by decide)) (by decide), by decide, rfl⟩

end MavRaid
