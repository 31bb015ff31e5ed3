import Maverick.OverrideProofs

/-! # Sectors, blocks and the block device

The file system device is an array of 512-byte sectors. `block_read` and `block_write` move whole
sectors; everything above them (the buffer cache, the log, the inodes) edits byte ranges of one
sector with `memcpy`. This file gives the sector contents, the device, and the two byte-range
primitives `memcpyInto` and `bytesAt`, with the lemmas that say which byte each of them touches. -/

namespace MavBlock

open MavOverride List

/-- `block_sector_t`: the number of a sector on the device. -/
abbrev Sector := Nat

/-- The contents of one sector, `BLOCK_SECTOR_SIZE` bytes. -/
abbrev Block := Fin 512 → UInt8

/-- The device: every sector with its contents. -/
abbrev Disk := Sector → Block

/-- `block_write`: replace the contents of one sector. -/
def blockWrite (d : Disk) (s : Sector) (b : Block) : Disk :=
  fun t => if t = s then b else d t

@[simp] theorem blockWrite_same (d : Disk) (s : Sector) (b : Block) :
    blockWrite d s b s = b := if_pos rfl

variable {s : Sector} {b : Block} {data : List UInt8} {ofs len : Nat}

theorem blockWrite_other {d : Disk} {t : Sector} (h : t ≠ s) : blockWrite d s b t = d t := if_neg h

/-- Writing back what a sector already holds changes nothing. -/
theorem blockWrite_self {d : Disk} (h : d s = b) : blockWrite d s b = d := by
  funext t
  by_cases ht : t = s
  · rw [ht, blockWrite_same, h]
  · exact blockWrite_other ht

/-! ## Byte ranges of one sector -/

/-- `memcpy` of `data` into the sector at byte `ofs`. -/
def memcpyInto (b : Block) (ofs : Nat) (data : List UInt8) : Block :=
  fun i => if ofs ≤ i.val ∧ i.val < ofs + data.length
    then data.getD (i.val - ofs) 0 else b i

/-- `memcpy` of `len` bytes out of the sector from byte `ofs` on. -/
def bytesAt (b : Block) (ofs len : Nat) : List UInt8 :=
  (List.range len).map fun k =>
    if h : ofs + k < 512 then b ⟨ofs + k, h⟩ else 0

/-- The whole sector as a byte string. -/
def blockBytes (b : Block) : List UInt8 := bytesAt b 0 512

theorem memcpyInto_inside {i : Fin 512} (h1 : ofs ≤ i.val) (h2 : i.val < ofs + data.length) :
    memcpyInto b ofs data i = data.getD (i.val - ofs) 0 := if_pos ⟨h1, h2⟩

theorem memcpyInto_outside {i : Fin 512} (h : i.val < ofs ∨ ofs + data.length ≤ i.val) :
    memcpyInto b ofs data i = b i := by
  refine if_neg ?_
  intro hc
  omega

@[simp] theorem length_bytesAt (b : Block) (ofs len : Nat) :
    (bytesAt b ofs len).length = len := by
  show ((List.range len).map _).length = len
  rw [length_map, length_range]

theorem getElem?_bytesAt {k : Nat} (hk : k < len)
    (h : ofs + k < 512) : (bytesAt b ofs len)[k]? = some (b ⟨ofs + k, h⟩) := by
  show ((List.range len).map _)[k]? = _
  rw [List.getElem?_map, List.getElem?_range hk]
  show some (if h : ofs + k < 512 then b ⟨ofs + k, h⟩ else 0) = _
  rw [dif_pos h]

theorem getD_bytesAt {k : Nat} (hk : k < len)
    (h : ofs + k < 512) : (bytesAt b ofs len).getD k 0 = b ⟨ofs + k, h⟩ := by
  rw [getD_eq_getElem?_getD, getElem?_bytesAt hk h]
  rfl

/-- A range depends only on the bytes it covers. -/
theorem bytesAt_congr {c : Block} (h : ∀ i : Fin 512, ofs ≤ i.val → i.val < ofs + len → b i = c i) :
    bytesAt b ofs len = bytesAt c ofs len := by
  refine map_congr_left ?_
  intro k hk
  have hk' : k < len := mem_range.mp hk
  by_cases hb : ofs + k < 512
  · rw [dif_pos hb, dif_pos hb]
    exact h ⟨ofs + k, hb⟩ (Nat.le_add_right _ _) (by show ofs + k < ofs + len; omega)
  · rw [dif_neg hb, dif_neg hb]

/-- What was copied in is read back. -/
theorem bytesAt_memcpyInto (b : Block) (h : ofs + data.length ≤ 512) :
    bytesAt (memcpyInto b ofs data) ofs data.length = data := by
  refine ext_getElem? ?_
  intro k
  by_cases hk : k < data.length
  · have hb : ofs + k < 512 := by omega
    rw [getElem?_bytesAt hk hb, memcpyInto_inside (Nat.le_add_right _ _)
      (by show ofs + k < ofs + data.length; omega)]
    have hsub : ofs + k - ofs = k := by omega
    rw [hsub, getD_eq_getElem?_getD, List.getElem?_eq_getElem hk]
    rfl
  · rw [List.getElem?_eq_none (by rw [length_bytesAt]; omega), List.getElem?_eq_none (by omega)]

/-- A copy of all 512 bytes forgets what the sector held. -/
theorem memcpyInto_full (h : data.length = 512) (b c : Block) :
    memcpyInto b 0 data = memcpyInto c 0 data := by
  funext i
  have hi : i.val < 0 + data.length := by have := i.isLt; omega
  rw [memcpyInto_inside (Nat.zero_le _) hi, memcpyInto_inside (Nat.zero_le _) hi]

/-! ## The device byte by byte -/

/-- A byte of the device. -/
abbrev Addr := Sector × Fin 512

/-- The device as a map of bytes. -/
def toBytes (d : Disk) : Addr → UInt8 := fun a => d a.1 a.2

/-- The bytes a copy of `data` to byte `ofs` of sector `s` decides. -/
def rangePatch (s : Sector) (ofs : Nat) (data : List UInt8) : Addr → Option UInt8 :=
  fun a => if a.1 = s ∧ ofs ≤ a.2.val ∧ a.2.val < ofs + data.length
    then some (data.getD (a.2.val - ofs) 0) else none

theorem rangePatch_inside {a : Addr} (h : a.1 = s ∧ ofs ≤ a.2.val ∧ a.2.val < ofs + data.length) :
    rangePatch s ofs data a = some (data.getD (a.2.val - ofs) 0) := if_pos h

theorem rangePatch_outside {a : Addr}
    (h : ¬ (a.1 = s ∧ ofs ≤ a.2.val ∧ a.2.val < ofs + data.length)) :
    rangePatch s ofs data a = none := if_neg h

/-- Read a sector, copy a range into it, write it back: a patch. -/
theorem toBytes_blockWrite (d : Disk) (s : Sector) (ofs : Nat) (data : List UInt8) :
    toBytes (blockWrite d s (memcpyInto (d s) ofs data))
      = applyPatch (toBytes d) (rangePatch s ofs data) := by
  funext ⟨t, i⟩
  by_cases ht : t = s
  · subst ht
    show blockWrite d t (memcpyInto (d t) ofs data) t i = _
    rw [blockWrite_same]
    by_cases hi : ofs ≤ i.val ∧ i.val < ofs + data.length
    · have hp : rangePatch t ofs data (t, i) = some (data.getD (i.val - ofs) 0) :=
        rangePatch_inside ⟨rfl, hi⟩
      rw [memcpyInto_inside hi.1 hi.2, applyPatch_some hp]
    · have hp : rangePatch t ofs data (t, i) = none :=
        rangePatch_outside fun h => hi h.2
      rw [memcpyInto_outside (by omega), applyPatch_none hp]
      rfl
  · have hp : rangePatch s ofs data (t, i) = none := rangePatch_outside fun h => ht h.1
    show blockWrite d s (memcpyInto (d s) ofs data) t i = _
    rw [blockWrite_other ht, applyPatch_none hp]
    rfl

theorem rangePatch_isSome (s : Sector) (ofs : Nat) (data : List UInt8) (a : Addr) :
    (rangePatch s ofs data a).isSome ↔
      a.1 = s ∧ ofs ≤ a.2.val ∧ a.2.val < ofs + data.length := by
  by_cases h : a.1 = s ∧ ofs ≤ a.2.val ∧ a.2.val < ofs + data.length
  · rw [rangePatch_inside h]
    exact ⟨fun _ => h, fun _ => rfl⟩
  · rw [rangePatch_outside h]
    exact ⟨fun hc => Bool.noConfusion hc, fun hc => absurd hc h⟩

/-- The device after a list of sector writes. -/
def replayWrites (d : Disk) (ws : List (Sector × Block)) : Disk :=
  ws.foldl (fun d w => blockWrite d w.1 w.2) d

theorem replayWrites_append (d : Disk) (ws us : List (Sector × Block)) :
    replayWrites d (ws ++ us) = replayWrites (replayWrites d ws) us :=
  foldl_append ..

end MavBlock
