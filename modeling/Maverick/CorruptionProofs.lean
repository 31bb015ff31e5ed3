import Maverick.CrcProofs
import Maverick.WalCallProofs

/-! # Corrupted log records

`wal_calculate_checksum` takes a byte at a time from a table of 256 words. It is the CRC-32 of the
bytes outside the checksum field, as the bitwise division defines it, so a burst of at most 32 bits
in a stored record changes the checksum and `wal_read_record` turns the sector down. -/

namespace MavCorruption

open MavBlock MavField MavRecord MavCrc MavLog MavSystem List

/-- The reflected polynomial of CRC-32. -/
def crcPoly : BitVec 32 := 0xEDB88320#32

/-- The bits of one byte, lowest first. -/
def byteBits (byte : UInt8) : List Bool := (List.range 8).map byte.toNat.testBit

/-- CRC-32 by bitwise division: initial value and final exclusive or all ones. -/
def crc32 (bytes : List UInt8) : UInt32 :=
  ⟨feed crcPoly 0xFFFFFFFF#32 (bytes.flatMap byteBits) ^^^ 0xFFFFFFFF#32⟩

/-- The bytes of a sector outside the checksum field. -/
def covered (b : Block) : List UInt8 := bytesAt b 0 16 ++ bytesAt b 20 492

/-- The covered bytes differ, and only in the 32 bits from bit `s` on. -/
def Burst (s : Nat) (b c : Block) : Prop :=
  covered b ≠ covered c ∧ ∀ j, j < s ∨ s + 32 ≤ j →
    ((covered b).flatMap byteBits)[j]? = ((covered c).flatMap byteBits)[j]?

/-- Every entry of the table is eight divisions of its index. -/
theorem crc32Table_eq : ∀ i : Fin 256,
    (crc32Table.getD i 0).toBitVec = (step crcPoly)^[8] (BitVec.ofNat 32 i) := by
  decide +kernel

theorem word_byteBits (byte : UInt8) :
    (word (byteBits byte) : BitVec 32) = byte.toUInt32.toBitVec := by
  refine BitVec.eq_of_getLsbD_eq ?_
  intro i hi
  rw [getLsbD_word _ i hi, byteBits, getD_eq_getElem?_getD, List.getElem?_map]
  by_cases h : i < 8
  · rw [List.getElem?_range h]
    rfl
  · rw [List.getElem?_eq_none (by rw [length_range]; omega)]
    exact (Nat.testBit_lt_two_pow (Nat.lt_of_lt_of_le byte.toNat_lt
      (Nat.pow_le_pow_right (by omega) (by omega)))).symm

/-- A word is its low octet and the rest moved up. -/
theorem low_xor_high (x : BitVec 32) : x = (x &&& 255#32) ^^^ ((x >>> 8) <<< 8) := by
  refine BitVec.eq_of_getLsbD_eq ?_
  intro i hi
  have hmask : (255#32).getLsbD i = decide (i < 8) := by
    rw [BitVec.getLsbD_ofNat, show (255 : Nat) = 2 ^ 8 - 1 from rfl, Nat.testBit_two_pow_sub_one]
    simp [hi]
  rw [BitVec.getLsbD_xor, BitVec.getLsbD_and, hmask, BitVec.getLsbD_shiftLeft,
    BitVec.getLsbD_ushiftRight]
  by_cases h : i < 8
  · simp [h, hi]
  · simp [h, hi, show 8 + (i - 8) = i by omega]

/-- Eight divisions look only the low octet up; the rest moves down. -/
theorem iterate_eight (x : BitVec 32) :
    (step crcPoly)^[8] x = (x >>> 8) ^^^ (step crcPoly)^[8] (x &&& 255#32) := by
  have hhigh : (step crcPoly)^[8] ((x >>> 8) <<< 8) = x >>> 8 := by
    refine iterate_step_shiftLeft crcPoly 8 _ ?_
    intro i hi
    rw [BitVec.getLsbD_ushiftRight, BitVec.getLsbD_of_ge x _ (by omega)]
  calc (step crcPoly)^[8] x
      = (step crcPoly)^[8] ((x &&& 255#32) ^^^ ((x >>> 8) <<< 8)) := by rw [← low_xor_high]
    _ = (x >>> 8) ^^^ (step crcPoly)^[8] (x &&& 255#32) := by
        rw [iterate_step_xor, hhigh, BitVec.xor_comm]

/-- One byte of the table loop is eight bits of the division. -/
theorem crcByte_toBitVec (c : UInt32) (byte : UInt8) :
    (crcByte c byte).toBitVec = feed crcPoly c.toBitVec (byteBits byte) := by
  have hbyte : byte.toUInt32.toBitVec >>> 8 = 0#32 := by
    refine BitVec.eq_of_toNat_eq ?_
    rw [BitVec.toNat_ushiftRight, Nat.shiftRight_eq_div_pow]
    exact Nat.div_eq_of_lt byte.toNat_lt
  have hlow : ((c ^^^ byte.toUInt32) &&& 0xFF).toNat < 256 := by
    exact Nat.lt_succ_of_le Nat.and_le_right
  have hindex : BitVec.ofNat 32 ((c ^^^ byte.toUInt32) &&& 0xFF).toNat =
      (c.toBitVec ^^^ byte.toUInt32.toBitVec) &&& 255#32 := BitVec.ofNat_toNat ..
  rw [feed_eq_iterate crcPoly _ _ (show (byteBits byte).length ≤ 32 by simp [byteBits]),
    word_byteBits, show (byteBits byte).length = 8 by simp [byteBits], iterate_eight,
    BitVec.ushiftRight_xor_distrib, hbyte, BitVec.xor_zero, ← hindex,
    ← crc32Table_eq ⟨_, hlow⟩]
  rfl

theorem foldl_crcByte (bytes : List UInt8) (c : UInt32) :
    (bytes.foldl crcByte c).toBitVec = feed crcPoly c.toBitVec (bytes.flatMap byteBits) := by
  induction bytes generalizing c with
  | nil => rfl
  | cons byte bytes ih =>
    rw [foldl_cons, ih, crcByte_toBitVec, flatMap_cons]
    exact foldl_append.symm

theorem walCalculateChecksum_eq (b : Block) :
    walCalculateChecksum b = crc32 (covered b) := by
  refine UInt32.toBitVec_inj.mp ?_
  show ~~~((bytesAt b 20 492).foldl crcByte
    ((bytesAt b 0 16).foldl crcByte 0xFFFFFFFF)).toBitVec = feed _ _ _ ^^^ BitVec.allOnes 32
  rw [← foldl_append, foldl_crcByte, BitVec.xor_allOnes]
  rfl

/-- The bits of two byte strings of one length are the same only if the bytes are. -/
theorem flatMap_byteBits_inj {bs cs : List UInt8} : bs.length = cs.length →
    bs.flatMap byteBits = cs.flatMap byteBits → bs = cs := by
  induction bs generalizing cs with
  | nil =>
    intro hlen _
    exact (length_eq_zero_iff.mp hlen.symm).symm
  | cons b bs ih =>
    intro hlen h
    cases cs with
    | nil => exact nomatch hlen
    | cons c cs =>
      obtain ⟨hb, hbs⟩ := append_inj h (by simp [byteBits])
      have hword : b.toUInt32.toBitVec = c.toUInt32.toBitVec := by
        rw [← word_byteBits, hb, word_byteBits]
      have hbc : b = c := UInt8.toNat_inj.mp
        (show b.toUInt32.toNat = c.toUInt32.toNat from congrArg BitVec.toNat hword)
      rw [hbc, ih (Nat.succ.inj hlen) hbs]

theorem Burst.checksum_ne {s : Nat} {b c : Block} (h : Burst s b c) :
    walCalculateChecksum b ≠ walCalculateChecksum c := by
  intro heq
  have hlen : (covered b).length = (covered c).length := by simp [covered]
  have hbits : ∀ bs : List UInt8, (bs.flatMap byteBits).length = 8 * bs.length := by
    intro bs
    simp [length_flatMap, byteBits, Nat.mul_comm]
  rw [walCalculateChecksum_eq, walCalculateChecksum_eq] at heq
  have hfeed := (BitVec.xor_left_inj _).mp (UInt32.toBitVec_inj.mpr heq)
  refine h.1 (flatMap_byteBits_inj hlen (feed_burst (p := crcPoly) (by decide) ?_ h.2 hfeed))
  rw [hbits, hbits, hlen]

/-- **THE CHECKSUM IS CRC-32 AND FINDS EVERY BURST.**  A sector whose covered
    bytes differ from a stored record's inside a window of 32 bits has another
    checksum, and is not read as a record. -/
theorem checksum_finds_bursts :
    (∀ b, walCalculateChecksum b = crc32 (covered b)) ∧
    (∀ s b c, Burst s b c → walCalculateChecksum b ≠ walCalculateChecksum c) ∧
    ∀ s r lsn (d : Disk), Burst s (bytesOf r) (d (logSector lsn)) →
      getLe (d (logSector lsn)) 16 4 = getLe (bytesOf r) 16 4 → walReadRecord d lsn = none := by
  refine ⟨walCalculateChecksum_eq, fun s b c => Burst.checksum_ne, ?_⟩
  intro s r lsn d hburst hfield
  have hbad : ¬ checksumOk (d (logSector lsn)) := by
    intro hok
    refine hburst.checksum_ne (UInt32.toNat_inj.mp ?_)
    rw [← checksumOk_bytesOf r, ← hfield]
    exact hok
  rw [walReadRecord, if_neg hbad]
  split
  · rfl
  · exact ite_self none

/-- The record of the start of transaction 1. -/
def startRecord : WalRecord := ⟨1, 1, .begin, 0, 0, 0, fun _ => 0, fun _ => 0⟩

/-- With another LSN that record is not read. -/
theorem checksum_finds_bursts_lsn :
    let c := putLe (bytesOf startRecord) 0 4 2
    Burst 0 (bytesOf startRecord) c ∧ walReadRecord (fun _ => c) 1 = none := by
  intro c
  have hsplit (b : Block) : covered b = bytesAt b 0 4 ++ (bytesAt b 4 12 ++ bytesAt b 20 492) := rfl
  have hrest : bytesAt c 4 12 ++ bytesAt c 20 492 = _ :=
    congrArg₂ (· ++ ·) (bytesAt_putLe_disjoint (.inr (by decide)))
      (bytesAt_putLe_disjoint (.inr (by decide)))
  have hburst : Burst 0 (bytesOf startRecord) c := by
    refine ⟨by decide +kernel, fun j hj => ?_⟩
    have hlen (b : Block) : ((bytesAt b 0 4).flatMap byteBits).length = 32 := rfl
    rw [hsplit, hsplit c, hrest]
    generalize bytesAt _ 4 12 ++ bytesAt _ 20 492 = rest
    rw [flatMap_append, flatMap_append, getElem?_append_right (by rw [hlen]; omega),
      getElem?_append_right (by rw [hlen]; omega), hlen, hlen]
  exact ⟨hburst, checksum_finds_bursts.2.2 0 startRecord 1 _ hburst
    (getLe_putLe_disjoint (.inr (by decide)))⟩

end MavCorruption
