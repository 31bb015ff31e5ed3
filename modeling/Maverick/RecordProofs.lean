import Maverick.FieldProofs

/-! # Log records as sectors

One log record fills one sector: a little-endian header, the CRC32 of every byte outside the
checksum field, the range the record speaks about and two 232-byte images of it. `bytesOf` is the
sector a sealed record becomes and `recordOf` reads the fields of any sector. A sealed record
passes its own checksum, and is read back as it was as long as its numbers fit their fields. -/

namespace MavRecord

open MavBlock MavField List

/-! ## The checksum -/

/-- `crc32_table`: the table of the reflected polynomial `0xEDB88320`. -/
def crc32Table : List UInt32 :=
  [
    0x00000000, 0x77073096, 0xee0e612c, 0x990951ba, 0x076dc419, 0x706af48f,
    0xe963a535, 0x9e6495a3, 0x0edb8832, 0x79dcb8a4, 0xe0d5e91e, 0x97d2d988,
    0x09b64c2b, 0x7eb17cbd, 0xe7b82d07, 0x90bf1d91, 0x1db71064, 0x6ab020f2,
    0xf3b97148, 0x84be41de, 0x1adad47d, 0x6ddde4eb, 0xf4d4b551, 0x83d385c7,
    0x136c9856, 0x646ba8c0, 0xfd62f97a, 0x8a65c9ec, 0x14015c4f, 0x63066cd9,
    0xfa0f3d63, 0x8d080df5, 0x3b6e20c8, 0x4c69105e, 0xd56041e4, 0xa2677172,
    0x3c03e4d1, 0x4b04d447, 0xd20d85fd, 0xa50ab56b, 0x35b5a8fa, 0x42b2986c,
    0xdbbbc9d6, 0xacbcf940, 0x32d86ce3, 0x45df5c75, 0xdcd60dcf, 0xabd13d59,
    0x26d930ac, 0x51de003a, 0xc8d75180, 0xbfd06116, 0x21b4f4b5, 0x56b3c423,
    0xcfba9599, 0xb8bda50f, 0x2802b89e, 0x5f058808, 0xc60cd9b2, 0xb10be924,
    0x2f6f7c87, 0x58684c11, 0xc1611dab, 0xb6662d3d, 0x76dc4190, 0x01db7106,
    0x98d220bc, 0xefd5102a, 0x71b18589, 0x06b6b51f, 0x9fbfe4a5, 0xe8b8d433,
    0x7807c9a2, 0x0f00f934, 0x9609a88e, 0xe10e9818, 0x7f6a0dbb, 0x086d3d2d,
    0x91646c97, 0xe6635c01, 0x6b6b51f4, 0x1c6c6162, 0x856530d8, 0xf262004e,
    0x6c0695ed, 0x1b01a57b, 0x8208f4c1, 0xf50fc457, 0x65b0d9c6, 0x12b7e950,
    0x8bbeb8ea, 0xfcb9887c, 0x62dd1ddf, 0x15da2d49, 0x8cd37cf3, 0xfbd44c65,
    0x4db26158, 0x3ab551ce, 0xa3bc0074, 0xd4bb30e2, 0x4adfa541, 0x3dd895d7,
    0xa4d1c46d, 0xd3d6f4fb, 0x4369e96a, 0x346ed9fc, 0xad678846, 0xda60b8d0,
    0x44042d73, 0x33031de5, 0xaa0a4c5f, 0xdd0d7cc9, 0x5005713c, 0x270241aa,
    0xbe0b1010, 0xc90c2086, 0x5768b525, 0x206f85b3, 0xb966d409, 0xce61e49f,
    0x5edef90e, 0x29d9c998, 0xb0d09822, 0xc7d7a8b4, 0x59b33d17, 0x2eb40d81,
    0xb7bd5c3b, 0xc0ba6cad, 0xedb88320, 0x9abfb3b6, 0x03b6e20c, 0x74b1d29a,
    0xead54739, 0x9dd277af, 0x04db2615, 0x73dc1683, 0xe3630b12, 0x94643b84,
    0x0d6d6a3e, 0x7a6a5aa8, 0xe40ecf0b, 0x9309ff9d, 0x0a00ae27, 0x7d079eb1,
    0xf00f9344, 0x8708a3d2, 0x1e01f268, 0x6906c2fe, 0xf762575d, 0x806567cb,
    0x196c3671, 0x6e6b06e7, 0xfed41b76, 0x89d32be0, 0x10da7a5a, 0x67dd4acc,
    0xf9b9df6f, 0x8ebeeff9, 0x17b7be43, 0x60b08ed5, 0xd6d6a3e8, 0xa1d1937e,
    0x38d8c2c4, 0x4fdff252, 0xd1bb67f1, 0xa6bc5767, 0x3fb506dd, 0x48b2364b,
    0xd80d2bda, 0xaf0a1b4c, 0x36034af6, 0x41047a60, 0xdf60efc3, 0xa867df55,
    0x316e8eef, 0x4669be79, 0xcb61b38c, 0xbc66831a, 0x256fd2a0, 0x5268e236,
    0xcc0c7795, 0xbb0b4703, 0x220216b9, 0x5505262f, 0xc5ba3bbe, 0xb2bd0b28,
    0x2bb45a92, 0x5cb36a04, 0xc2d7ffa7, 0xb5d0cf31, 0x2cd99e8b, 0x5bdeae1d,
    0x9b64c2b0, 0xec63f226, 0x756aa39c, 0x026d930a, 0x9c0906a9, 0xeb0e363f,
    0x72076785, 0x05005713, 0x95bf4a82, 0xe2b87a14, 0x7bb12bae, 0x0cb61b38,
    0x92d28e9b, 0xe5d5be0d, 0x7cdcefb7, 0x0bdbdf21, 0x86d3d2d4, 0xf1d4e242,
    0x68ddb3f8, 0x1fda836e, 0x81be16cd, 0xf6b9265b, 0x6fb077e1, 0x18b74777,
    0x88085ae6, 0xff0f6a70, 0x66063bca, 0x11010b5c, 0x8f659eff, 0xf862ae69,
    0x616bffd3, 0x166ccf45, 0xa00ae278, 0xd70dd2ee, 0x4e048354, 0x3903b3c2,
    0xa7672661, 0xd06016f7, 0x4969474d, 0x3e6e77db, 0xaed16a4a, 0xd9d65adc,
    0x40df0b66, 0x37d83bf0, 0xa9bcae53, 0xdebb9ec5, 0x47b2cf7f, 0x30b5ffe9,
    0xbdbdf21c, 0xcabac28a, 0x53b39330, 0x24b4a3a6, 0xbad03605, 0xcdd70693,
    0x54de5729, 0x23d967bf, 0xb3667a2e, 0xc4614ab8, 0x5d681b02, 0x2a6f2b94,
    0xb40bbe37, 0xc30c8ea1, 0x5a05df1b, 0x2d02ef8d]

/-- One byte of the CRC loop. -/
def crcByte (crc : UInt32) (byte : UInt8) : UInt32 :=
  (crc >>> 8) ^^^ crc32Table.getD ((crc ^^^ byte.toUInt32) &&& 0xFF).toNat 0

/-- `wal_calculate_checksum`: the bytes before the checksum field, then those after it. -/
def walCalculateChecksum (b : Block) : UInt32 :=
  let crc := (bytesAt b 0 16).foldl crcByte 0xFFFFFFFF
  let crc := (bytesAt b 20 492).foldl crcByte crc
  ~~~crc

/-- The checksum a sector carries matches its bytes. -/
def checksumOk (b : Block) : Prop :=
  getLe b 16 4 = (walCalculateChecksum b).toNat
deriving Decidable

/-- The checksum does not cover its own field. -/
theorem walCalculateChecksum_putLe (b : Block) (v : Nat) :
    walCalculateChecksum (putLe b 16 4 v) = walCalculateChecksum b := by
  show (~~~((bytesAt (putLe b 16 4 v) 20 492).foldl crcByte
    ((bytesAt (putLe b 16 4 v) 0 16).foldl crcByte 0xFFFFFFFF))) = _
  rw [bytesAt_putLe_disjoint (by omega), bytesAt_putLe_disjoint (by omega)]
  rfl

/-- Sealing a sector makes its checksum match. -/
theorem checksumOk_putLe (b : Block) :
    checksumOk (putLe b 16 4 (walCalculateChecksum b).toNat) := by
  show getLe _ 16 4 = _
  rw [walCalculateChecksum_putLe, getLe_putLe_of_lt b (by omega)]
  exact (walCalculateChecksum b).toNat_lt

/-- A sector of zeros is not a log record. -/
theorem not_checksumOk_zero : ¬ checksumOk (fun _ => 0) := by
  decide +kernel

/-! ## Record fields -/

/-- `enum wal_record_type`. -/
inductive RecordType where
  | invalid
  | begin
  | commit
  | abort
  | write
  | checkpoint
  deriving DecidableEq, Repr

/-- The value of the enumerator. -/
def RecordType.code : RecordType → Nat
  | .invalid => 0
  | .begin => 1
  | .commit => 2
  | .abort => 3
  | .write => 4
  | .checkpoint => 5

/-- The type a stored number stands for. A number that is no enumerator is
    treated by every reader as `WAL_INVALID` is: no test matches it. -/
def RecordType.ofCode : Nat → RecordType
  | 1 => .begin
  | 2 => .commit
  | 3 => .abort
  | 4 => .write
  | 5 => .checkpoint
  | _ => .invalid

theorem RecordType.ofCode_code (t : RecordType) : ofCode t.code = t := by
  cases t <;> rfl

theorem RecordType.code_lt (t : RecordType) : t.code < 256 ^ 4 := by
  cases t <;> decide

/-- One image of the range a record speaks about, `WAL_MAX_DATA_SIZE` bytes. -/
abbrev Payload := Fin 232 → UInt8

/-- A zeroed payload with `data` copied to its front. -/
def payloadOf (data : List UInt8) : Payload := fun i => data.getD i.val 0

/-- The first `len` bytes of a payload. -/
def payloadBytes (p : Payload) (len : Nat) : List UInt8 :=
  (range len).map fun k => if h : k < 232 then p ⟨k, h⟩ else 0

@[simp] theorem length_payloadBytes (p : Payload) (len : Nat) :
    (payloadBytes p len).length = len := by
  show ((range len).map _).length = len
  rw [length_map, length_range]

theorem getD_payloadBytes {p : Payload} {len k : Nat} (hk : k < len) (h : k < 232) :
    (payloadBytes p len).getD k 0 = p ⟨k, h⟩ := by
  show ((range len).map _).getD k 0 = _
  rw [getD_eq_getElem?_getD, getElem?_map, getElem?_range hk]
  show (if h : k < 232 then p ⟨k, h⟩ else 0) = _
  rw [dif_pos h]

/-- What was copied to the front of a payload is read back from it. -/
theorem payloadBytes_payloadOf (data : List UInt8) (h : data.length ≤ 232) :
    payloadBytes (payloadOf data) data.length = data := by
  refine ext_getElem? ?_
  intro k
  by_cases hk : k < data.length
  · show ((range data.length).map _)[k]? = _
    rw [getElem?_map, getElem?_range hk, getElem?_eq_getElem hk]
    show some (if h : k < 232 then data.getD k 0 else 0) = _
    rw [dif_pos (by omega), getD_eq_getElem?_getD, getElem?_eq_getElem hk]
    rfl
  · rw [getElem?_eq_none (by rw [length_payloadBytes]; omega),
      getElem?_eq_none (by omega)]

/-- `struct wal_record` without its checksum, which `bytesOf` computes. -/
structure WalRecord where
  lsn : Nat
  txnId : Nat
  type : RecordType
  sector : Sector
  offset : Nat
  length : Nat
  oldData : Payload
  newData : Payload

/-- The numbers of a record in their places, the rest zero. -/
def headerOf (r : WalRecord) : Block :=
  let b := putLe (fun _ => 0) 0 8 r.lsn
  let b := putLe b 8 4 r.txnId
  let b := putLe b 12 4 r.type.code
  let b := putLe b 20 4 r.sector
  let b := putLe b 24 2 r.offset
  putLe b 26 2 r.length

/-- The header and the two payloads, checksum zero. -/
def fieldsOf (r : WalRecord) : Block :=
  memcpyInto (memcpyInto (headerOf r) 28 (payloadBytes r.oldData 232)) 260
    (payloadBytes r.newData 232)

/-- The sector a sealed record is stored as. -/
def bytesOf (r : WalRecord) : Block :=
  putLe (fieldsOf r) 16 4 (walCalculateChecksum (fieldsOf r)).toNat

/-- The payload stored at byte `ofs`. -/
def payloadAt (b : Block) (ofs : Nat) : Payload :=
  fun i => (bytesAt b ofs 232).getD i.val 0

/-- The fields of a sector read as a log record. -/
def recordOf (b : Block) : WalRecord where
  lsn := getLe b 0 8
  txnId := getLe b 8 4
  type := RecordType.ofCode (getLe b 12 4)
  sector := getLe b 20 4
  offset := getLe b 24 2
  length := getLe b 26 2
  oldData := payloadAt b 28
  newData := payloadAt b 260

/-- The numbers of the record fit the widths of their fields. -/
structure Fits (r : WalRecord) : Prop where
  lsn : r.lsn < 256 ^ 8
  txnId : r.txnId < 256 ^ 4
  sector : r.sector < 256 ^ 4
  offset : r.offset < 256 ^ 2
  length : r.length < 256 ^ 2

instance (r : WalRecord) : Decidable (Fits r) :=
  decidable_of_iff (r.lsn < 256 ^ 8 ∧ r.txnId < 256 ^ 4 ∧ r.sector < 256 ^ 4 ∧
      r.offset < 256 ^ 2 ∧ r.length < 256 ^ 2)
    ⟨fun h => ⟨h.1, h.2.1, h.2.2.1, h.2.2.2.1, h.2.2.2.2⟩,
      fun h => ⟨h.lsn, h.txnId, h.sector, h.offset, h.length⟩⟩

theorem checksumOk_bytesOf (r : WalRecord) : checksumOk (bytesOf r) :=
  checksumOk_putLe (fieldsOf r)

private theorem payloadAt_congr {b c : Block} {ofs : Nat}
    (h : bytesAt b ofs 232 = bytesAt c ofs 232) : payloadAt b ofs = payloadAt c ofs := by
  funext i
  show (bytesAt b ofs 232).getD i.val 0 = _
  rw [h]
  rfl

/-- A payload copied into the sector is read back from it. -/
theorem payloadAt_memcpyInto (b : Block) (p : Payload) (ofs : Nat)
    (h : ofs + 232 ≤ 512) :
    payloadAt (memcpyInto b ofs (payloadBytes p 232)) ofs = p := by
  funext i
  have hlen : ofs + (payloadBytes p 232).length ≤ 512 := by rw [length_payloadBytes]; exact h
  have hb := bytesAt_memcpyInto b hlen
  rw [length_payloadBytes] at hb
  show (bytesAt _ ofs 232).getD i.val 0 = p i
  rw [hb, getD_payloadBytes i.isLt i.isLt]

/-- Sealing and the payloads leave the header fields alone. -/
private theorem getLe_bytesOf (r : WalRecord) {ofs n : Nat}
    (h : ofs + n ≤ 16 ∨ 20 ≤ ofs) (h' : ofs + n ≤ 28) :
    getLe (bytesOf r) ofs n = getLe (headerOf r) ofs n := by
  rw [bytesOf, getLe_putLe_disjoint (by omega), fieldsOf,
    getLe_memcpyInto_disjoint (by omega), getLe_memcpyInto_disjoint (by omega)]

private theorem recordOf_bytesOf_header {r : WalRecord} (h : Fits r) :
    getLe (bytesOf r) 0 8 = r.lsn ∧ getLe (bytesOf r) 8 4 = r.txnId ∧
      getLe (bytesOf r) 12 4 = r.type.code ∧ getLe (bytesOf r) 20 4 = r.sector ∧
      getLe (bytesOf r) 24 2 = r.offset ∧ getLe (bytesOf r) 26 2 = r.length := by
  refine ⟨?_, ?_, ?_, ?_, ?_, ?_⟩
  all_goals rw [getLe_bytesOf r (by omega) (by omega)]
  all_goals simp (disch := omega) only [headerOf, getLe_putLe_disjoint]
  · exact getLe_putLe_of_lt _ (by omega) h.lsn
  · exact getLe_putLe_of_lt _ (by omega) h.txnId
  · exact getLe_putLe_of_lt _ (by omega) r.type.code_lt
  · exact getLe_putLe_of_lt _ (by omega) h.sector
  · exact getLe_putLe_of_lt _ (by omega) h.offset
  · exact getLe_putLe_of_lt _ (by omega) h.length

/-- **A STORED RECORD IS READ BACK AS IT WAS.** -/
theorem recordOf_bytesOf {r : WalRecord} (h : Fits r) : recordOf (bytesOf r) = r := by
  obtain ⟨hlsn, htxn, htype, hsec, hofs, hlen⟩ := recordOf_bytesOf_header h
  have hold : payloadAt (bytesOf r) 28 = r.oldData := by
    rw [← payloadAt_memcpyInto (headerOf r) r.oldData 28 (by omega)]
    refine payloadAt_congr ?_
    rw [bytesOf, bytesAt_putLe_disjoint (by omega), fieldsOf,
      bytesAt_memcpyInto_disjoint (by omega)]
  have hnew : payloadAt (bytesOf r) 260 = r.newData := by
    rw [← payloadAt_memcpyInto (memcpyInto (headerOf r) 28 (payloadBytes r.oldData 232))
      r.newData 260 (by omega)]
    refine payloadAt_congr ?_
    rw [bytesOf, bytesAt_putLe_disjoint (by omega), fieldsOf]
  show WalRecord.mk _ _ _ _ _ _ _ _ = r
  rw [hlsn, htxn, htype, hsec, hofs, hlen, hold, hnew, RecordType.ofCode_code]

end MavRecord
