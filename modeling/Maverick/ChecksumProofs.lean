import Mathlib

/-! # The Internet checksum

A checksum is the complement of a sum of 16 bit words with end-around carry. `checksum_partial`
adds the words into 32 bits, `checksum_finish` folds the carries back in until 16 bits are left.
Folding keeps the sum modulo 65535 and maps only 0 to 0, so a message passes the test, which is that
the finished sum is 0, exactly if its words add up to a multiple of 65535 other than 0. -/

namespace MavChecksum

/-! ## Byte order -/

/-- `htons` (and `ntohs`, the same operation). -/
def htons (x : UInt16) : UInt16 := ((x &&& 0xFF) <<< 8) ||| ((x >>> 8) &&& 0xFF)

def ntohs (x : UInt16) : UInt16 := htons x

/-- `htonl` (and `ntohl`, the same operation). -/
def htonl (x : UInt32) : UInt32 :=
  ((x &&& (0xFF : UInt32)) <<< 24) ||| ((x &&& (0xFF00 : UInt32)) <<< 8) ||| ((x >>> 8) &&& (0xFF00 : UInt32)) |||
    ((x >>> 24) &&& (0xFF : UInt32))

def ntohl (x : UInt32) : UInt32 := htonl x

theorem toNat_htons (x : UInt16) : (htons x).toNat = x.toNat % 256 * 256 + x.toNat / 256 := by
  have hx := x.toNat_lt
  have hlow : (x &&& 0xFF).toNat = x.toNat % 256 := Nat.and_two_pow_sub_one_eq_mod x.toNat 8
  have hhigh : ((x >>> 8) &&& 0xFF).toNat = x.toNat / 256 := by
    rw [UInt16.toNat_and, UInt16.toNat_shiftRight]
    rw [show (0xFF : UInt16).toNat = 2 ^ 8 - 1 from rfl, Nat.and_two_pow_sub_one_eq_mod,
      show (8 : UInt16).toNat % 16 = 8 from rfl, Nat.shiftRight_eq_div_pow]
    omega
  have hshift : ((x &&& 0xFF) <<< 8).toNat = (x.toNat % 256) <<< 8 := by
    rw [UInt16.toNat_shiftLeft, hlow, show (8 : UInt16).toNat % 16 = 8 from rfl, Nat.shiftLeft_eq]
    omega
  rw [htons, UInt16.toNat_or, hshift, hhigh,
    ← Nat.shiftLeft_add_eq_or_of_lt (show x.toNat / 256 < 2 ^ 8 by omega), Nat.shiftLeft_eq]

theorem ntohs_htons (x : UInt16) : ntohs (htons x) = x := by
  have hx := x.toNat_lt
  refine UInt16.toNat_inj.mp ?_
  rw [ntohs, toNat_htons, toNat_htons]
  omega

theorem htons_eq_zero {x : UInt16} : htons x = 0 ↔ x = 0 := by
  constructor
  · intro h
    rw [← ntohs_htons x, h]
    rfl
  · rintro rfl
    rfl

/-! ## Summing words -/

/-- `checksum_partial` over the bytes of the message. -/
def checksumPartial : List UInt8 → UInt32 → UInt32
  | b0 :: b1 :: bs, sum => checksumPartial bs (sum + ((b0.toUInt32 <<< 8) ||| b1.toUInt32))
  | [b0], sum => sum + (b0.toUInt32 <<< 8)
  | [], sum => sum

/-- The loop of `checksum_finish`, for a number of rounds. -/
def foldLoop : Nat → UInt32 → UInt32
  | 0, sum => sum
  | n + 1, sum => if sum >>> 16 ≠ 0 then foldLoop n ((sum &&& (0xFFFF : UInt32)) + (sum >>> 16)) else sum

/-- `checksum_finish`: two rounds always end its loop (`foldLoop_done`). -/
def checksumFinish (sum : UInt32) : UInt16 :=
  htons (~~~(foldLoop 2 sum) &&& (0xFFFF : UInt32)).toUInt16

def checksum (data : List UInt8) : UInt16 := checksumFinish (checksumPartial data 0)

/-- The two halves of an address, as `checksum_pseudo_header` adds them. -/
def addrHalves (ip : UInt32) : UInt32 := ((ntohl ip >>> 16) &&& (0xFFFF : UInt32)) + (ntohl ip &&& (0xFFFF : UInt32))

def checksumPseudoHeader (srcIp dstIp : UInt32) (protocol : UInt8) (len : UInt16) : UInt32 :=
  addrHalves srcIp + addrHalves dstIp + protocol.toUInt32 + len.toUInt32

/-- The sum of the 16 bit words of a message, as a number. -/
def wordSum : List UInt8 → Nat
  | b0 :: b1 :: bs => b0.toNat * 256 + b1.toNat + wordSum bs
  | [b0] => b0.toNat * 256
  | [] => 0

theorem toNat_word (b0 b1 : UInt8) :
    ((b0.toUInt32 <<< 8) ||| b1.toUInt32).toNat = b0.toNat * 256 + b1.toNat := by
  have h0 := b0.toNat_lt
  have hshift : (b0.toUInt32 <<< 8).toNat = b0.toNat <<< 8 := by
    rw [UInt32.toNat_shiftLeft, show (8 : UInt32).toNat % 32 = 8 from rfl, UInt8.toNat_toUInt32,
      Nat.shiftLeft_eq]
    omega
  rw [UInt32.toNat_or, hshift, UInt8.toNat_toUInt32,
    ← Nat.shiftLeft_add_eq_or_of_lt (show b1.toNat < 2 ^ 8 from b1.toNat_lt), Nat.shiftLeft_eq]

/-- `checksum_partial` adds the words, in 32 bits. -/
theorem toNat_checksumPartial (bs : List UInt8) (sum : UInt32) :
    (checksumPartial bs sum).toNat = (sum.toNat + wordSum bs) % 2 ^ 32 := by
  induction bs, sum using checksumPartial.induct with
  | case1 b0 b1 bs sum ih =>
    rw [checksumPartial, ih, UInt32.toNat_add, toNat_word, wordSum]
    omega
  | case2 b0 sum =>
    have hword := toNat_word b0 0
    rw [show (0 : UInt8).toUInt32 = 0 from rfl, UInt32.or_zero] at hword
    rw [checksumPartial, UInt32.toNat_add, hword, wordSum, show (0 : UInt8).toNat = 0 from rfl,
      Nat.add_zero]
  | case3 sum =>
    have := sum.toNat_lt
    rw [checksumPartial, wordSum]
    omega

theorem wordSum_le (bs : List UInt8) : wordSum bs ≤ 65535 * ((bs.length + 1) / 2) := by
  induction bs using wordSum.induct with
  | case1 b0 b1 bs ih =>
    have h0 := b0.toNat_lt
    have h1 := b1.toNat_lt
    rw [wordSum, List.length_cons, List.length_cons]
    omega
  | case2 b0 =>
    have h0 := b0.toNat_lt
    rw [wordSum, List.length_singleton]
    omega
  | case3 => exact Nat.zero_le _

/-! ## Folding -/

theorem toNat_shiftRight_16 (sum : UInt32) : (sum >>> 16).toNat = sum.toNat / 65536 := by
  rw [UInt32.toNat_shiftRight, show (16 : UInt32).toNat % 32 = 16 from rfl,
    Nat.shiftRight_eq_div_pow]

theorem toNat_low_16 (sum : UInt32) : (sum &&& (0xFFFF : UInt32)).toNat = sum.toNat % 65536 :=
  Nat.and_two_pow_sub_one_eq_mod sum.toNat 16

/-- One round of the loop adds the two halves. -/
theorem toNat_fold (sum : UInt32) :
    ((sum &&& (0xFFFF : UInt32)) + (sum >>> 16)).toNat = sum.toNat % 65536 + sum.toNat / 65536 := by
  have := sum.toNat_lt
  rw [UInt32.toNat_add, toNat_low_16, toNat_shiftRight_16]
  omega

theorem shiftRight_16_eq_zero {sum : UInt32} : sum >>> 16 = 0 ↔ sum.toNat < 65536 := by
  rw [← UInt32.toNat_inj, toNat_shiftRight_16, show (0 : UInt32).toNat = 0 from rfl]
  omega

/-- Folding keeps the sum modulo 65535, and only 0 becomes 0. -/
theorem foldLoop_mod (n : Nat) (sum : UInt32) :
    (foldLoop n sum).toNat % 65535 = sum.toNat % 65535 ∧
      ((foldLoop n sum).toNat = 0 ↔ sum.toNat = 0) := by
  induction n generalizing sum with
  | zero => exact ⟨rfl, Iff.rfl⟩
  | succ n ih =>
    by_cases hz : sum >>> 16 ≠ 0
    · rw [foldLoop, if_pos hz]
      obtain ⟨hmod, hzero⟩ := ih ((sum &&& (0xFFFF : UInt32)) + (sum >>> 16))
      rw [toNat_fold] at hmod hzero
      exact ⟨by omega, by omega⟩
    · rw [foldLoop, if_neg hz]
      exact ⟨rfl, Iff.rfl⟩

/-- After two rounds the loop of `checksum_finish` has ended. -/
theorem foldLoop_done (sum : UInt32) : foldLoop 2 sum >>> 16 = 0 := by
  by_cases h1 : sum >>> 16 ≠ 0
  · rw [foldLoop, if_pos h1]
    -- the first round leaves at most 131070
    have hlt := sum.toNat_lt
    have hfirst := toNat_fold sum
    by_cases h2 : ((sum &&& (0xFFFF : UInt32)) + (sum >>> 16)) >>> 16 ≠ 0
    · rw [foldLoop, if_pos h2, foldLoop]
      have hsecond := toNat_fold ((sum &&& (0xFFFF : UInt32)) + (sum >>> 16))
      exact shiftRight_16_eq_zero.mpr (by omega)
    · rw [foldLoop, if_neg h2]
      exact Classical.not_not.mp h2
  · rw [foldLoop, if_neg h1]
    exact Classical.not_not.mp h1

theorem foldLoop_lt (sum : UInt32) : (foldLoop 2 sum).toNat < 65536 :=
  shiftRight_16_eq_zero.mp (foldLoop_done sum)

/-! ## Finished sums -/

/-- The finished sum, in host order, is the complement of the folded one. -/
theorem toNat_checksumFinish (sum : UInt32) :
    (ntohs (checksumFinish sum)).toNat = 65535 - (foldLoop 2 sum).toNat := by
  have hlt := foldLoop_lt sum
  have hnot : (~~~(foldLoop 2 sum) &&& (0xFFFF : UInt32)).toNat = 65535 - (foldLoop 2 sum).toNat := by
    rw [toNat_low_16, UInt32.toNat_not, show UInt32.size = 4294967296 from rfl]
    omega
  rw [checksumFinish, ntohs_htons, UInt32.toNat_toUInt16, hnot]
  omega

/-- **CHECKSUM TEST**: a finished sum is 0 exactly if the words add up to a
    multiple of 65535 other than 0. -/
theorem checksumFinish_eq_zero {sum : UInt32} :
    checksumFinish sum = 0 ↔ sum.toNat % 65535 = 0 ∧ sum.toNat ≠ 0 := by
  have hlt := foldLoop_lt sum
  obtain ⟨hmod, hzero⟩ := foldLoop_mod 2 sum
  have hfin := toNat_checksumFinish sum
  rw [← htons_eq_zero, ← UInt16.toNat_inj]
  rw [ntohs] at hfin
  rw [hfin, show (0 : UInt16).toNat = 0 from rfl]
  constructor
  · intro h
    exact ⟨by omega, fun h0 => by omega⟩
  · rintro ⟨h, hne⟩
    omega

theorem addrHalves_lt (ip : UInt32) : (addrHalves ip).toNat < 131072 := by
  rw [addrHalves, UInt32.toNat_add, toNat_low_16, toNat_low_16]
  omega

/-- The sum over the pseudo header does not overflow. -/
theorem toNat_checksumPseudoHeader (srcIp dstIp : UInt32) (protocol : UInt8) (len : UInt16) :
    (checksumPseudoHeader srcIp dstIp protocol len).toNat =
      (addrHalves srcIp).toNat + (addrHalves dstIp).toNat + protocol.toNat + len.toNat := by
  have hs := addrHalves_lt srcIp
  have hd := addrHalves_lt dstIp
  have hp := protocol.toNat_lt
  have hl := len.toNat_lt
  simp only [checksumPseudoHeader, UInt32.toNat_add, UInt8.toNat_toUInt32, UInt16.toNat_toUInt32]
  omega

end MavChecksum
