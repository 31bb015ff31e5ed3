import Maverick.BlockProofs

/-! # Integer fields of a block

The on-disk structures (log records, log metadata, inodes, index blocks) are C structs of
little-endian integers at fixed byte offsets. `getLe` and `putLe` read and write one such field of
a block; a field reads back what was last put there, and is not touched by a write beside it. -/

namespace MavField

open MavBlock

/-- The `n` little-endian bytes of `v`. -/
def leBytes : Nat → Nat → List UInt8
  | 0, _ => []
  | n + 1, v => UInt8.ofNat v :: leBytes n (v / 256)

/-- The number with these little-endian bytes. -/
def leNat : List UInt8 → Nat
  | [] => 0
  | b :: bs => b.toNat + 256 * leNat bs

@[simp] theorem length_leBytes : ∀ n v, (leBytes n v).length = n := by
  intro n
  induction n with
  | zero => intro v; rfl
  | succ n ih =>
    intro v
    show (leBytes n (v / 256)).length + 1 = n + 1
    rw [ih]

/-- The bytes hold the value modulo the width of the field. -/
theorem leNat_leBytes : ∀ n v, leNat (leBytes n v) = v % 256 ^ n := by
  intro n
  induction n with
  | zero => intro v; exact (Nat.mod_one v).symm
  | succ n ih =>
    intro v
    show (UInt8.ofNat v).toNat + 256 * leNat (leBytes n (v / 256)) = v % 256 ^ (n + 1)
    rw [ih, Nat.pow_succ, Nat.mul_comm (256 ^ n) 256, Nat.mod_mul, UInt8.toNat_ofNat']

theorem leNat_lt : ∀ bs : List UInt8, leNat bs < 256 ^ bs.length := by
  intro bs
  induction bs with
  | nil => exact Nat.one_pos
  | cons b bs ih =>
    have hb : b.toNat < 256 := b.toNat_lt
    show b.toNat + 256 * leNat bs < 256 ^ (bs.length + 1)
    omega

/-- Read the `n`-byte field at byte `ofs`. -/
def getLe (b : Block) (ofs n : Nat) : Nat := leNat (bytesAt b ofs n)

/-- Write the `n`-byte field at byte `ofs`. -/
def putLe (b : Block) (ofs n v : Nat) : Block := memcpyInto b ofs (leBytes n v)

variable {n ofs ofs' : Nat} {b : Block}

/-- A field reads back what was put, cut to its width. -/
theorem getLe_putLe (b : Block) (v : Nat) (h : ofs + n ≤ 512) :
    getLe (putLe b ofs n v) ofs n = v % 256 ^ n := by
  have hb : bytesAt (putLe b ofs n v) ofs n = leBytes n v := by
    have hlen : ofs + (leBytes n v).length ≤ 512 := by rw [length_leBytes]; exact h
    have hl := bytesAt_memcpyInto b hlen
    rw [length_leBytes] at hl
    exact hl
  show leNat (bytesAt (putLe b ofs n v) ofs n) = _
  rw [hb, leNat_leBytes]

theorem getLe_putLe_of_lt (b : Block) {v : Nat} (h : ofs + n ≤ 512)
    (hv : v < 256 ^ n) : getLe (putLe b ofs n v) ofs n = v := by
  rw [getLe_putLe b v h, Nat.mod_eq_of_lt hv]

/-- A range is not touched by a copy beside it. -/
theorem bytesAt_memcpyInto_disjoint {len : Nat}
    {data : List UInt8} (h : ofs + len ≤ ofs' ∨ ofs' + data.length ≤ ofs) :
    bytesAt (memcpyInto b ofs' data) ofs len = bytesAt b ofs len := by
  refine bytesAt_congr ?_
  intro i hlo hhi
  refine memcpyInto_outside ?_
  omega

theorem getLe_memcpyInto_disjoint
    {data : List UInt8} (h : ofs + n ≤ ofs' ∨ ofs' + data.length ≤ ofs) :
    getLe (memcpyInto b ofs' data) ofs n = getLe b ofs n :=
  congrArg leNat (bytesAt_memcpyInto_disjoint h)

theorem getLe_putLe_disjoint {n' v : Nat} (h : ofs + n ≤ ofs' ∨ ofs' + n' ≤ ofs) :
    getLe (putLe b ofs' n' v) ofs n = getLe b ofs n :=
  getLe_memcpyInto_disjoint (by rw [length_leBytes]; exact h)

theorem bytesAt_putLe_disjoint {len n' v : Nat} (h : ofs + len ≤ ofs' ∨ ofs' + n' ≤ ofs) :
    bytesAt (putLe b ofs' n' v) ofs len = bytesAt b ofs len :=
  bytesAt_memcpyInto_disjoint (by rw [length_leBytes]; exact h)

theorem getLe_lt (b : Block) (ofs n : Nat) : getLe b ofs n < 256 ^ n := by
  have h := leNat_lt (bytesAt b ofs n)
  rw [length_bytesAt] at h
  exact h

end MavField
