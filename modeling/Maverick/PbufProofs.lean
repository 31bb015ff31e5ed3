import Maverick.ChecksumProofs

/-! # Packet buffers — a window on memory, and what is read through it

`payload` points into a block of memory, `len` bytes from there on are the packet. A buffer here is
its memory cut in three: the room before the payload, the packet, and whatever lies behind it.
`pbuf_header` moves the first cut.

The parsers are scans: they read fields at offsets from the payload and leave a log of these
accesses, each with the `len` at that moment. A scan is in bounds if none of its accesses goes past
that `len`. -/

namespace MavPbuf

open MavChecksum List

/-! ## Fields in memory -/

/-- A `uint16_t` as it lies in memory. -/
def le16 (v : UInt16) : List UInt8 := [v.toUInt8, (v >>> 8).toUInt8]

/-- A `uint32_t` as it lies in memory. -/
def le32 (v : UInt32) : List UInt8 :=
  [v.toUInt8, (v >>> 8).toUInt8, (v >>> 16).toUInt8, (v >>> 24).toUInt8]

def ofLe16 (b0 b1 : UInt8) : UInt16 := b0.toUInt16 ||| (b1.toUInt16 <<< 8)

def ofLe32 (b0 b1 b2 b3 : UInt8) : UInt32 :=
  b0.toUInt32 ||| (b1.toUInt32 <<< 8) ||| (b2.toUInt32 <<< 16) ||| (b3.toUInt32 <<< 24)

@[simp] theorem length_le16 (v : UInt16) : (le16 v).length = 2 := rfl

@[simp] theorem length_le32 (v : UInt32) : (le32 v).length = 4 := rfl

theorem toNat_ofLe16 (b0 b1 : UInt8) : (ofLe16 b0 b1).toNat = b1.toNat * 256 + b0.toNat := by
  have h1 := b1.toNat_lt
  have hshift : (b1.toUInt16 <<< 8).toNat = b1.toNat <<< 8 := by
    rw [UInt16.toNat_shiftLeft, show (8 : UInt16).toNat % 16 = 8 from rfl, UInt8.toNat_toUInt16,
      Nat.shiftLeft_eq]
    omega
  rw [ofLe16, UInt16.toNat_or, hshift, UInt8.toNat_toUInt16, Nat.or_comm,
    ← Nat.shiftLeft_add_eq_or_of_lt (show b0.toNat < 2 ^ 8 from b0.toNat_lt), Nat.shiftLeft_eq]

theorem toNat_byte_of_shiftRight (v : UInt16) : (v >>> 8).toUInt8.toNat = v.toNat / 256 := by
  have hv := v.toNat_lt
  rw [UInt16.toNat_toUInt8, UInt16.toNat_shiftRight, show (8 : UInt16).toNat % 16 = 8 from rfl,
    Nat.shiftRight_eq_div_pow]
  omega

/-- What was written as a `uint16_t` is read back. -/
theorem ofLe16_le16 (v : UInt16) : ofLe16 v.toUInt8 (v >>> 8).toUInt8 = v := by
  refine UInt16.toNat_inj.mp ?_
  rw [toNat_ofLe16, toNat_byte_of_shiftRight, UInt16.toNat_toUInt8]
  omega

theorem toNat_byte_of_shiftRight32 (v : UInt32) {s : UInt32} {k : Nat} (hs : s.toNat % 32 = k) :
    (v >>> s).toUInt8.toNat = v.toNat / 2 ^ k % 256 := by
  rw [UInt32.toNat_toUInt8, UInt32.toNat_shiftRight, hs, Nat.shiftRight_eq_div_pow]

theorem toNat_shiftLeft_byte (b : UInt8) {s : UInt32} {k : Nat} (hs : s.toNat % 32 = k) (hk : k ≤ 24) :
    (b.toUInt32 <<< s).toNat = b.toNat <<< k := by
  have hb : b.toNat < 2 ^ 8 := b.toNat_lt
  rw [UInt32.toNat_shiftLeft, hs, UInt8.toNat_toUInt32]
  refine Nat.mod_eq_of_lt ?_
  rw [Nat.shiftLeft_eq]
  calc b.toNat * 2 ^ k < 2 ^ 8 * 2 ^ k := Nat.mul_lt_mul_of_pos_right hb (Nat.two_pow_pos k)
    _ = 2 ^ (8 + k) := (Nat.pow_add 2 8 k).symm
    _ ≤ 2 ^ 32 := Nat.pow_le_pow_right (by decide) (by omega)

theorem toNat_ofLe32 (b0 b1 b2 b3 : UInt8) :
    (ofLe32 b0 b1 b2 b3).toNat =
      b3.toNat * 16777216 + (b2.toNat * 65536 + (b1.toNat * 256 + b0.toNat)) := by
  have h0 : b0.toNat < 2 ^ 8 := b0.toNat_lt
  have h1 : b1.toNat < 2 ^ 8 := b1.toNat_lt
  have h2 : b2.toNat < 2 ^ 8 := b2.toNat_lt
  -- each byte is shifted past the ones below it
  have h01 : b0.toNat ||| b1.toNat <<< 8 = b1.toNat * 256 + b0.toNat := by
    rw [Nat.or_comm, ← Nat.shiftLeft_add_eq_or_of_lt h0, Nat.shiftLeft_eq]
  have h012 : b1.toNat * 256 + b0.toNat ||| b2.toNat <<< 16 =
      b2.toNat * 65536 + (b1.toNat * 256 + b0.toNat) := by
    rw [Nat.or_comm, ← Nat.shiftLeft_add_eq_or_of_lt (by omega), Nat.shiftLeft_eq]
  rw [ofLe32, UInt32.toNat_or, UInt32.toNat_or, UInt32.toNat_or, UInt8.toNat_toUInt32,
    toNat_shiftLeft_byte b1 (k := 8) rfl (by decide), toNat_shiftLeft_byte b2 (k := 16) rfl (by decide),
    toNat_shiftLeft_byte b3 (k := 24) rfl (by decide), h01, h012, Nat.or_comm,
    ← Nat.shiftLeft_add_eq_or_of_lt (by omega), Nat.shiftLeft_eq]

/-- What was written as a `uint32_t` is read back. -/
theorem ofLe32_le32 (v : UInt32) :
    ofLe32 v.toUInt8 (v >>> 8).toUInt8 (v >>> 16).toUInt8 (v >>> 24).toUInt8 = v := by
  have hv := v.toNat_lt
  refine UInt32.toNat_inj.mp ?_
  rw [toNat_ofLe32, toNat_byte_of_shiftRight32 v (s := 8) (k := 8) rfl,
    toNat_byte_of_shiftRight32 v (s := 16) (k := 16) rfl,
    toNat_byte_of_shiftRight32 v (s := 24) (k := 24) rfl, UInt32.toNat_toUInt8]
  omega

/-- A field in network order adds its host order value to the checksum. -/
theorem wordSum_le16 (v : UInt16) (bs : List UInt8) :
    wordSum (le16 v ++ bs) = (ntohs v).toNat + wordSum bs := by
  show v.toUInt8.toNat * 256 + (v >>> 8).toUInt8.toNat + wordSum bs = _
  rw [toNat_byte_of_shiftRight, UInt16.toNat_toUInt8, ntohs, toNat_htons]

/-! ## Filling in a checksum -/

/-- The bytes with `v` stored at `pos`. -/
def withField (data : List UInt8) (pos : Nat) (v : UInt16) : List UInt8 :=
  data.take pos ++ (le16 v ++ data.drop (pos + 2))

theorem wordSum_append (as bs : List UInt8) (h : as.length % 2 = 0) :
    wordSum (as ++ bs) = wordSum as + wordSum bs := by
  induction as using wordSum.induct with
  | case1 b0 b1 as ih =>
    have hrest := ih ((Nat.add_mod_right ..).symm.trans h)
    rw [cons_append, cons_append, wordSum, wordSum, hrest]
    omega
  | case2 b0 => exact absurd h Nat.one_ne_zero
  | case3 => exact (Nat.zero_add _).symm

theorem checksumPartial_append (as bs : List UInt8) (sum : UInt32) (h : as.length % 2 = 0) :
    checksumPartial (as ++ bs) sum = checksumPartial bs (checksumPartial as sum) := by
  induction as, sum using checksumPartial.induct with
  | case1 b0 b1 as sum ih =>
    rw [cons_append, cons_append, checksumPartial, checksumPartial,
      ih ((Nat.add_mod_right ..).symm.trans h)]
  | case2 b0 sum => exact absurd h Nat.one_ne_zero
  | case3 sum => rfl

/-- Messages of at most 65535 bytes do not overflow the sum. -/
theorem toNat_checksumPartial_zero {bs : List UInt8} (h : bs.length ≤ 65535) :
    (checksumPartial bs 0).toNat = wordSum bs := by
  have hw := wordSum_le bs
  rw [toNat_checksumPartial, show (0 : UInt32).toNat = 0 from rfl, Nat.zero_add]
  exact Nat.mod_eq_of_lt (by omega)

/-- **CHECKSUMS VERIFY**: a message with its checksum filled in at an even place
    passes the test; no sum overflows, folding ends, and a sum may be taken in
    two parts. -/
theorem checksum_verifies (data : List UInt8) (hlen : data.length ≤ 65535) :
    (∀ pos, pos % 2 = 0 → pos + 2 ≤ data.length →
      checksum (withField data pos (checksum (withField data pos 0))) = 0) ∧
    (∀ k, (checksumPartial (data.take k) 0).toNat = wordSum (data.take k)) ∧
    (∀ sum, ∃ rounds, foldLoop rounds sum >>> 16 = 0) ∧
    ∀ as bs sum, data = as ++ bs → as.length % 2 = 0 →
      checksumPartial data sum = checksumPartial bs (checksumPartial as sum) := by
  refine ⟨fun pos heven hin => ?_, fun k => ?_, fun sum => ⟨2, foldLoop_done sum⟩, ?_⟩
  · have hsum : ∀ v, (checksumPartial (withField data pos v) 0).toNat =
        wordSum (data.take pos) + ((ntohs v).toNat + wordSum (data.drop (pos + 2))) := by
      intro v
      have htake : (data.take pos).length = pos := length_take_of_le (by omega)
      rw [toNat_checksumPartial_zero, withField, wordSum_append _ _ (by rw [htake, heven]),
        wordSum_le16]
      simp only [withField, length_append, htake, length_le16, length_drop]
      omega
    have hzero := hsum 0
    have hfull := hsum (checksum (withField data pos 0))
    rw [show (ntohs 0).toNat = 0 from rfl, Nat.zero_add] at hzero
    obtain ⟨hmod, hiff⟩ := foldLoop_mod 2 (checksumPartial (withField data pos 0) 0)
    have hlt := foldLoop_lt (checksumPartial (withField data pos 0) 0)
    rw [checksum, toNat_checksumFinish] at hfull
    rw [checksum, checksumFinish_eq_zero, checksum, hfull]
    omega
  · exact toNat_checksumPartial_zero (by rw [length_take]; omega)
  · rintro as bs sum rfl heven
    exact checksumPartial_append as bs sum heven

/-- A message of three bytes, with the checksum in front. -/
theorem checksum_verifies_odd :
    checksum (withField [1, 2, 3] 0 (checksum (withField [1, 2, 3] 0 0))) = 0 :=
  (checksum_verifies [1, 2, 3] (by decide)).1 0 rfl (by decide)

/-! ## Buffers -/

inductive PbufType where
  | ram
  | ref
  deriving DecidableEq, Repr

/-- `struct pbuf` of a chain of one, and the memory around its payload. -/
structure Pbuf where
  /-- The memory from the end of the structure up to the payload. -/
  before : List UInt8
  data : List UInt8
  /-- The memory behind the packet. -/
  after : Nat → UInt8
  totLen : Nat
  type : PbufType
  ref : Nat

/-- `len`, a `uint16_t`. -/
def Pbuf.len (p : Pbuf) : Nat := p.data.length % 2 ^ 16

/-- `pbuf_header`; `none` where it answers false. -/
def pbufHeader (p : Pbuf) (delta : Int) : Option Pbuf :=
  if delta < 0 then
    match p.type with
    | .ref => none
    | .ram =>
      if p.before.length < delta.natAbs then none
      else
        let cut := p.before.length - delta.natAbs
        some { p with
          before := p.before.take cut
          data := p.before.drop cut ++ p.data
          totLen := (p.totLen + delta.natAbs) % 2 ^ 16 }
  else if 0 < delta then
    if p.len < delta.natAbs then none
    else
      some { p with
        before := p.before ++ p.data.take delta.natAbs
        data := p.data.drop delta.natAbs
        totLen := (p.totLen + 2 ^ 16 - delta.natAbs) % 2 ^ 16 }
  else some p

/-- The assignment to `len` in `ip_input` that cuts off padding. -/
def Pbuf.trim (p : Pbuf) (n : Nat) : Pbuf :=
  { p with
    data := p.data.take n
    after := fun i => (p.data.drop n).getD i (p.after (i - (p.data.drop n).length))
    totLen := n }

/-- Writing over the first bytes of the packet, and over what lies behind it when there are more. -/
def Pbuf.write (p : Pbuf) (bs : List UInt8) : Pbuf :=
  { p with
    data := (bs ++ p.data.drop bs.length).take p.data.length
    after := fun i => (bs.drop p.data.length).getD i (p.after i) }

/-- The byte at an offset from the payload, in the packet or not. -/
def Pbuf.byte (p : Pbuf) (i : Nat) : UInt8 := p.data.getD i (p.after (i - p.data.length))

def Pbuf.bytes (p : Pbuf) (i n : Nat) : List UInt8 := (range n).map fun k => p.byte (i + k)

def Pbuf.get16 (p : Pbuf) (i : Nat) : UInt16 := ofLe16 (p.byte i) (p.byte (i + 1))

def Pbuf.get32 (p : Pbuf) (i : Nat) : UInt32 :=
  ofLe32 (p.byte i) (p.byte (i + 1)) (p.byte (i + 2)) (p.byte (i + 3))

variable {p : Pbuf} {n : Nat}

@[simp] theorem Pbuf.length_write (p : Pbuf) (bs : List UInt8) :
    (p.write bs).data.length = p.data.length := by
  rw [Pbuf.write, length_take, length_append, length_drop]
  omega

/-- A write that stays in the packet. -/
theorem Pbuf.write_of_le {bs : List UInt8} (h : bs.length ≤ p.data.length) :
    p.write bs = { p with data := bs ++ p.data.drop bs.length } := by
  have hlen : (bs ++ p.data.drop bs.length).length ≤ p.data.length := by
    rw [length_append, length_drop]
    omega
  rw [Pbuf.write, take_of_length_le hlen, drop_of_length_le h]
  rfl

theorem Pbuf.len_eq (h : p.data.length < 2 ^ 16) : p.len = p.data.length :=
  Nat.mod_eq_of_lt h

/-- Adding a header of `n` bytes takes them from the room before the payload. -/
theorem pbufHeader_neg {q : Pbuf} (hn : 0 < n) (h : pbufHeader p (-(n : Int)) = some q) :
    p.type = .ram ∧ n ≤ p.before.length ∧
      q = { p with
        before := p.before.take (p.before.length - n)
        data := p.before.drop (p.before.length - n) ++ p.data
        totLen := (p.totLen + n) % 2 ^ 16 } := by
  have hneg : -(n : Int) < 0 := by omega
  rw [pbufHeader, if_pos hneg, Int.natAbs_neg, Int.natAbs_natCast] at h
  split at h
  · exact nomatch h
  · next ht =>
      split at h
      · exact nomatch h
      · next hroom => exact ⟨ht, Nat.le_of_not_lt hroom, (Option.some.inj h).symm⟩

theorem pbufHeader_pos_of_le (hn : 0 < n) (h : n ≤ p.len) : pbufHeader p (n : Int) = some { p with
      before := p.before ++ p.data.take n
      data := p.data.drop n
      totLen := (p.totLen + 2 ^ 16 - n) % 2 ^ 16 } := by
  rw [pbufHeader, if_neg (by omega), if_pos (by omega), Int.natAbs_natCast,
    if_neg (Nat.not_lt.mpr h)]

/-! ## Scans -/

/-- An access to `size` bytes at an offset from the payload, and `len` at that moment. -/
structure Access where
  start : Nat
  size : Nat
  len : Nat
  deriving DecidableEq, Repr

def Access.InBounds (a : Access) : Prop := a.start + a.size ≤ a.len
deriving Decidable

/-- What a scan leaves: its answer, the buffer and the log. -/
structure Scanned (α : Type) where
  val : α
  buf : Pbuf
  log : List Access

/-- A function that looks at a buffer and moves its payload pointer. -/
structure Scan (α : Type) where
  run : Pbuf → Scanned α

instance : Monad Scan where
  pure a := ⟨fun p => ⟨a, p, []⟩⟩
  bind m f := ⟨fun p =>
    let r := m.run p
    let r' := (f r.val).run r.buf
    ⟨r'.val, r'.buf, r.log ++ r'.log⟩⟩

variable {α β : Type}

namespace Scan

def len : Scan Nat := ⟨fun p => ⟨p.len, p, []⟩⟩

/-- `p->tot_len`. -/
def totLen : Scan Nat := ⟨fun p => ⟨p.totLen, p, []⟩⟩

def get8 (i : Nat) : Scan UInt8 := ⟨fun p => ⟨p.byte i, p, [⟨i, 1, p.len⟩]⟩⟩

def get16 (i : Nat) : Scan UInt16 := ⟨fun p => ⟨p.get16 i, p, [⟨i, 2, p.len⟩]⟩⟩

def get32 (i : Nat) : Scan UInt32 := ⟨fun p => ⟨p.get32 i, p, [⟨i, 4, p.len⟩]⟩⟩

def bytes (i n : Nat) : Scan (List UInt8) := ⟨fun p => ⟨p.bytes i n, p, [⟨i, n, p.len⟩]⟩⟩

/-- `checksum_partial(p->payload, n, sum)`. -/
def sum (n : Nat) (sum : UInt32) : Scan UInt32 :=
  ⟨fun p => ⟨checksumPartial (p.bytes 0 n) sum, p, [⟨0, n, p.len⟩]⟩⟩

/-- Assignments to the first bytes. -/
def write (bs : List UInt8) : Scan Unit := ⟨fun p => ⟨(), p.write bs, [⟨0, bs.length, p.len⟩]⟩⟩

def trim (n : Nat) : Scan Unit := ⟨fun p => ⟨(), p.trim n, []⟩⟩

/-- `pbuf_header(p, n)` for a positive `n`. -/
def strip (n : Nat) : Scan Bool := ⟨fun p =>
  match pbufHeader p (n : Int) with
  | some q => ⟨true, q, []⟩
  | none => ⟨false, p, []⟩⟩

end Scan

/-- No access of the scan leaves the packet. -/
def InBounds (m : Scan α) (p : Pbuf) : Prop := ∀ a ∈ (m.run p).log, a.InBounds

/-- The answer and the buffer. -/
def Scan.eval (m : Scan α) (p : Pbuf) : α × Pbuf := ((m.run p).val, (m.run p).buf)

@[simp] theorem eval_pure (a : α) (p : Pbuf) : (pure a : Scan α).eval p = (a, p) := rfl

theorem eval_bind (m : Scan α) (f : α → Scan β) (p : Pbuf) :
    (m >>= f).eval p = (f (m.eval p).1).eval (m.eval p).2 := rfl

@[simp] theorem inBounds_pure (a : α) (p : Pbuf) : InBounds (pure a : Scan α) p ↔ True :=
  ⟨fun _ => trivial, nofun⟩

/-- The accesses of two scans in a row. -/
theorem inBounds_bind (m : Scan α) (f : α → Scan β) (p : Pbuf) :
    InBounds (m >>= f) p ↔ InBounds m p ∧ InBounds (f (m.eval p).1) (m.eval p).2 :=
  forall_mem_append

/-- The scan is in bounds, and its answer and buffer meet `Q`. -/
def Meets (m : Scan α) (p : Pbuf) (Q : α → Pbuf → Prop) : Prop :=
  InBounds m p ∧ Q (m.eval p).1 (m.eval p).2

@[simp] theorem meets_pure (a : α) (p : Pbuf) (Q : α → Pbuf → Prop) :
    Meets (pure a) p Q ↔ Q a p := by
  rw [Meets, inBounds_pure, eval_pure, true_and]

theorem meets_bind (m : Scan α) (f : α → Scan β) (p : Pbuf) (Q : β → Pbuf → Prop) :
    Meets (m >>= f) p Q ↔ Meets m p fun a q => Meets (f a) q Q := by
  rw [Meets, inBounds_bind, eval_bind]
  exact and_assoc

variable {m : Scan α}

theorem Meets.imp {Q Q' : α → Pbuf → Prop} (h : Meets m p Q)
    (hQ : ∀ a q, Q a q → Q' a q) : Meets m p Q' :=
  ⟨h.1, hQ _ _ h.2⟩

/-- A condition of the source splits the proof. -/
theorem meets_ite {c : Prop} [Decidable c] {m' : Scan α} {Q : α → Pbuf → Prop} :
    Meets (if c then m else m') p Q ↔ (c → Meets m p Q) ∧ (¬ c → Meets m' p Q) := by
  by_cases hc : c <;> simp [hc]

/-- The first access of a scan, and the rest of it. -/
theorem meets_access {f : α → Scan β} {i len : Nat}
    {Q : β → Pbuf → Prop} (h : (m.run p).log = [⟨i, n, len⟩]) :
    Meets (m >>= f) p Q ↔ i + n ≤ len ∧ Meets (f (m.eval p).1) (m.eval p).2 Q := by
  have hm : InBounds m p ↔ i + n ≤ len := by
    rw [InBounds, h]
    exact ⟨fun hb => hb _ (mem_singleton_self _), fun hb b hm => mem_singleton.mp hm ▸ hb⟩
  rw [meets_bind, Meets, hm]

/-- A first step without an access. -/
theorem meets_silent {f : α → Scan β} {Q : β → Pbuf → Prop} (h : (m.run p).log = []) :
    Meets (m >>= f) p Q ↔ Meets (f (m.eval p).1) (m.eval p).2 Q := by
  have hm : InBounds m p := by
    rw [InBounds, h]
    exact nofun
  rw [meets_bind, Meets]
  exact ⟨And.right, fun hf => ⟨hm, hf⟩⟩

section

variable (f : Nat → Scan β) (g : UInt8 → Scan β) (g16 : UInt16 → Scan β) (g32 : UInt32 → Scan β)
  (gs : List UInt8 → Scan β) (k : Unit → Scan β) (i n : Nat) (init : UInt32) (bs : List UInt8)
  (p : Pbuf) (Q : β → Pbuf → Prop)

@[simp] theorem meets_len : Meets (Scan.len >>= f) p Q ↔ Meets (f p.len) p Q := meets_silent rfl

@[simp] theorem meets_totLen : Meets (Scan.totLen >>= f) p Q ↔ Meets (f p.totLen) p Q :=
  meets_silent rfl

@[simp] theorem meets_get8 :
    Meets (Scan.get8 i >>= g) p Q ↔ i + 1 ≤ p.len ∧ Meets (g (p.byte i)) p Q :=
  meets_access rfl

@[simp] theorem meets_get16 :
    Meets (Scan.get16 i >>= g16) p Q ↔ i + 2 ≤ p.len ∧ Meets (g16 (p.get16 i)) p Q :=
  meets_access rfl

@[simp] theorem meets_get32 :
    Meets (Scan.get32 i >>= g32) p Q ↔ i + 4 ≤ p.len ∧ Meets (g32 (p.get32 i)) p Q :=
  meets_access rfl

@[simp] theorem meets_bytes :
    Meets (Scan.bytes i n >>= gs) p Q ↔ i + n ≤ p.len ∧ Meets (gs (p.bytes i n)) p Q :=
  meets_access rfl

@[simp] theorem meets_sum :
    Meets (Scan.sum n init >>= g32) p Q ↔
      0 + n ≤ p.len ∧ Meets (g32 (checksumPartial (p.bytes 0 n) init)) p Q :=
  meets_access rfl

@[simp] theorem meets_write :
    Meets (Scan.write bs >>= k) p Q ↔ 0 + bs.length ≤ p.len ∧ Meets (k ()) (p.write bs) Q :=
  meets_access rfl

@[simp] theorem eval_len : (Scan.len >>= f).eval p = (f p.len).eval p := eval_bind ..

@[simp] theorem eval_get16 : (Scan.get16 i >>= g16).eval p = (g16 (p.get16 i)).eval p := eval_bind ..

@[simp] theorem eval_sum :
    (Scan.sum n init >>= g32).eval p = (g32 (checksumPartial (p.bytes 0 n) init)).eval p := eval_bind ..

end

theorem log_strip (n : Nat) (p : Pbuf) : ((Scan.strip n).run p).log = [] := by
  simp only [Scan.strip]
  split <;> rfl

/-- A header that fits is stripped. -/
theorem eval_strip (hn : 0 < n) (h : n ≤ p.len) : (Scan.strip n).eval p = (true, { p with
        before := p.before ++ p.data.take n
        data := p.data.drop n
        totLen := (p.totLen + 2 ^ 16 - n) % 2 ^ 16 }) := by
  rw [Scan.eval]
  simp only [Scan.strip]
  rw [pbufHeader_pos_of_le hn h]

end MavPbuf
