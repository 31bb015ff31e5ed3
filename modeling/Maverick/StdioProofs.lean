import Maverick.RunProofs

/-! # Buffered streams — the user-space stdio library and its output side

A stream keeps a buffer `buf` of `bufsiz` bytes, a pointer `ptr` into it and a count `cnt`, which is
the read-ahead of an input stream and the room left of an output stream. The buffer is allocated on
first use, may fall back to the one byte `smallbuf` in the stream itself, and is reset by
`__flushbuf` and by `fflush`.

The mode tests have to be read after preprocessing. `stdio_impl.h` defines `_IOLBF` and `_IONBF` as
the flag bits 0x80 and 0x100, but every source file includes `<stdio.h>` after it, which defines
them again as the public `setvbuf` modes 1 and 2. So `flags & _IONBF` tests bit 2, which is
`_IOWRITE`, and `flags & _IOLBF` tests bit 1, which is `_IOREAD`: every stream open for writing only
takes the unbuffered path of `__flushbuf`, and the line-buffered path is taken by a stream with the
read bit. `fflush` opens the buffer nevertheless (it sets `cnt` to `bufsiz`), and a byte that
arrives when the buffer is full then overtakes the bytes in it.

Descriptors: a write is taken in full, a read may be short. The bytes sent and a flag for a store
outside the buffer are recorded beside the fields of the source. -/

namespace MavStdio

open MavRun List

/-! ## The stream -/

/-- The bits of `flags`, in the order of their values 1, 2, 4, 0x10, 0x20, 0x40, 0x80 and 0x100. -/
structure Flags where
  read : Bool := false
  write : Bool := false
  rw : Bool := false
  eof : Bool := false
  err : Bool := false
  myBuf : Bool := false
  lineBuf : Bool := false
  unbuf : Bool := false
  deriving DecidableEq

/-- The value of `flags`. -/
def Flags.bits (f : Flags) : Nat :=
  f.read.toNat + 2 * f.write.toNat + 4 * f.rw.toNat + 0x10 * f.eof.toNat + 0x20 * f.err.toNat
    + 0x40 * f.myBuf.toNat + 0x80 * f.lineBuf.toNat + 0x100 * f.unbuf.toNat

/-- The test `flags & _IONBF`, with `_IONBF` the 2 of `<stdio.h>`. -/
def Flags.nbf (f : Flags) : Bool := f.write

/-- The test `flags & _IOLBF`, with `_IOLBF` the 1 of `<stdio.h>`. -/
def Flags.lbf (f : Flags) : Bool := f.read

/-- The two tests are the ones the compiled code makes. -/
theorem nbf_lbf_bits (f : Flags) :
    f.nbf = (f.bits &&& 2 != 0) ∧ f.lbf = (f.bits &&& 1 != 0) := by
  obtain ⟨read, write, rw, eof, err, myBuf, lineBuf, unbuf⟩ := f
  cases read <;> cases write <;> cases rw <;> cases eof <;> cases err <;> cases myBuf <;>
    cases lineBuf <;> cases unbuf <;> exact ⟨rfl, rfl⟩

/-- A stream with the descriptor under it. `buf` is `none` for NULL and the number of bytes behind
    the pointer otherwise, `mem` those bytes, `ptr` the offset of the pointer. `sched` is the size
    the kernel returns for the `reads`-th read where it can. -/
structure Stream where
  flags : Flags
  buf : Option Nat
  mem : Nat → UInt8
  ptr : Nat
  cnt : Int
  bufsiz : Int
  ungetcBuf : Option UInt8
  mallocOk : Bool
  contents : List UInt8
  pos : Nat
  sched : Nat → Nat
  reads : Nat
  sent : List UInt8
  overrun : Bool

/-- Conversion to a 32-bit `int`. -/
def int32 (x : Int) : Int := (x + 2 ^ 31) % 2 ^ 32 - 2 ^ 31

def stdioBufsiz : Nat := 512

/-- The conversion `(unsigned char) c`. -/
def byteOf (c : Int) : UInt8 := UInt8.ofNat (c % 256).toNat

/-- A `char`, signed on i386, as the `int` that is passed for it. -/
def charOf (b : UInt8) : Int := if b.toNat < 128 then b.toNat else b.toNat - 256

@[simp] theorem byteOf_toNat (b : UInt8) : byteOf (b.toNat : Int) = b := by
  have hb : b.toNat < 256 := b.toNat_lt
  have hmod : ((b.toNat : Int) % 256).toNat = b.toNat := by omega
  rw [byteOf, hmod]
  exact UInt8.ofNat_toNat

/-- `data` written over `contents` at `pos`, with zeros in a gap. -/
def overwrite (contents : List UInt8) (pos : Nat) (data : List UInt8) : List UInt8 :=
  contents.take pos ++ List.replicate (pos - contents.length) 0 ++ data
    ++ contents.drop (pos + data.length)

/-- A write system call, taken in full. -/
def Stream.sysWrite (s : Stream) (data : List UInt8) : Stream :=
  { s with contents := overwrite s.contents s.pos data, pos := s.pos + data.length,
           sent := s.sent ++ data }

/-- The bytes of the buffer below `ptr`. -/
def Stream.pending (s : Stream) : List UInt8 := (List.range s.ptr).map s.mem

/-- `*ptr++ = c`. -/
def Stream.store (s : Stream) (c : Int) : Stream :=
  { s with mem := Function.update s.mem s.ptr (byteOf c), ptr := s.ptr + 1,
           overrun := s.overrun || decide (∀ cap ∈ s.buf, cap ≤ s.ptr) }

/-! ## The buffer functions -/

def ensureBuffer (s : Stream) : Stream :=
  if s.buf.isSome then s
  else if s.flags.nbf then { s with buf := some 1, bufsiz := 1, ptr := 0, cnt := 0 }
  else if !s.mallocOk then { s with buf := some 1, bufsiz := 1, ptr := 0, cnt := 0 }
  else { s with buf := some stdioBufsiz, bufsiz := stdioBufsiz,
                flags := { s.flags with myBuf := true }, ptr := 0, cnt := 0 }

/-- Write what is pending and reset the buffer: the tail of `fflush` and the
    middle of `__flushbuf`. -/
def drain (s : Stream) : Stream :=
  let s := if 0 < s.ptr then s.sysWrite s.pending else s
  { s with ptr := 0, cnt := s.bufsiz }

/-- fflush on a stream that is not NULL. -/
def fflush (s : Stream) : Stream :=
  if !(s.flags.write || s.flags.rw) then s
  else if s.buf.isNone then s
  else drain s

def flushbuf (c : Int) (s : Stream) : Int × Stream :=
  let s := ensureBuffer s
  if s.flags.nbf then (c, if 0 ≤ c then s.sysWrite [byteOf c] else s)
  else
    let s := drain s
    if 0 ≤ c then
      let s := s.store c
      let s := { s with cnt := int32 (s.cnt - 1) }
      (c, if s.flags.lbf && c == 10 then fflush s else s)
    else (c, s)

def fputc (c : Int) (s : Stream) : Int × Stream :=
  if 0 < s.cnt then
    let s := s.store c
    let s := { s with cnt := s.cnt - 1 }
    (c, if s.flags.lbf && c == 10 then fflush s else s)
  else flushbuf c s

/-- One byte through `fputc`; the body of the loop of `fwrite` is the same. -/
def put (s : Stream) (b : UInt8) : Stream := (fputc b.toNat s).2

/-- fwrite of the bytes `data`. -/
def fwrite (s : Stream) (data : List UInt8) : Stream := data.foldl put s

/-- fputs: it stops when `fputc` answers EOF, which is -1. -/
def fputs (s : Stream) : List UInt8 → Int × Stream
  | [] => (0, s)
  | b :: text =>
    let r := fputc (charOf b) s
    if r.1 = -1 then (-1, r.2) else fputs r.2 text

/-- `fputc_callback`, with the count so far. -/
def fputcCallback (r : Int × Stream) (b : UInt8) : Int × Stream :=
  let p := fputc (charOf b) r.2
  (if p.1 = -1 then r.1 else int32 (r.1 + 1), p.2)

/-- `fprintf(f, "%s", text)`: `format_string` has the length as an `int`, and
    fills a negative one up with spaces to the width, which is 0. -/
def fprintfString (s : Stream) (text : List UInt8) : Int × Stream :=
  let length := int32 text.length
  (replicate (-length).toNat 32 ++ text.take length.toNat).foldl fputcCallback (0, s)

/-- setvbuf; `buf` says whether a buffer, of `size` bytes, is passed. -/
def setvbuf (buf : Bool) (mode : Int) (size : Nat) (s : Stream) : Int × Stream :=
  if s.buf.isSome then (-1, s)
  else
    let f := { s.flags with lineBuf := false, unbuf := false, myBuf := false }
    if mode = 0 ∨ mode = 1 then
      let f := if mode = 1 then { f with lineBuf := true } else f
      let s := if buf && decide (0 < size) then { s with buf := some size, bufsiz := int32 size }
        else s
      (0, { s with flags := f, ptr := 0, cnt := 0 })
    else if mode = 2 then
      (0, { s with flags := { f with unbuf := true }, buf := some 1, bufsiz := 1, ptr := 0,
                   cnt := 0 })
    else (-1, { s with flags := f })

/-! ## Streams at their start -/

def parseMode (mode : List Char) : Option Flags :=
  let plus := decide (mode[1]? = some '+' ∨ mode[2]? = some '+')
  match mode with
  | 'r' :: _ => some (if plus then { rw := true } else { read := true })
  | 'w' :: _ => some (if plus then { rw := true } else { write := true })
  | 'a' :: _ => some (if plus then { rw := true } else { write := true })
  | _ => none

/-- alloc_file, on a descriptor and memory in any state. -/
def allocFile (e : Stream) (flags : Flags) : Stream :=
  { e with flags := flags, buf := none, ptr := 0, cnt := 0, bufsiz := 0, ungetcBuf := none,
           sent := [], overrun := false }

/-- fopen where the file can be opened: `w` makes it empty, `a` seeks to its end. -/
def fopen (mode : List Char) (e : Stream) : Option Stream :=
  (parseMode mode).map fun flags =>
    let e := match mode.head? with
      | some 'w' => { e with contents := [], pos := 0 }
      | some 'a' => { e with pos := e.contents.length }
      | _ => { e with pos := 0 }
    allocFile e flags

/-- stdout after __stdio_init: `_IOWRITE | _IOLBF` is 3. -/
def stdout (e : Stream) : Stream := allocFile e { write := true, read := true }

/-- stderr after __stdio_init: `_IOWRITE | _IONBF` is 2, and the one byte buffer is open. -/
def stderr (e : Stream) : Stream :=
  { allocFile e { write := true } with buf := some 1, cnt := 1, bufsiz := 1 }

/-! ## Calls -/

/-- The calls on an output stream. -/
inductive Call where
  | fputc (b : UInt8)
  | fwrite (data : List UInt8)
  | fputs (text : List UInt8)
  | fflush
  deriving DecidableEq

/-- The stream after a call. -/
def call (s : Stream) : Call → Stream
  | .fputc b => put s b
  | .fwrite data => fwrite s data
  | .fputs text => (fputs s text).2
  | .fflush => fflush s

/-- The bytes a call writes. -/
def Call.bytes : Call → List UInt8
  | .fputc b => [b]
  | .fwrite data => data
  | .fputs text => text
  | .fflush => []

/-- Every byte the call writes meets `G` where it is put, and the text of an `fputs` is ASCII. -/
def CallOk (G : Stream → UInt8 → Prop) (s : Stream) : Call → Prop
  | .fputc b => G s b
  | .fwrite data => Guarded (fun s b => some (put s b)) G s data
  | .fputs text => (∀ b ∈ text, b.toNat < 128) ∧ Guarded (fun s b => some (put s b)) G s text
  | .fflush => True

instance CallOk.decidable {G : Stream → UInt8 → Prop} [∀ s b, Decidable (G s b)] (s : Stream) :
    (c : Call) → Decidable (CallOk G s c)
  | .fputc b => inferInstanceAs (Decidable (G s b))
  | .fwrite data => inferInstanceAs (Decidable (Guarded (fun s b => some (put s b)) G s data))
  | .fputs text =>
    let _ : Decidable (∀ b ∈ text, b.toNat < 128) := List.decidableBAll _ text
    inferInstanceAs (Decidable ((∀ b ∈ text, b.toNat < 128) ∧
      Guarded (fun s b => some (put s b)) G s text))
  | .fflush => isTrue trivial

/-- Every call of the run meets `CallOk G`. -/
abbrev CallsOk (G : Stream → UInt8 → Prop) (s : Stream) (calls : List Call) : Prop :=
  Guarded (fun s c => some (call s c)) (CallOk G) s calls

theorem fputc_fst (c : Int) (s : Stream) : (fputc c s).1 = c := by
  rw [fputc, flushbuf]
  split
  · rfl
  · split
    · rfl
    · split <;> rfl

theorem charOf_eq_eof {b : UInt8} : charOf b = -1 ↔ b = 255 := by
  rw [← UInt8.toNat_inj, charOf]
  show _ ↔ b.toNat = 255
  split <;> omega

theorem byteOf_charOf (b : UInt8) : byteOf (charOf b) = b := by
  have hb := b.toNat_lt
  have hmod : charOf b % 256 = b.toNat := by
    rw [charOf]
    split <;> omega
  rw [byteOf, hmod]
  exact UInt8.ofNat_toNat

/-- The byte reaches the stream as a `char`: it is ASCII, or it is not the one
    that reads as EOF and is put where the buffer has room. -/
def Passes (s : Stream) (b : UInt8) : Prop := b.toNat < 128 ∨ b ≠ 255 ∧ 0 < s.cnt
deriving Decidable

theorem Passes.fputc_eq {s : Stream} {b : UInt8} (h : Passes s b) :
    (fputc (charOf b) s).2 = put s b ∧ charOf b ≠ -1 := by
  by_cases hb : b.toNat < 128
  · have hchar : charOf b = b.toNat := if_pos hb
    exact ⟨by rw [hchar]; rfl, by rw [hchar]; omega⟩
  obtain ⟨hne, hroom⟩ := h.resolve_left hb
  have hchar : charOf b = b.toNat - 256 := if_neg hb
  have hlt := b.toNat_lt
  have hnl : (charOf b == 10) = ((b.toNat : Int) == 10) := by
    rw [beq_eq_false_iff_ne.mpr (show charOf b ≠ 10 by omega),
      beq_eq_false_iff_ne.mpr (show (b.toNat : Int) ≠ 10 by omega)]
  refine ⟨?_, mt charOf_eq_eof.mp hne⟩
  rw [put, fputc, fputc, if_pos hroom, if_pos hroom, hnl]
  simp only [Stream.store, byteOf_charOf, byteOf_toNat]

theorem fputs_of_passes (text : List UInt8) : ∀ {s : Stream},
    Guarded (fun s b => some (put s b)) Passes s text → fputs s text = (0, fwrite s text) := by
  induction text with
  | nil => exact fun _ => rfl
  | cons b text ih =>
    intro s hG
    obtain ⟨heq, hne⟩ := hG.1.fputc_eq
    rw [fputs, fputc_fst, if_neg hne, heq]
    exact ih (hG.2 _ rfl)

/-- **CALL RULE**: what one byte put under `G` keeps, and `fflush` keeps, whole
    runs keep, with the bytes they write appended. -/
theorem calls_keep {G : Stream → UInt8 → Prop} {I : List UInt8 → Stream → Prop}
    (hput : ∀ w s b, I w s → G s b → I (w ++ [b]) (put s b))
    (hflush : ∀ w s, I w s → I w (fflush s)) :
    ∀ (calls : List Call) (w : List UInt8) (s : Stream), I w s → CallsOk G s calls →
      I (w ++ calls.flatMap Call.bytes) (calls.foldl call s) := by
  have hbytes : ∀ (data w : List UInt8) (s : Stream), I w s →
      Guarded (fun s b => some (put s b)) G s data → I (w ++ data) (fwrite s data) := by
    intro data
    induction data with
    | nil => intro w s h _; rw [append_nil]; exact h
    | cons b data ih =>
      intro w s h hG
      have hrest := ih (w ++ [b]) (put s b) (hput w s b h hG.1) (hG.2 _ rfl)
      rw [append_assoc] at hrest
      exact hrest
  intro calls
  induction calls with
  | nil => intro w s h _; rw [flatMap_nil, append_nil]; exact h
  | cons c calls ih =>
    intro w s h hG
    have hc : I (w ++ c.bytes) (call s c) := by
      have hok := hG.1
      cases c with
      | fputc b => exact hput w s b h hok
      | fwrite data => exact hbytes data w s h hok
      | fputs text =>
        show I (w ++ text) (fputs s text).2
        rw [fputs_of_passes text (guarded_of_mem text s fun b hb _ => .inl (hok.1 b hb))]
        exact hbytes text w s h hok.2
      | fflush =>
        show I (w ++ []) (fflush s)
        rw [append_nil]
        exact hflush w s h
    have hrest := ih (w ++ c.bytes) (call s c) hc (hG.2 _ rfl)
    rw [append_assoc, ← flatMap_cons] at hrest
    exact hrest

/-! ## Output in order -/

/-- What an output stream keeps while no byte overtakes another: the bytes sent
    followed by the pending ones are the bytes written, the buffer is stored to
    inside its size only, and where `line` is set no newline is pending. -/
structure Sending (line : Bool) (w : List UInt8) (s : Stream) : Prop where
  write : s.flags.write = true
  order : s.sent ++ s.pending = w
  inside : s.overrun = false
  null : s.buf = none → s.ptr = 0 ∧ s.cnt ≤ 0
  fit : ∀ cap, s.buf = some cap → s.bufsiz ≤ cap ∧ (0 < s.cnt → s.ptr + s.cnt ≤ cap)
  quiet : line = true → (10 : UInt8) ∉ s.pending

variable {s : Stream} {line : Bool} {w : List UInt8}

@[simp] theorem pending_ptr_zero (h : s.ptr = 0) : s.pending = [] := by
  rw [Stream.pending, h]
  rfl

theorem pending_store (s : Stream) (c : Int) :
    (s.store c).pending = s.pending ++ [byteOf c] := by
  show (List.range (s.ptr + 1)).map (Function.update s.mem s.ptr (byteOf c)) = _
  rw [range_succ, map_append, map_singleton, Function.update_self, Stream.pending]
  congr 1
  refine map_congr_left fun i hi => ?_
  exact Function.update_of_ne (Nat.ne_of_lt (mem_range.mp hi)) _ _

/-- The stream after the pending bytes, if any, are sent. -/
theorem drain_eq (s : Stream) :
    (drain s).sent = s.sent ++ s.pending ∧ (drain s).ptr = 0 ∧ (drain s).cnt = s.bufsiz ∧
      (drain s).flags = s.flags ∧ (drain s).buf = s.buf ∧ (drain s).bufsiz = s.bufsiz ∧
      (drain s).overrun = s.overrun := by
  rw [drain]
  split
  · exact ⟨rfl, rfl, rfl, rfl, rfl, rfl, rfl⟩
  · rename_i h
    refine ⟨?_, rfl, rfl, rfl, rfl, rfl, rfl⟩
    rw [pending_ptr_zero (Nat.eq_zero_of_not_pos h), append_nil]

theorem fflush_of_write (hw : s.flags.write = true) :
    fflush s = if s.buf.isNone then s else drain s := by
  rw [fflush, hw]
  rfl

theorem Sending.fflush (h : Sending line w s) :
    Sending line w (fflush s) ∧ (fflush s).pending = [] := by
  rw [fflush_of_write h.write]
  cases hb : s.buf with
  | none => exact ⟨h, pending_ptr_zero (h.null hb).1⟩
  | some cap =>
    obtain ⟨hsent, hptr, hcnt, hflags, hbuf, hsiz, hover⟩ := drain_eq s
    have hpend := pending_ptr_zero hptr
    refine ⟨⟨hflags ▸ h.write, ?_, hover ▸ h.inside, ?_, ?_, ?_⟩, hpend⟩
    · show (drain s).sent ++ (drain s).pending = w
      rw [hpend, hsent, append_nil]
      exact h.order
    · intro hn
      exact nomatch (hb.symm.trans (hbuf.symm.trans hn))
    · intro cap' hc
      rw [show (if (some cap).isNone = true then s else drain s) = drain s from rfl] at hc ⊢
      have hle := (h.fit cap' (hbuf.symm.trans hc)).1
      rw [hsiz, hptr, hcnt]
      exact ⟨hle, fun _ => by omega⟩
    · intro _
      exact not_mem_nil

/-- A byte put where the buffer has room is pending behind the others. -/
theorem Sending.store (h : Sending line w s) (hroom : 0 < s.cnt) (b : UInt8) :
    Sending false (w ++ [b]) { s.store b.toNat with cnt := s.cnt - 1 } := by
  cases hb : s.buf with
  | none =>
    have := (h.null hb).2
    omega
  | some cap =>
    have hfit := h.fit cap hb
    refine ⟨h.write, ?_, ?_, ?_, ?_, (nomatch ·)⟩
    · show s.sent ++ (s.store b.toNat).pending = w ++ [b]
      rw [pending_store, byteOf_toNat, ← append_assoc, h.order]
    · show (s.overrun || decide (∀ cap ∈ s.buf, cap ≤ s.ptr)) = false
      rw [h.inside, hb, Bool.false_or, decide_eq_false_iff_not]
      intro hall
      have := hall cap rfl
      omega
    · intro hn
      exact nomatch (hb.symm.trans hn)
    · intro cap' hc
      have hcap := h.fit cap' hc
      refine ⟨hcap.1, fun hpos => ?_⟩
      show ((s.ptr + 1 : Nat) : Int) + (s.cnt - 1) ≤ cap'
      omega

/-- A byte put where there is no room goes straight to the descriptor, and
    leaves the pending bytes where they are. -/
theorem flushbuf_direct (hw : s.flags.write = true) (hp : s.ptr = 0) (b : UInt8) :
    (flushbuf b.toNat s).2 = (ensureBuffer s).sysWrite [b] ∧ (ensureBuffer s).ptr = 0 ∧
      (ensureBuffer s).flags = s.flags ∧ (ensureBuffer s).sent = s.sent ∧
      (ensureBuffer s).overrun = s.overrun ∧
      (∃ cap, (ensureBuffer s).buf = some cap ∧
        ((s.buf = some cap ∧ (ensureBuffer s).bufsiz = s.bufsiz ∧ (ensureBuffer s).cnt = s.cnt) ∨
          (cap = 1 ∧ (ensureBuffer s).bufsiz = 1 ∧ (ensureBuffer s).cnt = 0))) := by
  have hens : ensureBuffer s = if s.buf.isSome then s
      else { s with buf := some 1, bufsiz := 1, ptr := 0, cnt := 0 } := by
    rw [ensureBuffer, show s.flags.nbf = true from hw]
    rfl
  have hflags : (ensureBuffer s).flags = s.flags := by
    rw [hens]
    split <;> rfl
  refine ⟨?_, ?_, hflags, ?_, ?_, ?_⟩
  · have hn : (ensureBuffer s).flags.nbf = true := by rw [hflags]; exact hw
    rw [flushbuf, if_pos hn]
    rw [if_pos (Int.natCast_nonneg _), byteOf_toNat]
  · rw [hens]
    split
    · exact hp
    · rfl
  · rw [hens]
    split <;> rfl
  · rw [hens]
    split <;> rfl
  · rw [hens]
    cases hb : s.buf with
    | none => exact ⟨1, rfl, .inr ⟨rfl, rfl, rfl⟩⟩
    | some cap => exact ⟨cap, hb, .inl ⟨rfl, rfl, rfl⟩⟩

theorem Sending.direct (h : Sending line w s) (hfull : s.cnt ≤ 0) (hp : s.ptr = 0) (b : UInt8) :
    Sending line (w ++ [b]) (put s b) ∧ (put s b).ptr = 0 := by
  obtain ⟨heq, hptr, hflags, hsent, hover, cap, hbuf, hcase⟩ := flushbuf_direct h.write hp b
  have hput : put s b = (ensureBuffer s).sysWrite [b] := by
    rw [put, fputc, if_neg (Int.not_lt.mpr hfull)]
    exact heq
  have hpend : (put s b).pending = [] := by
    rw [hput]
    exact pending_ptr_zero hptr
  have hbefore : s.sent = w := by
    have := h.order
    rw [pending_ptr_zero hp, append_nil] at this
    exact this
  refine ⟨⟨?_, ?_, ?_, ?_, ?_, ?_⟩, by rw [hput]; exact hptr⟩
  · rw [hput]
    exact hflags ▸ h.write
  · rw [hpend, hput, append_nil]
    show (ensureBuffer s).sent ++ [b] = w ++ [b]
    rw [hsent, hbefore]
  · rw [hput]
    exact hover.trans h.inside
  · intro hn
    rw [hput] at hn
    exact nomatch (hbuf.symm.trans hn)
  · intro cap' hc
    rw [hput] at hc ⊢
    have hcap : cap' = cap := Option.some.inj (hc.symm.trans hbuf)
    show (ensureBuffer s).bufsiz ≤ cap' ∧
      (0 < (ensureBuffer s).cnt → (ensureBuffer s).ptr + (ensureBuffer s).cnt ≤ cap')
    rcases hcase with ⟨hb, hsiz, hcnt⟩ | ⟨hone, hsiz, hcnt⟩
    · rw [hsiz, hcnt]
      exact ⟨hcap ▸ (h.fit cap hb).1, fun hpos => by omega⟩
    · exact ⟨by omega, fun hpos => by omega⟩
  · intro _
    rw [hpend]
    exact not_mem_nil

/-- The byte does not overtake pending ones: it is put where the buffer has room or is empty. And
    where `line` is set, a newline is put where the stream sends it: past the buffer, or with the
    read bit that `_IOLBF` tests. -/
def InTurn (line : Bool) (s : Stream) (b : UInt8) : Prop :=
  (s.cnt ≤ 0 → s.ptr = 0) ∧ (line = true → b = 10 → s.cnt ≤ 0 ∨ s.flags.lbf = true)
deriving Decidable

theorem Sending.put {b : UInt8}
    (h : Sending line w s) (hturn : InTurn line s b) : Sending line (w ++ [b]) (put s b) := by
  by_cases hroom : 0 < s.cnt
  · have hst := h.store hroom b
    have hput : MavStdio.put s b =
        if s.flags.lbf && ((b.toNat : Int) == 10) then
          MavStdio.fflush { s.store b.toNat with cnt := s.cnt - 1 }
        else { s.store b.toNat with cnt := s.cnt - 1 } := by
      rw [MavStdio.put, fputc, if_pos hroom]
      rfl
    rw [hput]
    split
    · -- the newline of a stream with the read bit: everything is sent
      have hf := hst.fflush
      exact ⟨hf.1.write, hf.1.order, hf.1.inside, hf.1.null, hf.1.fit, fun _ => hf.2 ▸ not_mem_nil⟩
    rename_i hno
    refine { hst with quiet := fun hl => ?_ }
    show (10 : UInt8) ∉ (s.store b.toNat).pending
    rw [pending_store, byteOf_toNat, mem_append, mem_singleton]
    rintro (hold | hb)
    · exact h.quiet hl hold
    · have hlbf := (hturn.2 hl hb.symm).resolve_left (Int.not_le.mpr hroom)
      rw [hlbf, ← hb] at hno
      exact hno rfl
  · exact (h.direct (Int.not_lt.mp hroom) (hturn.1 (Int.not_lt.mp hroom)) b).1

/-- The buffered output streams: stdout, or a file opened with `w` or `a` and given to `setvbuf`
    with mode 0 or 1; the second index says whether it is line buffered. -/
inductive BufferedOutput : Stream → Bool → Prop
  | stdout (e : Stream) : BufferedOutput (stdout e) true
  | file (e f : Stream) (mode : List Char) (buf : Bool) (m : Int) (size : Nat)
      (hmode : mode = ['w'] ∨ mode = ['a']) (hf : fopen mode e = some f)
      (hm : m = 0 ∨ m = 1) : BufferedOutput (setvbuf buf m size f).2 (decide (m = 1))

/-- A stream just opened has nothing pending and no room in its buffer. -/
theorem Sending.start (line : Bool) (hw : s.flags.write = true) (hsent : s.sent = [])
    (hin : s.overrun = false) (hp : s.ptr = 0) (hc : s.cnt ≤ 0)
    (hfit : ∀ cap, s.buf = some cap → s.bufsiz ≤ cap) : Sending line [] s :=
  ⟨hw, by rw [hsent, pending_ptr_zero hp]; rfl, hin, fun _ => ⟨hp, hc⟩,
    fun cap hb => ⟨hfit cap hb, fun hpos => by omega⟩,
    fun _ => by rw [pending_ptr_zero hp]; exact not_mem_nil⟩

theorem int32_le (n : Nat) : int32 n ≤ n := by
  rw [int32]
  omega

/-- A stream of mode `w` or `a` as fopen leaves it. -/
theorem fopen_write {mode : List Char} {e f : Stream} (hmode : mode = ['w'] ∨ mode = ['a'])
    (hf : fopen mode e = some f) : ∃ e', f = allocFile e' { write := true } := by
  rcases hmode with rfl | rfl
  · exact ⟨_, (Option.some.inj hf).symm⟩
  · exact ⟨_, (Option.some.inj hf).symm⟩

/-- setvbuf with mode 0 or 1 on a stream just opened. -/
theorem sending_setvbuf (line buf : Bool) {m : Int} (size : Nat) (e : Stream)
    (hm : m = 0 ∨ m = 1) :
    Sending line [] (setvbuf buf m size (allocFile e { write := true })).2 := by
  have hset : setvbuf buf m size (allocFile e { write := true }) = _ :=
    if_neg (by simp [allocFile])
  rw [hset, if_pos hm]
  have hflags : (if m = 1 then ({ write := true, lineBuf := true } : Flags)
      else { write := true }).write = true := by
    split <;> rfl
  by_cases hb : (buf && decide (0 < size)) = true
  · simp only [hb, if_true]
    exact Sending.start line hflags rfl rfl rfl (Int.le_refl 0)
      fun cap hcap => by cases hcap; exact int32_le size
  · simp only [hb]
    exact Sending.start line hflags rfl rfl rfl (Int.le_refl 0) nofun

theorem BufferedOutput.sending (h : BufferedOutput s line) : Sending line [] s := by
  cases h with
  | stdout e =>
    exact Sending.start true rfl rfl rfl rfl (Int.le_refl 0) nofun
  | file e f mode buf m size hmode hf hm =>
    obtain ⟨e', rfl⟩ := fopen_write hmode hf
    exact sending_setvbuf _ buf size e' hm

/-- **OUTPUT IN ORDER**: on a buffered output stream, in a run whose bytes are
    put in turn, the bytes sent followed by the pending ones are at every moment
    the bytes written so far, the buffer is stored to inside its size only,
    fflush leaves nothing pending, and a line-buffered stream holds no
    newline. -/
theorem buffered_output_in_order {s : Stream} {line : Bool} (hs : BufferedOutput s line)
    (calls : List Call) (hturn : CallsOk (InTurn line) s calls) (n : Nat) :
    ((calls.take n).foldl call s).sent ++ ((calls.take n).foldl call s).pending
        = (calls.take n).flatMap Call.bytes ∧
      ((calls.take n).foldl call s).overrun = false ∧
      (fflush ((calls.take n).foldl call s)).pending = [] ∧
      (line = true → (10 : UInt8) ∉ ((calls.take n).foldl call s).pending) := by
  have hpre : CallsOk (InTurn line) s (calls.take n) := by
    refine guarded_append_left (calls.take n) (calls.drop n) s ?_
    rw [List.take_append_drop]
    exact hturn
  have h := calls_keep (fun _ _ _ h hG => Sending.put h hG) (fun _ _ h => h.fflush.1)
    (calls.take n) [] s hs.sending hpre
  exact ⟨h.order, h.inside, h.fflush.2, h.quiet⟩

/-- Memory and descriptor all zero, used in the concrete runs below. -/
def blank : Stream :=
  { flags := {}, buf := none, mem := fun _ => 0, ptr := 0, cnt := 0, bufsiz := 0,
    ungetcBuf := none, mallocOk := true, contents := [], pos := 0, sched := fun _ => 1,
    reads := 0, sent := [], overrun := false }

/-- Two bytes and a newline on stdout, then one byte after an fflush. -/
theorem buffered_output_stdout :
    (([.fwrite [97, 98], .fputc 10, .fflush, .fputc 99] : List Call).foldl call
        (stdout blank)).sent = [97, 98, 10] ∧
      ((([.fwrite [97, 98], .fputc 10, .fflush, .fputc 99] : List Call).take 4).foldl call
          (stdout blank)).sent ++
        ((([.fwrite [97, 98], .fputc 10, .fflush, .fputc 99] : List Call).take 4).foldl call
          (stdout blank)).pending = [97, 98, 10, 99] :=
  ⟨by decide, (buffered_output_in_order (BufferedOutput.stdout blank)
    [.fwrite [97, 98], .fputc 10, .fflush, .fputc 99] (by decide) 4).1⟩

/-- On stdout a byte written after an fflush waits in the one byte buffer, and
    the next one overtakes it: of `abc`, with an fflush after the `a`, the
    descriptor has `ac` while `b` is pending. -/
theorem stdout_byte_overtakes :
    ¬ ∀ (s : Stream) (line : Bool), BufferedOutput s line → ∀ calls : List Call,
      (calls.foldl call s).sent ++ (calls.foldl call s).pending = calls.flatMap Call.bytes := by
  intro h
  have hrun := h (stdout blank) true (BufferedOutput.stdout blank)
    [.fputc 97, .fflush, .fputc 98, .fputc 99]
  exact absurd hrun (by decide)

/-! ## Unbuffered output -/

/-- The unbuffered output streams: stderr, or a stream for writing made
    unbuffered by `setvbuf`, stdout or opened in any mode that writes. -/
inductive UnbufferedOutput : Stream → Prop
  | stderr (e : Stream) : UnbufferedOutput (stderr e)
  | stdout (e : Stream) (buf : Bool) (size : Nat) :
      UnbufferedOutput (setvbuf buf 2 size (stdout e)).2
  | file (e f : Stream) (mode : List Char) (buf : Bool) (size : Nat)
      (hmode : mode ∈ [['w'], ['a'], ['r', '+'], ['w', '+'], ['a', '+']])
      (hf : fopen mode e = some f) : UnbufferedOutput (setvbuf buf 2 size f).2

/-- The byte is put where the buffer has no room, and on a stream with the
    write bit, which `_IONBF` tests. -/
def Straight (s : Stream) (_ : UInt8) : Prop := s.cnt ≤ 0 ∧ s.flags.write = true
deriving Decidable

/-- What an unbuffered stream keeps while its bytes are put straight: all of them are sent. -/
structure Immediate (w : List UInt8) (s : Stream) : Prop where
  sent : s.sent = w
  ptr : s.ptr = 0
  safe : s.overrun = false
  fit : ∀ cap, s.buf = some cap → s.bufsiz ≤ cap

theorem Immediate.put {b : UInt8} (h : Immediate w s)
    (hb : Straight s b) : Immediate (w ++ [b]) (put s b) := by
  have hs : Sending false w s :=
    ⟨hb.2, by rw [pending_ptr_zero h.ptr, h.sent, append_nil], h.safe,
      fun _ => ⟨h.ptr, hb.1⟩, fun cap hc => ⟨h.fit cap hc, fun hpos => by have := hb.1; omega⟩,
      (nomatch ·)⟩
  obtain ⟨hs', hp⟩ := hs.direct hb.1 h.ptr b
  refine ⟨?_, hp, hs'.inside, fun cap hc => (hs'.fit cap hc).1⟩
  have := hs'.order
  rw [pending_ptr_zero hp, append_nil] at this
  exact this

theorem Immediate.fflush (h : Immediate w s) : Immediate w (fflush s) := by
  rw [MavStdio.fflush]
  split
  · exact h
  split
  · exact h
  · obtain ⟨hsent, hptr, _, _, hbuf, hsiz, hover⟩ := drain_eq s
    refine ⟨?_, hptr, hover.trans h.safe, fun cap hc => ?_⟩
    · rw [hsent, pending_ptr_zero h.ptr, append_nil]
      exact h.sent
    · rw [hsiz]
      exact h.fit cap (hbuf.symm.trans hc)

theorem immediate_setvbuf (buf : Bool) (size : Nat) (e : Stream) (flags : Flags) :
    Immediate [] (setvbuf buf 2 size (allocFile e flags)).2 :=
  ⟨rfl, rfl, rfl, fun cap hcap => by cases hcap; exact Int.le_refl 1⟩

theorem UnbufferedOutput.immediate (h : UnbufferedOutput s) : Immediate [] s := by
  cases h with
  | stderr e => exact ⟨rfl, rfl, rfl, fun cap hcap => by cases hcap; exact Int.le_refl 1⟩
  | stdout e buf size => exact immediate_setvbuf buf size e _
  | file e f mode buf size hmode hf =>
    obtain ⟨flags, _, rfl⟩ := Option.map_eq_some_iff.mp hf
    exact immediate_setvbuf buf size _ flags

/-- **IMMEDIATE OUTPUT**: on an unbuffered output stream, in a run whose bytes
    are put straight, the descriptor has after each call exactly the bytes
    written so far. -/
theorem unbuffered_output_immediate {s : Stream} (hs : UnbufferedOutput s) (calls : List Call)
    (hstraight : CallsOk Straight s calls) (n : Nat) :
    ((calls.take n).foldl call s).sent = (calls.take n).flatMap Call.bytes := by
  have hpre : CallsOk Straight s (calls.take n) := by
    refine guarded_append_left (calls.take n) (calls.drop n) s ?_
    rw [List.take_append_drop]
    exact hstraight
  exact (calls_keep (fun _ _ _ h hG => Immediate.put h hG) (fun _ _ h => h.fflush)
    (calls.take n) [] s hs.immediate hpre).sent

/-- A file opened with `w`, made unbuffered, written to by three calls and
    flushed. -/
theorem unbuffered_output_file :
    ((([.fputc 97, .fwrite [98, 99], .fputs [100], .fflush] : List Call).take 3).foldl call
      (setvbuf false 2 0 (allocFile blank { write := true })).2).sent = [97, 98, 99, 100] :=
  unbuffered_output_immediate (UnbufferedOutput.file blank _ ['w'] false 0 (by decide) rfl)
    [.fputc 97, .fwrite [98, 99], .fputs [100], .fflush] (by decide) 3

/-- stderr starts with room for one byte: the first byte written to it is not
    sent, and the second is. -/
theorem stderr_byte_waits :
    ¬ ∀ s : Stream, UnbufferedOutput s → ∀ calls : List Call,
      (∀ c ∈ calls, ∀ text, c = .fputs text → ∀ b ∈ text, b.toNat < 128) →
      (calls.foldl call s).sent = calls.flatMap Call.bytes := by
  intro h
  have hrun := h (stderr blank) (UnbufferedOutput.stderr blank) [.fputc 97, .fputc 98]
    (fun c hc text ht => by rw [ht] at hc; simp at hc)
  exact absurd hrun (by decide)

/-! ## Text -/

/-- The bytes a stream has been given. -/
def Stream.taken (s : Stream) : Nat := s.sent.length + s.ptr

/-- There is nothing and no room without a buffer. -/
def Stream.NullOk (s : Stream) : Prop := s.buf = none → s.ptr = 0 ∧ s.cnt ≤ 0

theorem taken_drain (s : Stream) : (drain s).taken = s.taken := by
  obtain ⟨hsent, hptr, -⟩ := drain_eq s
  rw [Stream.taken, hsent, hptr, length_append, Stream.pending, length_map, length_range]
  rfl

/-- A byte stored, and the line sent if it ends one. -/
theorem stored_taken (hb : s.buf ≠ none) (c n : Int) (flush : Bool) :
    let t := { s.store c with cnt := n }
    (if flush then fflush t else t).taken = s.taken + 1 ∧
      (if flush then fflush t else t).buf ≠ none := by
  intro t
  have ht : t.taken = s.taken + 1 := (Nat.add_assoc ..).symm
  cases flush with
  | false => exact ⟨ht, hb⟩
  | true =>
    rw [if_pos rfl, fflush]
    split
    · exact ⟨ht, hb⟩
    · split
      · exact ⟨ht, hb⟩
      · exact ⟨(taken_drain t).trans ht, (drain_eq t).2.2.2.2.1 ▸ hb⟩

theorem ensureBuffer_taken (h : s.NullOk) :
    (ensureBuffer s).taken = s.taken ∧ (ensureBuffer s).buf ≠ none := by
  rw [ensureBuffer]
  split
  · next hb => exact ⟨rfl, Option.isSome_iff_ne_none.mp hb⟩
  · next hb =>
    have hp : s.taken = s.sent.length + 0 := by
      rw [Stream.taken, (h (Option.not_isSome_iff_eq_none.mp hb)).1]
    rw [hp]
    split
    · exact ⟨rfl, nofun⟩
    · split <;> exact ⟨rfl, nofun⟩

/-- A character that is negative is lost where the buffer has no room. -/
theorem fputc_taken (h : s.NullOk) (c : Int) :
    (fputc c s).2.taken = s.taken + (if 0 < s.cnt ∨ 0 ≤ c then 1 else 0) ∧
      (fputc c s).2.buf ≠ none := by
  rw [fputc]
  split
  · next hroom =>
    rw [if_pos (.inl hroom)]
    exact stored_taken (fun hnone => absurd (h hnone).2 (Int.not_le.mpr hroom)) c _ _
  rename_i hroom
  obtain ⟨htaken, hbuf⟩ := ensureBuffer_taken h
  have hkept : (drain (ensureBuffer s)).buf ≠ none := by
    rw [(drain_eq _).2.2.2.2.1]
    exact hbuf
  rw [flushbuf, ← htaken]
  simp only [hroom, false_or]
  split
  · split
    · exact ⟨by simp [Stream.taken, Stream.sysWrite]; omega, hbuf⟩
    · exact ⟨rfl, hbuf⟩
  · rw [← taken_drain (ensureBuffer s)]
    split
    · exact stored_taken hkept c _ _
    · exact ⟨rfl, hkept⟩

theorem fputs_taken (text : List UInt8) : ∀ {s : Stream}, s.NullOk →
    (fwrite s text).taken = s.taken + text.length ∧
      (fputs s text).2.taken ≤ s.taken + text.length := by
  induction text with
  | nil => exact fun _ => ⟨rfl, Nat.le_refl _⟩
  | cons b text ih =>
    intro s h
    obtain ⟨htaken, hok⟩ := fputc_taken h b.toNat
    obtain ⟨htaken', hok'⟩ := fputc_taken h (charOf b)
    rw [if_pos (.inr (Int.natCast_nonneg _))] at htaken
    have hle : (fputc (charOf b) s).2.taken ≤ s.taken + 1 := by
      rw [htaken']
      split <;> omega
    rw [length_cons, fputs]
    refine ⟨(ih (absurd · hok)).1.trans (by rw [htaken]; omega), ?_⟩
    split
    · exact Nat.le_trans hle (by omega)
    · exact Nat.le_trans (ih (absurd · hok')).2 (by omega)

theorem passes_of_fputs (text : List UInt8) : ∀ {s : Stream}, s.NullOk →
    (fputs s text).2 = fwrite s text → 0 ≤ (fputs s text).1 →
    Guarded (fun s b => some (put s b)) Passes s text := by
  induction text with
  | nil => exact fun _ _ _ => trivial
  | cons b text ih =>
    intro s h hsame hpos
    obtain ⟨htaken, hok⟩ := fputc_taken h (charOf b)
    rw [fputs, fputc_fst] at hsame hpos
    by_cases hne : charOf b = -1
    · rw [if_pos hne] at hpos
      exact absurd hpos (show ¬ (0 : Int) ≤ -1 by decide)
    rw [if_neg hne] at hsame hpos
    by_cases hb : Passes s b
    · rw [hb.fputc_eq.1] at hsame hpos hok
      exact ⟨hb, fun s' hs' => Option.some.inj hs' ▸ ih (absurd · hok) hsame hpos⟩
    -- the byte is lost, and the rest cannot make up for it
    obtain ⟨hhigh, hroom⟩ := not_or.mp hb
    have hneg : charOf b = b.toNat - 256 := if_neg hhigh
    have hlt := b.toNat_lt
    have hfull : ¬ 0 < s.cnt := fun hr => hroom ⟨mt charOf_eq_eof.mpr hne, hr⟩
    have hle := (fputs_taken text (absurd · hok)).2
    rw [hsame, (fputs_taken _ h).1, htaken, length_cons, if_neg (by omega)] at hle
    omega

/-- The loop of `format_string`. -/
theorem callbacks_eq (text : List UInt8) : ∀ (n : Nat) {s : Stream}, n + text.length < 2 ^ 31 →
    Guarded (fun s b => some (put s b)) Passes s text →
    text.foldl fputcCallback ((n : Int), s) = (((n + text.length : Nat) : Int), fwrite s text) := by
  induction text with
  | nil => exact fun _ _ _ _ => rfl
  | cons b text ih =>
    intro n s hn hG
    rw [length_cons] at hn ⊢
    obtain ⟨heq, hne⟩ := hG.1.fputc_eq
    have hcount : int32 ((n : Int) + 1) = ((n + 1 : Nat) : Int) := by
      rw [int32]
      omega
    rw [foldl_cons, fputcCallback]
    simp only [fputc_fst, if_neg hne, heq, hcount]
    rw [ih (n + 1) (by omega) (hG.2 _ rfl), Nat.add_assoc, Nat.add_comm 1]
    rfl

theorem callbacks_lt (text : List UInt8) : ∀ {r : Int × Stream}, r.1 < 2 ^ 31 →
    (text.foldl fputcCallback r).1 < 2 ^ 31 := by
  induction text with
  | nil => exact fun h => h
  | cons b text ih =>
    intro r h
    refine ih ?_
    show (if _ then r.1 else int32 (r.1 + 1)) < _
    split
    · exact h
    · rw [int32]
      omega

/-- **TEXT**: `fputs` and `fprintf` of a string leave the stream as `fwrite` does
    and report success exactly when its bytes pass as characters and their number
    is an `int`. -/
theorem fputs_fprintf_iff {s : Stream} (h : s.NullOk) (text : List UInt8) :
    ((fputs s text).2 = fwrite s text ∧ 0 ≤ (fputs s text).1 ∧
      fprintfString s text = ((text.length : Int), fwrite s text)) ↔
    Guarded (fun s b => some (put s b)) Passes s text ∧ text.length < 2 ^ 31 := by
  constructor
  · rintro ⟨hsame, hpos, hprint⟩
    refine ⟨passes_of_fputs text h hsame hpos, ?_⟩
    have hlt : (fprintfString s text).1 < 2 ^ 31 := callbacks_lt _ (by show (0 : Int) < _; decide)
    rw [hprint] at hlt
    exact Int.ofNat_lt.mp hlt
  · rintro ⟨hG, hlen⟩
    have hint : int32 text.length = text.length := by
      rw [int32]
      omega
    rw [fputs_of_passes text hG, fprintfString, hint]
    exact ⟨rfl, Int.le_refl 0, by simpa using callbacks_eq text 0 (by omega) hG⟩

/-- Text on stdout; the last letter is above 127 and finds room after an fflush. -/
theorem fputs_fprintf_room : (fputs (fflush (put (stdout blank) 97)) [228]).2.sent = [97] ∧
    (fprintfString (fflush (put (stdout blank) 97)) [228]).1 = 1 := by
  obtain ⟨hsame, -, hprint⟩ := (fputs_fprintf_iff (s := fflush (put (stdout blank) 97)) nofun
    [228]).mpr (by decide)
  rw [hsame, hprint]
  exact ⟨by decide, rfl⟩

/-- On a new stream a letter above 127 is lost, and the byte 255 stops `fputs`
    even where it is stored. -/
theorem fputs_loses_letter :
    (fputs (stdout blank) [228]).2.sent = [] ∧ (fwrite (stdout blank) [228]).sent = [228] ∧
    (fputs (stderr blank) [255]).1 = -1 ∧ (fprintfString (stderr blank) [255]).1 = 0 := by
  decide

end MavStdio
