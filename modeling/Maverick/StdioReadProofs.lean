import Maverick.StdioProofs

/-! # Buffered streams — reading, pushing back and seeking

An input stream reads ahead: the `cnt` bytes at `ptr` are the file's bytes just before the kernel
position. Beside the buffer sits the slot of `ungetc`, which `fgetc` looks at and `fread` does not.
`fflush` writes the bytes below `ptr` whenever the stream may write, also when they are bytes that
were read: on a stream opened `r+` every seek after a read puts them into the file once more, at the
kernel position.

`long` is `int` here, 32 bits wide, and so is the length of a file. -/

namespace MavStdio

open MavRun List Option

/-! ## The reading functions -/

/-- A read system call: at least one byte where there is one, and no more than asked for. -/
def Stream.sysRead (s : Stream) (n : Nat) : List UInt8 × Stream :=
  let k := min (max 1 (s.sched s.reads)) (min n (s.contents.length - s.pos))
  ((s.contents.drop s.pos).take k, { s with pos := s.pos + k, reads := s.reads + 1 })

/-- The read of `__fillbuf` into the buffer; `none` is EOF. -/
def fill (s : Stream) : Option UInt8 × Stream :=
  let r := s.sysRead (s.bufsiz % 2 ^ 32).toNat
  match r.1 with
  | [] => (none, { r.2 with flags := { s.flags with eof := true } })
  | b :: data =>
    (some b, { r.2 with mem := fun i => (b :: data).getD i (s.mem i), ptr := 1,
                        cnt := data.length })

def fillbuf (s : Stream) : Option UInt8 × Stream :=
  if s.flags.eof then (none, s) else fill (ensureBuffer s)

/-- The next byte of the buffer, filled first where it is empty: the body of the
    loop of `fread` and the tail of `fgetc`. -/
def fromBuf (s : Stream) : Option UInt8 × Stream :=
  if 0 < s.cnt then (some (s.mem s.ptr), { s with ptr := s.ptr + 1, cnt := s.cnt - 1 })
  else fillbuf s

def fgetc (s : Stream) : Option UInt8 × Stream :=
  match s.ungetcBuf with
  | some c => (some c, { s with ungetcBuf := none })
  | none => fromBuf s

/-- fread of `n` bytes. -/
def fread : Nat → Stream → List UInt8 × Stream
  | 0, s => ([], s)
  | n + 1, s =>
    match fromBuf s with
    | (none, s) => ([], s)
    | (some b, s) => (b :: (fread n s).1, (fread n s).2)

/-- The loop of `fgets`. -/
def fgetsLoop : Nat → Stream → List UInt8 × Stream
  | 0, s => ([], s)
  | n + 1, s =>
    match fgetc s with
    | (none, s) => ([], s)
    | (some b, s) =>
      if b = 10 then ([b], s) else (b :: (fgetsLoop n s).1, (fgetsLoop n s).2)

/-- fgets; `none` is NULL, which is returned also where the first byte is EOF. -/
def fgets (n : Int) (s : Stream) : Option (List UInt8) × Stream :=
  if n ≤ 0 then (none, s)
  else
    let r := fgetsLoop (n - 1).toNat s
    (if 1 < n ∧ r.1 = [] then none else some r.1, r.2)

/-- ungetc of a byte. -/
def ungetc (c : UInt8) (s : Stream) : Option UInt8 × Stream :=
  match s.ungetcBuf with
  | some _ => (none, s)
  | none => (some c, { s with ungetcBuf := some c, flags := { s.flags with eof := false } })

/-- The calls that read. -/
inductive ReadCall where
  | fgetc
  | fread (n : Nat)
  | fgets (n : Int)
  | ungetc (c : UInt8)

/-- A call and the bytes it delivers, `none` for EOF or NULL. -/
def readCall (s : Stream) : ReadCall → Option (List UInt8) × Stream
  | .fgetc => ((fgetc s).1.map ([·]), (fgetc s).2)
  | .fread n => (some (fread n s).1, (fread n s).2)
  | .fgets n => fgets n s
  | .ungetc c => ((ungetc c s).1.map ([·]), (ungetc c s).2)

/-! ## The abstract sequence -/

/-- A line: up to `k` bytes, with the first newline among them the last. -/
def lineOf : Nat → List UInt8 → List UInt8
  | 0, _ => []
  | _, [] => []
  | k + 1, b :: rest => if b = 10 then [b] else b :: lineOf k rest

/-- The calls on the bytes still to be delivered. -/
def readSpec (rest : List UInt8) : ReadCall → Option (List UInt8) × List UInt8
  | .fgetc => (rest.head?.map ([·]), rest.tail)
  | .fread n => (some (rest.take n), rest.drop n)
  | .fgets n =>
    if n ≤ 0 then (none, rest)
    else
      let line := lineOf (n - 1).toNat rest
      (if 1 < n ∧ rest = [] then none else some line, rest.drop line.length)
  | .ungetc c => (some [c], c :: rest)

/-! ## What reading keeps -/

/-- The bytes of the file still to be delivered. -/
def Stream.ahead (s : Stream) : List UInt8 := s.contents.drop (s.pos - s.cnt.toNat)

/-- The same behind the byte pushed back. -/
def Stream.rest (s : Stream) : List UInt8 := s.ungetcBuf.toList ++ s.ahead

/-- The buffer holds the file's bytes just before the kernel position, end of file is recorded at
    the end only, and a buffer that nothing was read from is empty. -/
structure Reading (s : Stream) : Prop where
  nonneg : 0 ≤ s.cnt
  le : s.cnt.toNat ≤ s.pos
  agree : ∀ i < s.cnt.toNat, s.contents[s.pos - s.cnt.toNat + i]? = some (s.mem (s.ptr + i))
  eof : s.flags.eof = true → s.contents.length ≤ s.pos ∧ s.cnt = 0
  siz : ∀ cap, s.buf = some cap → 0 < s.bufsiz % 2 ^ 32
  idle : s.ptr = 0 → s.cnt = 0

/-- The file, the direction bits of the stream and a position inside the file or where it was. -/
structure Kept (s t : Stream) : Prop where
  contents : t.contents = s.contents
  read : t.flags.read = s.flags.read
  write : t.flags.write = s.flags.write
  rw : t.flags.rw = s.flags.rw
  pos : t.pos ≤ max s.pos s.contents.length

theorem Kept.refl (s : Stream) : Kept s s := ⟨rfl, rfl, rfl, rfl, Nat.le_max_left _ _⟩

variable {s t : Stream} {flags : Flags} {file : List UInt8} {offset : Int32} {whence : Int}

theorem Kept.trans {u : Stream} (h : Kept s t) (h' : Kept t u) : Kept s u := by
  refine ⟨h'.contents.trans h.contents, h'.read.trans h.read, h'.write.trans h.write,
    h'.rw.trans h.rw, ?_⟩
  have hpos := h'.pos
  rw [h.contents] at hpos
  have := h.pos
  omega

/-- A step that delivers `out` of the bytes ahead. -/
structure Delivers (s t : Stream) (out : List UInt8) : Prop where
  ahead : s.ahead = out ++ t.ahead
  reading : Reading t
  kept : Kept s t

theorem Delivers.trans {u : Stream} {out out' : List UInt8} (h : Delivers s t out)
    (h' : Delivers t u out') : Delivers s u (out ++ out') :=
  ⟨by rw [h.ahead, h'.ahead, append_assoc], h'.reading, h.kept.trans h'.kept⟩

/-- With nothing in the buffer. -/
theorem reading_empty (hc : s.cnt = 0) (he : s.flags.eof = true → s.contents.length ≤ s.pos)
    (hsiz : ∀ cap, s.buf = some cap → 0 < s.bufsiz % 2 ^ 32) : Reading s := by
  refine ⟨Int.le_of_eq hc.symm, ?_, fun i hi => ?_, fun h => ⟨he h, hc⟩, hsiz, fun _ => hc⟩
  · rw [hc]
    exact Nat.zero_le _
  · rw [hc] at hi
    exact absurd hi (Nat.not_lt_zero i)

theorem ahead_empty (hc : s.cnt = 0) : s.ahead = s.contents.drop s.pos := by
  rw [Stream.ahead, hc]
  rfl

/-- Nothing is pushed back. -/
theorem rest_eq (hun : s.ungetcBuf = none) : s.rest = s.ahead := by
  rw [Stream.rest, hun]
  rfl

/-- Getting a buffer changes nothing a reader sees. -/
theorem ensureBuffer_delivers (h : Reading s) (hc : s.cnt = 0) (he : s.flags.eof = false) :
    Delivers s (ensureBuffer s) [] ∧ (ensureBuffer s).ungetcBuf = s.ungetcBuf ∧
      (ensureBuffer s).cnt = 0 ∧ (ensureBuffer s).flags.eof = false ∧
      0 < (ensureBuffer s).bufsiz % 2 ^ 32 := by
  have hnew : ∀ (f : Flags) (n : Nat), 0 < (n : Int) % 2 ^ 32 → f.eof = false →
      f.read = s.flags.read → f.write = s.flags.write → f.rw = s.flags.rw →
      Delivers s { s with buf := some n, bufsiz := n, flags := f, ptr := 0, cnt := 0 } [] := by
    intro f n hn hf h1 h2 h3
    exact ⟨ahead_empty hc, reading_empty rfl (fun h' => (nomatch hf.symm.trans h')) fun _ _ => hn,
      ⟨rfl, h1, h2, h3, Nat.le_max_left _ _⟩⟩
  cases hb : s.buf with
  | some cap =>
    have hens : ensureBuffer s = s := by
      rw [ensureBuffer, hb]
      rfl
    rw [hens]
    exact ⟨⟨rfl, h, Kept.refl s⟩, rfl, hc, he, h.siz cap hb⟩
  | none =>
    rw [ensureBuffer, hb]
    rw [if_neg (by simp)]
    split
    · exact ⟨hnew s.flags 1 (by decide) he rfl rfl rfl, rfl, rfl, he, Int.one_pos⟩
    · split
      · exact ⟨hnew s.flags 1 (by decide) he rfl rfl rfl, rfl, rfl, he, Int.one_pos⟩
      · have h512 : 0 < (stdioBufsiz : Int) % 2 ^ 32 := by decide
        exact ⟨hnew { s.flags with myBuf := true } stdioBufsiz h512 he rfl rfl rfl, rfl, rfl,
          he, h512⟩

/-- An empty buffer is filled from the kernel position on. -/
theorem fill_delivers (hc : s.cnt = 0) (he : s.flags.eof = false) (hsiz : 0 < s.bufsiz % 2 ^ 32) :
    Delivers s (fill s).2 (fill s).1.toList ∧ (fill s).2.ungetcBuf = s.ungetcBuf ∧
      ((fill s).1 = none → s.ahead = []) := by
  have hahead := ahead_empty hc
  obtain ⟨k, hk⟩ : ∃ k, k = min (max 1 (s.sched s.reads))
      (min (s.bufsiz % 2 ^ 32).toNat (s.contents.length - s.pos)) := ⟨_, rfl⟩
  have hread : s.sysRead (s.bufsiz % 2 ^ 32).toNat =
      ((s.contents.drop s.pos).take k, { s with pos := s.pos + k, reads := s.reads + 1 }) := by
    rw [hk]
    rfl
  have hmax : s.pos + k ≤ max s.pos s.contents.length := by omega
  rw [fill, hread]
  cases hdata : (s.contents.drop s.pos).take k with
  | nil =>
    -- the read returns 0
    have hend : s.contents.length ≤ s.pos := by
      have := congrArg List.length hdata
      rw [length_take, length_drop, length_nil] at this
      omega
    have hnil : s.ahead = [] := by
      rw [hahead]
      exact drop_eq_nil_of_le hend
    have hend' : s.contents.length ≤ s.pos + k := by omega
    refine ⟨⟨?_, reading_empty hc (fun _ => hend') fun _ _ => hsiz, ⟨rfl, rfl, rfl, rfl, hmax⟩⟩, rfl,
      fun _ => hnil⟩
    rw [hnil, ahead_empty (by exact hc)]
    exact (drop_eq_nil_of_le hend').symm
  | cons b data =>
    have hlen : k = data.length + 1 := by
      have := congrArg List.length hdata
      rw [length_take, length_drop, length_cons] at this
      omega
    have hsplit : s.contents.drop s.pos = b :: (data ++ s.contents.drop (s.pos + k)) := by
      have := take_append_drop k (s.contents.drop s.pos)
      rw [hdata, drop_drop] at this
      exact this.symm
    have hback : s.pos + k - (data.length : Int).toNat = s.pos + 1 := by omega
    refine ⟨⟨?_, ⟨Int.natCast_nonneg _, ?_, ?_, fun h => (nomatch he.symm.trans h),
      fun _ _ => hsiz, fun h1 => absurd h1 Nat.one_ne_zero⟩, ⟨rfl, rfl, rfl, rfl, hmax⟩⟩, rfl,
      (nomatch ·)⟩
    · rw [hahead]
      show _ = b :: s.contents.drop (s.pos + k - (data.length : Int).toNat)
      rw [hback, ← tail_drop, hsplit]
      rfl
    · show (data.length : Int).toNat ≤ s.pos + k
      omega
    · intro i hi
      have hget : (s.contents.drop s.pos)[1 + i]? = some (data.getD i (s.mem (1 + i))) := by
        rw [hsplit, Nat.add_comm 1 i, List.getElem?_cons_succ, List.getElem?_append_left hi,
          getD_eq_getElem?_getD, List.getElem?_eq_getElem hi]
        rfl
      rw [List.getElem?_drop] at hget
      show s.contents[s.pos + k - (data.length : Int).toNat + i]? =
        some ((b :: data).getD (1 + i) (s.mem (1 + i)))
      rw [hback, Nat.add_assoc, hget, Nat.add_comm 1 i, getD_cons_succ]

theorem fillbuf_delivers (h : Reading s) (hc : s.cnt = 0) :
    Delivers s (fillbuf s).2 (fillbuf s).1.toList ∧ (fillbuf s).2.ungetcBuf = s.ungetcBuf ∧
      ((fillbuf s).1 = none → s.ahead = []) := by
  rw [fillbuf]
  cases he : s.flags.eof with
  | true =>
    refine ⟨⟨rfl, h, Kept.refl s⟩, rfl, fun _ => ?_⟩
    rw [ahead_empty hc]
    exact drop_eq_nil_of_le (h.eof he).1
  | false =>
    obtain ⟨hd, hun, hc', he', hsiz⟩ := ensureBuffer_delivers h hc he
    obtain ⟨hd', hun', hnil⟩ := fill_delivers hc' he' hsiz
    exact ⟨hd.trans hd', hun'.trans hun, fun hn => hd.ahead.trans (hnil hn)⟩

/-- The next byte comes from the buffer, or from the file behind it. -/
theorem fromBuf_delivers (h : Reading s) :
    Delivers s (fromBuf s).2 (fromBuf s).1.toList ∧ (fromBuf s).2.ungetcBuf = s.ungetcBuf ∧
      ((fromBuf s).1 = none → s.ahead = []) := by
  rw [fromBuf]
  split
  · have hle := h.le
    have hfirst : s.contents[s.pos - s.cnt.toNat]? = some (s.mem s.ptr) := h.agree 0 (by omega)
    have hnext : (s.cnt - 1).toNat = s.cnt.toNat - 1 := by omega
    refine ⟨⟨?_, ⟨?_, ?_, ?_, ?_, h.siz, ?_⟩, { Kept.refl s with }⟩, rfl, (nomatch ·)⟩
    · show s.contents.drop (s.pos - s.cnt.toNat) =
        [s.mem s.ptr] ++ s.contents.drop (s.pos - (s.cnt - 1).toNat)
      obtain ⟨hlt, hget⟩ := List.getElem?_eq_some_iff.mp hfirst
      rw [hnext, show s.pos - (s.cnt.toNat - 1) = s.pos - s.cnt.toNat + 1 by omega,
        drop_eq_getElem_cons hlt]
      exact congrArg (· :: _) hget
    · show (0 : Int) ≤ s.cnt - 1
      omega
    · show (s.cnt - 1).toNat ≤ s.pos
      omega
    · intro i hi
      have hi : i < (s.cnt - 1).toNat := hi
      have := h.agree (i + 1) (by omega)
      rw [hnext, show s.pos - (s.cnt.toNat - 1) + i = s.pos - s.cnt.toNat + (i + 1) by omega,
        this, Nat.add_right_comm]
      rfl
    · intro he
      have := (h.eof he).2
      omega
    · exact fun h0 => absurd h0 (Nat.succ_ne_zero _)
  · exact fillbuf_delivers h (by have := h.nonneg; omega)

/-- fread takes the bytes ahead, as many as there are. -/
theorem fread_delivers (n : Nat) {s : Stream} : Reading s →
    Delivers s (fread n s).2 (s.ahead.take n) ∧ (fread n s).1 = s.ahead.take n ∧
      (fread n s).2.ungetcBuf = s.ungetcBuf := by
  induction n generalizing s with
  | zero =>
    intro h
    exact ⟨⟨rfl, h, Kept.refl s⟩, rfl, rfl⟩
  | succ n ih =>
    intro h
    obtain ⟨hd, hun, hnil⟩ := fromBuf_delivers h
    rw [fread]
    split
    · rename_i t heq
      rw [heq] at hd hun
      have hs := hnil (by rw [heq])
      rw [hs, take_nil]
      exact ⟨hd, rfl, hun⟩
    · rename_i b t heq
      rw [heq] at hd hun
      obtain ⟨hd', hout, hun'⟩ := ih hd.reading
      have hs : s.ahead = b :: t.ahead := hd.ahead
      rw [hs, take_succ_cons]
      exact ⟨hd.trans hd', by rw [hout], hun'.trans hun⟩

/-! ## Input in order -/

/-- A byte pushed back comes first. -/
theorem fgetc_rest (h : Reading s) :
    (fgetc s).1 = s.rest.head? ∧ (fgetc s).2.rest = s.rest.tail ∧ Reading (fgetc s).2 ∧
      Kept s (fgetc s).2 := by
  rw [fgetc]
  cases hun : s.ungetcBuf with
  | some c =>
    have hrest : s.rest = c :: s.ahead := by
      rw [Stream.rest, hun]
      rfl
    rw [hrest]
    exact ⟨rfl, rfl, { h with }, { Kept.refl s with }⟩
  | none =>
    obtain ⟨hd, hun', hnil⟩ := fromBuf_delivers h
    have hahead := hd.ahead
    rw [rest_eq hun, rest_eq (hun'.trans hun)]
    cases hout : (fromBuf s).1 with
    | none =>
      rw [hout] at hahead
      have hs := hnil hout
      rw [hs] at hahead ⊢
      exact ⟨rfl, hahead.symm, hd.reading, hd.kept⟩
    | some b =>
      rw [hout] at hahead
      rw [hahead]
      exact ⟨rfl, rfl, hd.reading, hd.kept⟩

theorem fgetsLoop_rest (n : Nat) {s : Stream} : Reading s →
    (fgetsLoop n s).1 = lineOf n s.rest ∧
      (fgetsLoop n s).2.rest = s.rest.drop (lineOf n s.rest).length ∧
      Reading (fgetsLoop n s).2 ∧ Kept s (fgetsLoop n s).2 := by
  induction n generalizing s with
  | zero =>
    intro h
    exact ⟨rfl, rfl, h, Kept.refl s⟩
  | succ n ih =>
    intro h
    obtain ⟨hhead, htail, hread, hkept⟩ := fgetc_rest h
    rw [fgetsLoop]
    split
    · rename_i t heq
      rw [heq] at hhead htail hread hkept
      have hs : s.rest = [] := List.head?_eq_none_iff.mp hhead.symm
      rw [hs] at htail ⊢
      exact ⟨rfl, htail, hread, hkept⟩
    rename_i b t heq
    rw [heq] at hhead htail hread hkept
    have hs : s.rest = b :: t.rest := by
      rw [htail]
      exact (cons_head?_tail hhead.symm).symm
    rw [hs, lineOf]
    split
    · exact ⟨rfl, rfl, hread, hkept⟩
    · obtain ⟨hline, hrest, hread', hkept'⟩ := ih hread
      exact ⟨by rw [hline], hrest, hread', hkept.trans hkept'⟩

theorem fgets_rest (h : Reading s) (n : Int) : (fgets n s).1 = (readSpec s.rest (.fgets n)).1 ∧
      (fgets n s).2.rest = (readSpec s.rest (.fgets n)).2 ∧ Reading (fgets n s).2 ∧
      Kept s (fgets n s).2 := by
  obtain ⟨hline, hrest, hread, hkept⟩ := fgetsLoop_rest (n - 1).toNat h
  rw [fgets, readSpec]
  split
  · exact ⟨rfl, rfl, h, Kept.refl s⟩
  refine ⟨?_, hrest, hread, hkept⟩
  simp only [hline]
  by_cases h1 : 1 < n
  · obtain ⟨k, hk⟩ : ∃ k, (n - 1).toNat = k + 1 := ⟨(n - 2).toNat, by omega⟩
    have hiff : lineOf (n - 1).toNat s.rest = [] ↔ s.rest = [] := by
      rw [hk]
      cases s.rest with
      | nil => exact ⟨fun _ => rfl, fun _ => rfl⟩
      | cons b rest =>
        rw [lineOf]
        split <;> simp
    simp only [hiff]
  · simp only [h1, false_and]

/-- The pushed-back byte is honoured: `fread` is called with the slot empty, or
    for nothing; `ungetc` is accepted, which it is with the slot empty. -/
def Honoured (s : Stream) : ReadCall → Prop
  | .fread n => n = 0 ∨ s.ungetcBuf = none
  | .ungetc _ => s.ungetcBuf = none
  | _ => True

instance (s : Stream) (c : ReadCall) : Decidable (Honoured s c) := by
  cases c <;> unfold Honoured <;> infer_instance

/-- One call delivers what the abstract sequence has. -/
theorem readCall_rest {c : ReadCall} (h : Reading s) (hc : Honoured s c) :
    (readCall s c).1 = (readSpec s.rest c).1 ∧ (readCall s c).2.rest = (readSpec s.rest c).2 ∧
      Reading (readCall s c).2 := by
  cases c with
  | fgetc =>
    obtain ⟨hhead, htail, hread, _⟩ := fgetc_rest h
    exact ⟨congrArg (Option.map ([·])) hhead, htail, hread⟩
  | fread n =>
    rcases hc with rfl | hun
    · exact ⟨rfl, rfl, h⟩
    obtain ⟨hd, hout, hun'⟩ := fread_delivers n h
    refine ⟨?_, ?_, hd.reading⟩
    · show some (fread n s).1 = some (s.rest.take n)
      rw [hout, rest_eq hun]
    · show (fread n s).2.rest = s.rest.drop n
      rw [rest_eq (hun'.trans hun), rest_eq hun]
      have hsplit := hd.ahead
      nth_rewrite 1 [← take_append_drop n s.ahead] at hsplit
      exact (append_cancel_left hsplit).symm
  | fgets n =>
    obtain ⟨hout, hrest, hread, _⟩ := fgets_rest h n
    exact ⟨hout, hrest, hread⟩
  | ungetc c =>
    have hun : s.ungetcBuf = none := hc
    have hcall : readCall s (.ungetc c) =
        (some [c], { s with ungetcBuf := some c, flags := { s.flags with eof := false } }) := by
      simp [readCall, ungetc, hun]
    rw [hcall]
    refine ⟨rfl, ?_, { h with eof := (nomatch ·) }⟩
    exact congrArg (c :: ·) (rest_eq hun).symm

/-- A stream just opened with `mode`, before or after a call of setvbuf. -/
inductive Opened (mode : List Char) : Stream → Prop
  | fresh (e f : Stream) (hf : fopen mode e = some f) : Opened mode f
  | buffered (e f : Stream) (buf : Bool) (m : Int) (size : UInt32)
      (hf : fopen mode e = some f) : Opened mode (setvbuf buf m size.toNat f).2

/-- What opening for reading leaves: the file from its start on, whatever
    buffer the stream was given. -/
structure Start (flags : Flags) (s : Stream) : Prop where
  reading : Reading s
  pos : s.pos = 0
  cnt : s.cnt = 0
  ungetc : s.ungetcBuf = none
  read : s.flags.read = flags.read
  write : s.flags.write = flags.write
  rw : s.flags.rw = flags.rw

theorem start_of (he : s.flags.eof = false) (hp : s.pos = 0)
    (hc : s.cnt = 0) (hu : s.ungetcBuf = none)
    (hdir : s.flags.read = flags.read ∧ s.flags.write = flags.write ∧ s.flags.rw = flags.rw)
    (hsiz : ∀ cap, s.buf = some cap → 0 < s.bufsiz % 2 ^ 32) : Start flags s :=
  ⟨reading_empty hc (fun h => (nomatch he.symm.trans h)) hsiz, hp, hc, hu, hdir.1, hdir.2.1, hdir.2.2⟩

theorem start_setvbuf (buf : Bool) (m : Int) (size : UInt32) {e : Stream}
    (hpos : e.pos = 0) (he : flags.eof = false) :
    Start flags (setvbuf buf m size.toNat (allocFile e flags)).2 := by
  have hset : setvbuf buf m size.toNat (allocFile e flags) = _ := if_neg (by simp [allocFile])
  rw [hset]
  have hsize : size.toNat < 2 ^ 32 := size.toNat_lt
  split
  · by_cases hb : (buf && decide (0 < size.toNat)) = true
    · simp only [hb, if_true]
      refine start_of ?_ hpos rfl rfl ?_ ?_
      · split <;> exact he
      · split <;> exact ⟨rfl, rfl, rfl⟩
      · intro cap _
        show 0 < int32 size.toNat % 2 ^ 32
        rw [Bool.and_eq_true, decide_eq_true_eq] at hb
        rw [int32]
        omega
    · simp only [hb]
      refine start_of ?_ hpos rfl rfl ?_ (fun _ h => by cases h)
      · split <;> exact he
      · split <;> exact ⟨rfl, rfl, rfl⟩
  · split
    · exact start_of he hpos rfl rfl ⟨rfl, rfl, rfl⟩ (fun _ _ => Int.one_pos)
    · exact start_of he hpos rfl rfl ⟨rfl, rfl, rfl⟩ (fun _ h => by cases h)

theorem Opened.start {mode : List Char} (h : Opened mode s)
    (hm : mode.head? = some 'r') (hp : parseMode mode = some flags) (he : flags.eof = false) :
    Start flags s := by
  have hopen : ∀ {e f : Stream}, fopen mode e = some f →
      f = allocFile { e with pos := 0 } flags := by
    intro e f hf
    rw [fopen, hp, hm] at hf
    exact (some.inj hf).symm
  cases h with
  | fresh e f hf =>
    rw [hopen hf]
    exact start_of he rfl rfl rfl ⟨rfl, rfl, rfl⟩ nofun
  | buffered e f buf m size hf =>
    rw [hopen hf]
    exact start_setvbuf buf m size rfl he

/-- Whole runs deliver the abstract sequence. -/
theorem readCalls_rest (calls : List ReadCall) {s : Stream} : Reading s →
    Guarded (fun s c => some (readCall s c).2) Honoured s calls →
      (runAll readCall s calls).1 = (runAll readSpec s.rest calls).1 := by
  induction calls generalizing s with
  | nil => intro _ _; rfl
  | cons c calls ih =>
    intro h hG
    obtain ⟨hout, hrest, hread⟩ := readCall_rest h hG.1
    have hrun := ih hread (hG.2 _ rfl)
    rw [hrest] at hrun
    show (readCall s c).1 :: (runAll readCall (readCall s c).2 calls).1 =
      (readSpec s.rest c).1 :: (runAll readSpec (readSpec s.rest c).2 calls).1
    rw [hout, hrun]

/-- **INPUT IN ORDER**: on a stream opened `r`, whatever sizes the reads return,
    a run in which the pushed-back byte is honoured delivers, call by call, the
    bytes of the file with the pushed-back ones inserted, and EOF only at the
    end of them. -/
theorem input_in_order {s : Stream} (hs : Opened ['r'] s) (calls : List ReadCall)
    (hcalls : Guarded (fun s c => some (readCall s c).2) Honoured s calls) :
    (runAll readCall s calls).1 = (runAll readSpec s.contents calls).1 := by
  have hstart : Start { read := true } s := hs.start rfl rfl rfl
  have hrest : s.rest = s.contents := by
    rw [Stream.rest, Stream.ahead, hstart.ungetc, hstart.pos, hstart.cnt]
    rfl
  rw [← hrest]
  exact readCalls_rest calls hstart.reading hcalls

/-- The stream `r` on a file of three bytes. -/
def threeBytes : Stream := allocFile { blank with contents := [97, 98, 99] } { read := true }

/-- A byte is read, another pushed back, and a line read over it. -/
theorem input_in_order_pushed :
    (runAll readCall threeBytes [.fgetc, .ungetc 122, .fgets 10, .fgetc]).1
      = [some [97], some [122], some [122, 98, 99], none] :=
  input_in_order (Opened.fresh { blank with contents := [97, 98, 99] } threeBytes rfl)
    [.fgetc, .ungetc 122, .fgets 10, .fgetc] (by decide)

/-- `fread` passes over the byte pushed back: after `a` is read and `z` pushed
    back it delivers `b`. -/
theorem fread_skips_pushed :
    ¬ ∀ s : Stream, Opened ['r'] s → ∀ calls : List ReadCall,
      Guarded (fun s c => some (readCall s c).2)
        (fun s c => ∀ b, c = .ungetc b → s.ungetcBuf = none) s calls →
      (runAll readCall s calls).1 = (runAll readSpec s.contents calls).1 := by
  intro h
  have hrun := h threeBytes (Opened.fresh { blank with contents := [97, 98, 99] } threeBytes rfl)
    [.fgetc, .ungetc 122, .fread 1]
    ⟨(nomatch ·, ·), fun _ hs => ⟨fun _ _ => Option.some.inj hs ▸ rfl,
      fun _ _ => ⟨(nomatch ·, ·), fun _ _ => trivial⟩⟩⟩
  exact absurd hrun (by decide)

/-! ## Seeking -/

def ftell (s : Stream) : Int :=
  let pos : Int := s.pos
  let pos := if s.flags.read then pos - s.cnt else pos
  let pos := if s.flags.write && s.buf.isSome then pos + s.ptr else pos
  int32 (if s.ungetcBuf.isSome then pos - 1 else pos)

/-- The absolute position of a seek: SEEK_SET, SEEK_CUR from `cur` and SEEK_END from `size`. -/
def seekPos (cur size : Int) (offset : Int32) (whence : Int) : Option Int :=
  if whence = 0 then some offset.toInt
  else if whence = 1 then some (int32 (cur + offset.toInt))
  else if whence = 2 then some (int32 (size + offset.toInt))
  else none

/-- The stream with its read-ahead and the byte pushed back dropped. -/
def invalidate (s : Stream) : Stream :=
  { s with cnt := 0, ptr := if s.buf.isSome then 0 else s.ptr, ungetcBuf := none,
           flags := { s.flags with eof := false } }

def fseek (offset : Int32) (whence : Int) (s : Stream) : Int × Stream :=
  let cur := if whence = 1 then ftell s else 0
  let s := invalidate (if s.flags.write || s.flags.rw then fflush s else s)
  match seekPos cur s.contents.length offset whence with
  | none => (-1, s)
  | some pos => if pos < 0 then (-1, s) else (0, { s with pos := pos.toNat })

def rewind (s : Stream) : Stream :=
  let s := (fseek 0 0 s).2
  { s with flags := { s.flags with eof := false, err := false } }

/-- fclose, up to the release of the stream. -/
def fclose (s : Stream) : Stream :=
  if s.flags.write || s.flags.rw then fflush s else s

/-- The calls on a stream that is only read. -/
inductive SeekCall where
  | read (c : ReadCall)
  | fseek (offset : Int32) (whence : Int)
  | ftell
  | rewind
  | fflush

/-- The stream after a call. -/
def seekCall (s : Stream) : SeekCall → Stream
  | .read c => (readCall s c).2
  | .fseek offset whence => (fseek offset whence s).2
  | .ftell => s
  | .rewind => rewind s
  | .fflush => fflush s

/-- On a stream that may write, the bytes below `ptr` are none where it is
    flushed, and a bare fflush comes before the first read. -/
def Unread (s : Stream) : SeekCall → Prop
  | .fseek _ _ => s.flags.rw = true → s.ptr = 0
  | .rewind => s.flags.rw = true → s.ptr = 0
  | .fflush => s.flags.rw = true → s.buf = none
  | _ => True

instance (s : Stream) (c : SeekCall) : Decidable (Unread s c) := by
  cases c <;> unfold Unread <;> infer_instance

/-- What a stream opened `r` or `r+` keeps while it is only read. -/
structure Intact (file : List UInt8) (s : Stream) : Prop where
  contents : s.contents = file
  reading : Reading s
  dir : s.flags.write = false ∧ (s.flags.rw = false → s.flags.read = true)
  bound : s.pos < 2 ^ 31

theorem Intact.kept (hlen : file.length < 2 ^ 31)
    (h : Intact file s) (hr : Reading t) (hk : Kept s t) : Intact file t := by
  refine ⟨hk.contents.trans h.contents, hr, ?_, ?_⟩
  · rw [hk.write, hk.rw, hk.read]
    exact h.dir
  · have hpos := hk.pos
    have hb := h.bound
    rw [h.contents] at hpos
    omega

theorem readCall_kept (h : Reading s) (c : ReadCall) :
    Reading (readCall s c).2 ∧ Kept s (readCall s c).2 := by
  cases c with
  | fgetc => exact (fgetc_rest h).2.2
  | fread n => exact ⟨(fread_delivers n h).1.reading, (fread_delivers n h).1.kept⟩
  | fgets n => exact (fgets_rest h n).2.2
  | ungetc c =>
    show Reading (ungetc c s).2 ∧ Kept s (ungetc c s).2
    rw [ungetc]
    split
    · exact ⟨h, Kept.refl s⟩
    · exact ⟨{ h with eof := (nomatch ·) }, { Kept.refl s with }⟩

/-- A flush that finds nothing below `ptr` leaves the file alone. -/
theorem fflush_unread (hw : s.flags.write = false) (hp : s.flags.rw = true → s.ptr = 0) :
    fflush s = s ∨ (s.ptr = 0 ∧ fflush s = { s with ptr := 0, cnt := s.bufsiz }) := by
  rw [fflush, hw, Bool.false_or]
  cases hrw : s.flags.rw with
  | false => exact .inl rfl
  | true =>
    have h0 := hp hrw
    rw [if_neg (by simp)]
    split
    · exact .inl rfl
    · refine .inr ⟨h0, ?_⟩
      rw [drain, if_neg (by omega)]

/-- The stream after a seek, up to the position. -/
theorem fseek_eq (hw : s.flags.write = false) (hp : s.flags.rw = true → s.ptr = 0)
    (offset : Int32) (whence : Int) :
    fseek offset whence s =
      match seekPos (if whence = 1 then ftell s else 0) s.contents.length offset whence with
      | none => (-1, invalidate s)
      | some pos =>
        if pos < 0 then (-1, invalidate s) else (0, { invalidate s with pos := pos.toNat }) := by
  have hflush : (if s.flags.write || s.flags.rw then fflush s else s) = s ∨
      (s.ptr = 0 ∧ (if s.flags.write || s.flags.rw then fflush s else s) =
        { s with ptr := 0, cnt := s.bufsiz }) := by
    split
    · exact fflush_unread hw hp
    · exact .inl rfl
  rw [fseek]
  rcases hflush with hs | ⟨h0, hs⟩
  · rw [hs]
    rfl
  · rw [hs, invalidate, invalidate, h0]

theorem reading_seeked (h : Reading s) (pos : Nat) : Reading { invalidate s with pos := pos } :=
  reading_empty rfl (nomatch ·) h.siz

theorem seekPos_lt {cur size : Int} {pos : Int}
    (h : seekPos cur size offset whence = some pos) : pos < 2 ^ 31 := by
  have hoff := offset.toInt_lt
  have hint : ∀ x, int32 x < 2 ^ 31 := by
    intro x
    rw [int32]
    omega
  rw [seekPos] at h
  split at h
  · rw [← some.inj h]
    exact hoff
  · split at h
    · rw [← some.inj h]
      exact hint _
    · obtain ⟨-, rfl⟩ := of_guard h
      exact hint _

theorem Intact.fseek (h : Intact file s)
    (hp : s.flags.rw = true → s.ptr = 0) (offset : Int32) (whence : Int) :
    Intact file (fseek offset whence s).2 := by
  rw [fseek_eq h.dir.1 hp]
  split
  · exact { h with reading := reading_seeked h.reading s.pos }
  · rename_i pos hpos
    have hlt := seekPos_lt hpos
    split
    · exact { h with reading := reading_seeked h.reading s.pos }
    · exact ⟨h.contents, reading_seeked h.reading _, h.dir, by
        show pos.toNat < 2 ^ 31
        omega⟩

/-- One call keeps the file, and with it what the reader relies on. -/
theorem Intact.step {c : SeekCall}
    (hlen : file.length < 2 ^ 31) (h : Intact file s) (hc : Unread s c) :
    Intact file (seekCall s c) := by
  cases c with
  | read c =>
    obtain ⟨hr, hk⟩ := readCall_kept h.reading c
    exact h.kept hlen hr hk
  | fseek offset whence => exact h.fseek hc offset whence
  | ftell => exact h
  | rewind =>
    have hs := h.fseek hc 0 0
    exact { hs with reading := { hs.reading with eof := (nomatch ·) } }
  | fflush =>
    show Intact file (fflush s)
    rw [MavStdio.fflush, h.dir.1, Bool.false_or]
    cases hrw : s.flags.rw with
    | false => exact h
    | true =>
      rw [if_neg (by simp), hc hrw]
      exact h

/-- The offset of the next byte to be read, one less for a byte pushed back. -/
def Stream.position (s : Stream) : Int := s.pos - s.cnt - s.ungetcBuf.toList.length

/-- Where a seek goes. -/
def seekTarget (s : Stream) (offset : Int32) (whence : Int) : Int :=
  (if whence = 0 then 0 else if whence = 1 then s.position else s.contents.length) + offset.toInt

/-- The bytes of the file from a position on, none before its start. -/
def bytesFrom (file : List UInt8) (p : Int) : List UInt8 :=
  if p < 0 then [] else file.drop p.toNat

theorem ftell_position (h : Intact file s)
    (hp : s.flags.rw = true → s.ptr = 0) : ftell s = s.position := by
  have hcnt : (if s.flags.read then (s.pos : Int) - s.cnt else s.pos) = s.pos - s.cnt := by
    split
    · rfl
    · rename_i hr
      have hrw : s.flags.rw = true := by
        cases hc : s.flags.rw with
        | true => rfl
        | false => exact absurd (h.dir.2 hc) hr
      rw [h.reading.idle (hp hrw), Int.sub_zero]
  have hle := h.reading.le
  have hnn := h.reading.nonneg
  have hb := h.bound
  simp only [ftell, hcnt, h.dir.1, Bool.false_and]
  cases hun : s.ungetcBuf with
  | none =>
    simp only [Stream.position, hun, int32, isSome_none, toList_none,
      length_nil, Bool.false_eq_true, if_false]
    omega
  | some c =>
    simp only [Stream.position, hun, int32, isSome_some, toList_some,
      length_singleton, Bool.false_eq_true, if_false, if_true]
    omega

/-- A seek that succeeds goes to its target; a sum that overflows `long` is
    refused, or leads past the end of every file. -/
theorem seekPos_target {pos : Int}
    (h : Intact file s) (hlen : file.length < 2 ^ 31) (hp : s.flags.rw = true → s.ptr = 0)
    (hpos : seekPos (if whence = 1 then ftell s else 0) s.contents.length offset whence
      = some pos) (hnn : 0 ≤ pos) :
    file.drop pos.toNat = bytesFrom file (seekTarget s offset whence) := by
  have hlo := offset.le_toInt
  have hhi := offset.toInt_lt
  have hle := h.reading.le
  have hcnn := h.reading.nonneg
  have hb := h.bound
  -- the sum as computed, against the one without overflow
  have hsum : ∀ base : Int, -1 ≤ base → base < 2 ^ 31 → 0 ≤ int32 (base + offset.toInt) →
      file.drop (int32 (base + offset.toInt)).toNat = bytesFrom file (base + offset.toInt) := by
    intro base hlow hhigh hpos
    rw [bytesFrom]
    split
    · exact drop_eq_nil_of_le (by rw [int32] at *; omega)
    · congr 1
      rw [int32] at *
      omega
  rw [seekPos] at hpos
  rw [seekTarget]
  by_cases h0 : whence = 0
  · rw [if_pos h0] at hpos ⊢
    rw [← some.inj hpos] at hnn ⊢
    rw [Int.zero_add, bytesFrom, if_neg (by omega)]
  rw [if_neg h0] at hpos ⊢
  by_cases h1 : whence = 1
  · rw [if_pos h1, if_pos h1, ftell_position h hp] at hpos
    rw [← some.inj hpos] at hnn ⊢
    have hlen1 : s.ungetcBuf.toList.length ≤ 1 := by cases s.ungetcBuf <;> simp
    rw [if_pos h1]
    refine hsum s.position ?_ ?_ hnn
    · rw [Stream.position]
      omega
    · rw [Stream.position]
      omega
  · rw [if_neg h1] at hpos ⊢
    obtain ⟨-, hpos⟩ := ite_none_right_eq_some.mp hpos
    rw [← some.inj hpos] at hnn ⊢
    refine hsum s.contents.length ?_ ?_ hnn
    · omega
    · rw [h.contents]
      omega

/-- After a seek that succeeds the stream delivers the file from the target on. -/
theorem fseek_rest
    (h : Intact file s) (hlen : file.length < 2 ^ 31) (hp : s.flags.rw = true → s.ptr = 0)
    (hok : (fseek offset whence s).1 = 0) :
    (fseek offset whence s).2.rest = bytesFrom file (seekTarget s offset whence) ∧
      (fseek offset whence s).2.ungetcBuf = none := by
  rw [fseek_eq h.dir.1 hp] at hok ⊢
  split at hok
  · exact nomatch hok
  rename_i pos hpos
  split at hok
  · exact nomatch hok
  · rename_i hneg
    rw [if_neg hneg]
    refine ⟨?_, rfl⟩
    rw [← seekPos_target h hlen hp hpos (Int.not_lt.mp hneg), ← h.contents]
    rfl

theorem seekCalls_intact (hlen : file.length < 2 ^ 31) (calls : List SeekCall) {s : Stream} :
    Intact file s →
      Guarded (fun s c => some (seekCall s c)) Unread s calls →
      Intact file (calls.foldl seekCall s) := by
  induction calls generalizing s with
  | nil => intro h _; exact h
  | cons c calls ih =>
    intro h hG
    exact ih (h.step hlen hG.1) (hG.2 _ rfl)

theorem intact_opened (hs : Opened ['r'] s ∨ Opened ['r', '+'] s) : Intact s.contents s := by
  rcases hs with hs | hs
  · have h : Start { read := true } s := hs.start rfl rfl rfl
    exact ⟨rfl, h.reading, ⟨h.write, fun _ => h.read⟩, by rw [h.pos]; decide⟩
  · have h : Start { rw := true } s := hs.start rfl rfl rfl
    exact ⟨rfl, h.reading, ⟨h.write, fun hrw => (nomatch h.rw.symm.trans hrw)⟩,
      by rw [h.pos]; decide⟩

/-- **READING LEAVES THE FILE**: on a stream opened `r` or `r+`, a run in which
    no byte read is flushed leaves the file as it was, as does closing the
    stream after it; and after a seek that succeeds the next call reads the file
    from the target on. -/
theorem reading_leaves_file {s : Stream} (hs : Opened ['r'] s ∨ Opened ['r', '+'] s)
    (hlen : s.contents.length < 2 ^ 31) (calls : List SeekCall)
    (hcalls : Guarded (fun s c => some (seekCall s c)) Unread s calls) :
    (calls.foldl seekCall s).contents = s.contents ∧
      (((calls.foldl seekCall s).flags.rw = true → (calls.foldl seekCall s).ptr = 0) →
        (fclose (calls.foldl seekCall s)).contents = s.contents ∧
        ∀ (offset : Int32) (whence : Int),
          (fseek offset whence (calls.foldl seekCall s)).1 = 0 →
          ∀ c : ReadCall, (readCall (fseek offset whence (calls.foldl seekCall s)).2 c).1 =
            (readSpec (bytesFrom s.contents
              (seekTarget (calls.foldl seekCall s) offset whence)) c).1) := by
  have h := seekCalls_intact hlen calls (intact_opened hs) hcalls
  refine ⟨h.contents, fun hp => ⟨?_, fun offset whence hok c => ?_⟩⟩
  · rw [fclose]
    split
    · rcases fflush_unread h.dir.1 hp with he | ⟨_, he⟩
      · rw [he]
        exact h.contents
      · rw [he]
        exact h.contents
    · exact h.contents
  · obtain ⟨hrest, hun⟩ := fseek_rest h hlen hp hok
    have hhon : Honoured (fseek offset whence (calls.foldl seekCall s)).2 c := by
      cases c with
      | fread n => exact .inr hun
      | ungetc c => exact hun
      | fgetc | fgets n => exact trivial
    rw [(readCall_rest (h.fseek hp offset whence).reading hhon).1, hrest]

/-- A file of three bytes opened `r+`, which nothing was read from. -/
def threeBytesPlus : Stream := allocFile { blank with contents := [97, 98, 99] } { rw := true }

/-- On `r+`, a seek to the last byte, and a byte read there. -/
theorem reading_leaves_file_seeked :
    (readCall (fseek 2 0 (([.ftell, .fflush] : List SeekCall).foldl seekCall
      threeBytesPlus)).2 .fgetc).1 = some [99] :=
  ((reading_leaves_file (.inr (Opened.fresh { blank with contents := [97, 98, 99] }
    threeBytesPlus rfl)) (by decide) [.ftell, .fflush] (by decide)).2 (fun _ => rfl)).2 2 0
      (by decide) .fgetc

/-- On `r+` a byte that was read is written when the stream is rewound: the
    file `abc` becomes `aac` where the first read returns one byte. -/
theorem rewind_writes_byte_read :
    ¬ ∀ s : Stream, Opened ['r', '+'] s → ∀ calls : List SeekCall,
      (calls.foldl seekCall s).contents = s.contents := by
  intro h
  have hrun := h threeBytesPlus (Opened.fresh { blank with contents := [97, 98, 99] }
    threeBytesPlus rfl) [.read .fgetc, .rewind]
  exact absurd hrun (by decide)

end MavStdio
