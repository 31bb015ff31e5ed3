import Maverick.RangeProofs

/-! # The system call boundary — which user addresses the handler trusts

`syscall_handler` runs in the kernel, with the kernel mapped above `PHYS_BASE`. Everything it takes
from the caller is an address: the argument words on the user stack, strings, buffers, lock and
semaphore handles. An access below `PHYS_BASE` to a page the process does not have ends the process
in `page_fault`; an access above reaches the kernel.

`accesses` is what the handler touches, call by call, with the checks it makes. `trusted` is what
of that no check covers: the argument words (the check of `&args[3]` wraps, and looks at one byte),
all strings, the buffers of the console and of `readlink` (the check of the last byte wraps), the
buffers of files whose size wraps in `malloc`, the name buffer of `readdir` and the handles.
`isolated_iff` is exact: the kernel is safe from a call when the trusted ranges end below
`PHYS_BASE`. -/

namespace MavSyscall

open MavRange

/-! ## Calls and what the handler sees of them -/

abbrev Addr := BitVec 32

def physBase : Nat := 0xC0000000

def isUserVaddr (a : Addr) : Bool := below physBase a

/-- The system calls, in the order of their numbers. -/
inductive Syscall where
  | halt | exit | exec | wait | create | remove | open | filesize | read | write | seek | tell
  | close | practice | ptCreate | ptExit | ptJoin | lockInit | lockAcquire | lockRelease
  | semaInit | semaDown | semaUp | getTid | fork | mmap | munmap | chdir | mkdir | readdir
  | isdir | inumber | link | symlink | readlink | pipe | mmap2
  deriving DecidableEq, Repr

def syscalls : List Syscall :=
  [.halt, .exit, .exec, .wait, .create, .remove, .open, .filesize, .read, .write, .seek, .tell,
   .close, .practice, .ptCreate, .ptExit, .ptJoin, .lockInit, .lockAcquire, .lockRelease,
   .semaInit, .semaDown, .semaUp, .getTid, .fork, .mmap, .munmap, .chdir, .mkdir, .readdir,
   .isdir, .inumber, .link, .symlink, .readlink, .pipe, .mmap2]

/-- The open file description behind a descriptor. -/
inductive Fd where
  | none
  | consoleRead
  | consoleWrite
  | file
  | dir
  deriving DecidableEq, Repr

/-- The user's memory as the handler finds it: the bytes, and the addresses whose
    access ends the process. -/
structure Memory where
  byte : Addr → BitVec 8
  stops : Addr → Bool

/-- What the rest of the kernel answers during the call: the descriptors, the
    allocator, the file system. The kernel heap lies above `PHYS_BASE`, so that
    no allocation is larger than what is there, unless `malloc` adds the 12 bytes
    of its header to a size that wraps with them, and takes one page; a read
    returns at most what was asked for. -/
structure Kernel where
  fd : Int → Fd
  malloc : Nat → Bool
  fileRead : Int → Nat → Nat
  nextEntry : Int → Option Nat
  execRoom : Bool
  lockRoom : Bool
  semaRoom : Bool
  linkSource : Bool
  symlinkRoom : Bool
  linkTarget : Option Nat
  malloc_le : ∀ n, malloc n = true → n ≤ 2 ^ 32 - physBase ∨ 2 ^ 32 - 11 ≤ n
  fileRead_le : ∀ fd n, fileRead fd n ≤ n

/-- A word of memory, least significant byte first. -/
def Memory.word (m : Memory) (a : Addr) : BitVec 32 :=
  m.byte (a + 3) ++ m.byte (a + 2) ++ m.byte (a + 1) ++ m.byte a

/-- `strlen`, over the whole address space. -/
def strlenFrom (m : Memory) : Nat → Addr → Nat
  | 0, _ => 0
  | n + 1, p => if m.byte p = 0 then 0 else strlenFrom m n (p + 1) + 1

def Memory.strlen (m : Memory) (p : Addr) : Nat := strlenFrom m (2 ^ 32) p

/-! ## The handler -/

/-- The last argument word that a call reads. -/
def Syscall.lastArg : Syscall → Nat
  | .halt | .fork | .ptExit | .getTid | .pipe => 0
  | .exit | .exec | .wait | .remove | .open | .filesize | .tell | .close | .practice | .ptJoin
  | .lockInit | .lockAcquire | .lockRelease | .semaDown | .semaUp | .munmap | .chdir | .mkdir
  | .isdir | .inumber => 1
  | .create | .seek | .semaInit | .mmap | .readdir | .link | .symlink => 2
  | .read | .write | .ptCreate | .readlink => 3
  | .mmap2 => 6

/-- `args[0]` to `args[n]`. -/
def argWords (esp : Addr) (n : Nat) : Range 32 := ⟨esp, 4 * (n + 1)⟩

/-- `parse_path`, and every other reader of a string: nothing of a null pointer,
    otherwise up to the terminator. -/
def readString (m : Memory) (p : Addr) : List (Range 32) :=
  if p = 0#32 then [] else [⟨p, m.strlen p + 1⟩]

/-- A `lock_t` or `sema_t` in user memory. -/
def handle (p : Addr) : Range 32 := ⟨p, 4⟩

/-- The check of a buffer, on machine words. -/
def bufferOk (buffer size : Addr) : Bool :=
  isUserVaddr buffer && isUserVaddr (buffer + size - 1#32)

/-- `SYS_READ` and `SYS_WRITE` after their arguments: the console takes the whole
    buffer, a file `used` bytes of it, by way of a buffer of the kernel. -/
def bufferCall (k : Kernel) (fd : Int) (buffer size : Addr) (console : Fd) (used : Nat) :
    List (Range 32) :=
  if size = 0#32 then []
  else if !bufferOk buffer size then []
  else if k.fd fd = console then [⟨buffer, size.toNat⟩]
  else if k.fd fd = .file then
    if k.malloc size.toNat then [⟨buffer, used⟩] else []
  else []

def sysRead (k : Kernel) (fd : Int) (buffer size : Addr) : List (Range 32) :=
  bufferCall k fd buffer size .consoleRead (k.fileRead fd size.toNat)

def sysWrite (k : Kernel) (fd : Int) (buffer size : Addr) : List (Range 32) :=
  bufferCall k fd buffer size .consoleWrite size.toNat

/-- `SYS_READDIR` after its arguments: the name and its terminator. -/
def sysReaddir (k : Kernel) (fd : Int) (name : Addr) : List (Range 32) :=
  match k.fd fd with
  | .dir =>
    match k.nextEntry fd with
    | none => []
    -- `strlcpy` refuses a null pointer
    | some len => if name = 0#32 then [] else [⟨name, min len 14 + 1⟩]
  | .none | .consoleRead | .consoleWrite | .file => []

/-- `SYS_LINK`: the second path is looked at once the first one is found. -/
def sysLink (k : Kernel) (m : Memory) (oldpath newpath : Addr) : List (Range 32) :=
  if oldpath = 0#32 ∨ newpath = 0#32 then []
  else readString m oldpath ++ if k.linkSource then readString m newpath else []

/-- `SYS_SYMLINK`: the target is read once an inode is there for it. -/
def sysSymlink (k : Kernel) (m : Memory) (target linkpath : Addr) : List (Range 32) :=
  if target = 0#32 ∨ linkpath = 0#32 then []
  else readString m linkpath ++ if k.symlinkRoom then readString m target else []

def sysReadlink (k : Kernel) (m : Memory) (path buf bufsize : Addr) : List (Range 32) :=
  if path = 0#32 ∨ buf = 0#32 then []
  else if !isUserVaddr buf || (decide (bufsize ≠ 0#32) && !isUserVaddr (buf + bufsize - 1#32)) then []
  else
    readString m path ++
      match k.linkTarget with
      | none => []
      | some len => [⟨buf, min len bufsize.toNat⟩]

/-- What a call touches after its argument words. -/
def callAccesses (k : Kernel) (m : Memory) (args : Nat → Addr) : Syscall → List (Range 32)
  | .exec => if k.execRoom then readString m (args 1) else []
  | .create | .remove | .open | .chdir | .mkdir => readString m (args 1)
  | .read => sysRead k (args 1).toInt (args 2) (args 3)
  | .write => sysWrite k (args 1).toInt (args 2) (args 3)
  | .readdir => sysReaddir k (args 1).toInt (args 2)
  | .link => sysLink k m (args 1) (args 2)
  | .symlink => sysSymlink k m (args 1) (args 2)
  | .readlink => sysReadlink k m (args 1) (args 2) (args 3)
  | .lockInit => if args 1 = 0#32 then [] else if k.lockRoom then [handle (args 1)] else []
  | .semaInit =>
    if args 1 = 0#32 ∨ (args 2).toInt < 0 then []
    else if k.semaRoom then [handle (args 1)] else []
  | .lockAcquire | .lockRelease | .semaDown | .semaUp =>
    if args 1 = 0#32 then [] else [handle (args 1)]
  | .halt | .exit | .wait | .filesize | .seek | .tell | .close | .practice | .ptCreate | .ptExit
  | .ptJoin | .getTid | .fork | .mmap | .munmap | .isdir | .inumber | .pipe | .mmap2 => []

/-- `syscall_handler`: the ranges of user addresses it reads and writes, in their order. -/
def accesses (k : Kernel) (m : Memory) (esp : Addr) : List (Range 32) :=
  let args (i : Nat) : Addr := m.word (esp + BitVec.ofNat 32 (4 * i))
  if !isUserVaddr (esp + 12#32) then []
  else
    match syscalls[(args 0).toNat]? with
    | none => [argWords esp 0]
    | some c => argWords esp c.lastArg :: callAccesses k m args c

/-- No access of the call reaches `PHYS_BASE`: the process is ended before. -/
def Isolated (k : Kernel) (m : Memory) (esp : Addr) : Prop :=
  Clean physBase m.stops ((accesses k m esp).flatMap Range.bytes)

/-! ## What no check covers -/

/-- The buffer of a call on the console, or of a size that `malloc` serves with one page. -/
def trustedBuffer (k : Kernel) (fd : Int) (buffer size : Addr) (console : Fd) (used : Nat) :
    List (Range 32) :=
  if k.fd fd = console ∨ 2 ^ 32 - 11 ≤ size.toNat then bufferCall k fd buffer size console used
  else []

/-- The ranges of a call that nothing checks well enough: the buffers above, and with the other
    calls all they touch, which are strings, handles, the name buffer of `readdir` and the buffer
    of `readlink`. -/
def trustedByCall (k : Kernel) (m : Memory) (args : Nat → Addr) : Syscall → List (Range 32)
  | .read => trustedBuffer k (args 1).toInt (args 2) (args 3) .consoleRead
      (k.fileRead (args 1).toInt (args 3).toNat)
  | .write => trustedBuffer k (args 1).toInt (args 2) (args 3) .consoleWrite (args 3).toNat
  | c => callAccesses k m args c

/-- The argument words, and what the call trusts. -/
def trusted (k : Kernel) (m : Memory) (esp : Addr) : List (Range 32) :=
  let args (i : Nat) : Addr := m.word (esp + BitVec.ofNat 32 (4 * i))
  if !isUserVaddr (esp + 12#32) then []
  else
    match syscalls[(args 0).toNat]? with
    | none => [argWords esp 0]
    | some c => argWords esp c.lastArg :: trustedByCall k m args c

/-- The check of both ends of a buffer is good for every buffer that fits the kernel heap. -/
theorem inside_of_bufferOk {k : Kernel} {buffer size : Addr} (hsize : size ≠ 0#32)
    (hok : bufferOk buffer size = true) (hfit : k.malloc size.toNat = true)
    (hwrap : ¬ 2 ^ 32 - 11 ≤ size.toNat) {n : Nat} (hn : n ≤ size.toNat) :
    (Range.mk buffer n).inside physBase := by
  unfold bufferOk isUserVaddr below at hok
  rw [Bool.and_eq_true, decide_eq_true_iff, decide_eq_true_iff] at hok
  have hle := (k.malloc_le _ hfit).resolve_right hwrap
  refine inside_of_ends_below hok.1 hok.2 hsize ?_ hn
  unfold physBase at hle ⊢
  omega

/-- Of the buffers of files, only those whose size wraps are trusted. -/
theorem within_bufferCall (k : Kernel) (stops : Addr → Bool) (fd : Int) (buffer size : Addr)
    (console : Fd) {used : Nat} (hused : used ≤ size.toNat) (words : Range 32) :
    Within physBase stops (words :: bufferCall k fd buffer size console used) ↔
      Within physBase stops (words :: trustedBuffer k fd buffer size console used) := by
  unfold trustedBuffer
  by_cases hc : k.fd fd = console ∨ 2 ^ 32 - 11 ≤ size.toNat
  · rw [if_pos hc]
  rw [if_neg hc]
  obtain ⟨hfd, hwrap⟩ := not_or.mp hc
  unfold bufferCall
  rw [if_neg hfd]
  split
  · exact Iff.rfl
  rename_i hsize
  split
  · exact Iff.rfl
  rename_i hok
  split
  · split
    · rename_i hfit
      refine within_append_inside [words] (inside_of_bufferOk hsize ?_ hfit hwrap hused)
      rwa [Bool.not_eq_true', Bool.not_eq_false] at hok
    · exact Iff.rfl
  · exact Iff.rfl

/-- **ISOLATION**: for every stack pointer, every memory and every answer of the
    rest of the kernel, the handler reads and writes below `PHYS_BASE` only,
    exactly when the ranges it trusts end there, up to one in which the process
    is ended. -/
theorem isolated_iff (k : Kernel) (m : Memory) (esp : Addr) :
    Isolated k m esp ↔ Within physBase m.stops (trusted k m esp) := by
  unfold Isolated
  rw [clean_iff (by unfold physBase; decide)]
  unfold accesses trusted
  dsimp only
  split
  · exact Iff.rfl
  · split
    · exact Iff.rfl
    · rename_i c hc
      cases c with
      | read => exact within_bufferCall k m.stops _ _ _ _ (k.fileRead_le _ _) _
      | write => exact within_bufferCall k m.stops _ _ _ _ (Nat.le_refl _) _
      | _ => exact Iff.rfl

/-- A kernel in which everything succeeds. -/
def willing : Kernel where
  fd _ := .consoleRead
  malloc n := decide (n ≤ 4096)
  fileRead _ n := n
  nextEntry _ := none
  execRoom := true
  lockRoom := true
  semaRoom := true
  linkSource := true
  symlinkRoom := true
  linkTarget := none
  malloc_le n h := .inl (by
    have := of_decide_eq_true h
    unfold physBase
    omega)
  fileRead_le _ n := Nat.le_refl n

/-- A process with all of its memory mapped that calls `lock_init` with the address of the kernel's
    first byte, from a stack in the middle of its memory. -/
def lockInitKernel : Memory where
  byte a := if a = 0x1000 then 17 else if a = 0x1007 then 0xC0 else 0
  stops _ := false

/-- **KERNEL WRITE**: `lock_init(0xC0000000)` writes the new handle over the
    kernel. -/
theorem lock_init_reaches_kernel :
    accesses willing lockInitKernel 0x1000 = [⟨0x1000, 8⟩, ⟨0xC0000000, 4⟩] ∧
      ¬ Isolated willing lockInitKernel 0x1000 := by
  have hacc : accesses willing lockInitKernel 0x1000 = [⟨0x1000, 8⟩, ⟨0xC0000000, 4⟩] := by
    decide +kernel
  refine ⟨hacc, ?_⟩
  unfold Isolated
  rw [hacc, clean_iff (by unfold physBase; decide)]
  rintro (⟨_, _, _, hstop⟩ | ⟨-, ⟨_, _, _, hstop⟩ | ⟨hin, -⟩⟩)
  · exact nomatch hstop
  · exact nomatch hstop
  · revert hin
    decide +kernel

end MavSyscall
