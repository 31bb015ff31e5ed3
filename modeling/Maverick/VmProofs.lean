import Maverick.RunProofs

/-! # Virtual memory — the model

The paging subsystem of `vm/` as one sequential state machine. A process has a supplemental page
table (`spt`, page.c), a hardware page directory (`pte`, `accessed`, `dirty`, `tables`; pagedir.c),
a list of mapped regions (mmap.c) and an executable. All processes share the frame table with its
clock hand (frame.c), the user pool behind it (palloc.c), the swap device (swap.c) and the open
files.

* Addresses are byte numbers and `upage`s are page numbers, `addr / 4096`. A `kpage` is the number
of a page of the user pool.
* A page is a function from offsets to bytes.
* Every function runs as the code does between two user instructions: it takes the state and returns
its result with the new state, or stops. A stop is an assertion that fails, a file struct used after
it was closed (the code then reads freed memory), or a loop that does not end.
* What the kernel heap answers is not decided here: `mallocs` and `tablePages` hold the answers of
the coming calls, and every call succeeds once they are used up.
* `shortage` records that an allocation failed or that no swap slot was free. No function reads it.
-/

namespace MavVm

open Function (update)

/-- The contents of one page. -/
abbrev Page := Nat → UInt8

/-- A page of zeros. -/
def zeros : Page := fun _ => 0

def PGSIZE : Nat := 4096

/-- `PHYS_BASE`, the end of user memory. -/
def PHYS_BASE : Nat := 0xc0000000

/-- `VM_STACK_MAX`; `MAX_STACK_PAGES` pages are the same number of bytes. -/
def VM_STACK_MAX : Nat := 8 * 1024 * 1024

/-- `MMAP_BASE`. -/
def MMAP_BASE : Nat := 0x40000000

/-- `enum page_status`. -/
inductive Status where
  | zero | file | frame | cow | swap
deriving DecidableEq, Repr

/-- `struct spt_entry`. `zero_bytes` is left out: a frame is zeroed when it is
    allocated, so filling the rest of the page with zeros changes nothing. -/
structure Entry where
  status : Status
  writable : Bool
  file : Option Nat
  fileOffset : Nat
  readBytes : Nat
  isMmap : Bool
  pinnedDirty : Bool
  kpage : Option Nat
  swapSlot : Nat
deriving DecidableEq, Repr

/-- A page table entry with its present bit set. -/
structure Pte where
  kpage : Nat
  writable : Bool
deriving DecidableEq, Repr

/-- `struct mmap_region`; a region without a file is anonymous. -/
structure Region where
  start : Nat
  pageCount : Nat
  length : Nat
  file : Option Nat
  offset : Nat
deriving DecidableEq, Repr

/-- `struct frame_entry`, for the `kpage` under which it is filed. -/
structure Frame where
  upage : Nat
  owner : Nat
  refCount : Nat
  pinned : Bool
deriving DecidableEq, Repr

/-- The order in which a hash table lists its keys: some rearrangement of them. -/
structure HashOrder where
  list : List Nat → List Nat
  perm : ∀ l, (list l).Perm l

/-- The state of the virtual memory. -/
structure Vm where
  /-- processes that were started; a process identifier is used once -/
  born : Nat → Bool
  /-- the process has a PCB and a page directory -/
  alive : Nat → Bool
  spt : Nat → Nat → Option Entry
  /-- the keys of the supplemental page table -/
  upages : Nat → List Nat
  pte : Nat → Nat → Option Pte
  accessed : Nat → Nat → Bool
  dirty : Nat → Nat → Bool
  /-- the page tables that exist, one for each 1024 pages -/
  tables : Nat → Nat → Bool
  regions : Nat → List Region
  executable : Nat → Option Nat
  /-- `frame_list`, by `kpage` -/
  order : List Nat
  frame : Nat → Frame
  /-- `clock_hand` -/
  hand : Option Nat
  mem : Nat → Page
  /-- the bitmap of the user pool -/
  pool : Nat → Bool
  poolSize : Nat
  swapUsed : Nat → Bool
  swapSize : Nat
  swapData : Nat → Page
  /-- the file structs that are open, and the inode each one was opened on -/
  isOpen : Nat → Bool
  inodeOf : Nat → Nat
  denies : Nat → Bool
  nextHandle : Nat
  /-- the bytes, length and deny count of each inode, and the length that
      `inode_extend` finds sectors for -/
  data : Nat → Nat → UInt8
  length : Nat → Nat
  room : Nat → Nat
  deny : Nat → Nat
  mallocs : List Bool
  tablePages : List Bool
  shortage : Bool
  hash : HashOrder

/-- Why a function does not return. -/
inductive Cause where
  /-- `ASSERT (bitmap_test (swap_bitmap, slot))` in swap.c -/
  | swapAssert
  /-- `ASSERT ((*pte & PTE_P) == 0)` in `pagedir_set_page` -/
  | presentAssert
  /-- a file struct is used after `file_close` freed it -/
  | closedFile
  /-- the loop does not end -/
  | spins
  /-- the operation is not one that can be asked for in this state -/
  | notAllowed
deriving DecidableEq, Repr

/-- A function that does not return, and whether something had run short before. -/
structure Stop where
  cause : Cause
  shortage : Bool
deriving DecidableEq, Repr

/-- Stop in state `s`. -/
def stop {α : Type} (s : Vm) (cause : Cause) : Except Stop α := .error ⟨cause, s.shortage⟩

/-! ## The kernel heap, the page directory and the tables -/

def malloc (s : Vm) : Bool × Vm :=
  match s.mallocs with
  | [] => (true, s)
  | ok :: rest => (ok, { s with mallocs := rest, shortage := s.shortage || !ok })

/-- The kernel page for a new page table. -/
def tablePage (s : Vm) : Bool × Vm :=
  match s.tablePages with
  | [] => (true, s)
  | ok :: rest => (ok, { s with tablePages := rest, shortage := s.shortage || !ok })

/-- Update one cell of a table indexed by process and page. -/
def set2 {α : Type} (f : Nat → Nat → α) (p u : Nat) (x : α) : Nat → Nat → α :=
  fun q v => if q = p ∧ v = u then x else f q v

/-- `lookup_page` with `create` set: the page table for page `u`, made when it is missing. -/
def lookupPage (s : Vm) (p u : Nat) : Bool × Vm :=
  if s.tables p (u / 1024) then (true, s)
  else
    match tablePage s with
    | (false, s) => (false, s)
    | (true, s) => (true, { s with tables := set2 s.tables p (u / 1024) true })

/-- A page table entry as `pte_create_user` makes it: the other bits are clear. -/
def writePte (s : Vm) (p u k : Nat) (writable : Bool) : Vm :=
  { s with
    pte := set2 s.pte p u (some ⟨k, writable⟩)
    accessed := set2 s.accessed p u false
    dirty := set2 s.dirty p u false }

def pagedirSetPage (s : Vm) (p u k : Nat) (writable : Bool) : Except Stop (Bool × Vm) :=
  match lookupPage s p u with
  | (false, s) => .ok (false, s)
  | (true, s) =>
    match s.pte p u with
    | some _ => stop s .presentAssert
    | none => .ok (true, writePte s p u k writable)

/-- `pagedir_clear_page`: only the present bit goes. -/
def pagedirClearPage (s : Vm) (p u : Nat) : Vm :=
  { s with pte := set2 s.pte p u none }

def pagedirSetWritable (s : Vm) (p u : Nat) (writable : Bool) : Vm :=
  match s.pte p u with
  | none => s
  | some t => { s with pte := set2 s.pte p u (some { t with writable := writable }) }

/-- Write the entry of a page that has one. -/
def setEntry (s : Vm) (p u : Nat) (e : Entry) : Vm :=
  { s with spt := set2 s.spt p u (some e) }

/-- `spt_insert`, for a page without an entry. -/
def sptInsert (s : Vm) (p u : Nat) (e : Entry) : Vm :=
  { s with
    spt := set2 s.spt p u (some e)
    upages := update s.upages p (s.upages p ++ [u]) }

/-- `hash_delete` of the entry of a page. -/
def sptDelete (s : Vm) (p u : Nat) : Vm :=
  { s with
    spt := set2 s.spt p u none
    upages := update s.upages p ((s.upages p).erase u) }

/-! ## Swap -/

/-- A slot is taken and written. -/
def swapStore (s : Vm) (slot : Nat) (page : Page) : Vm :=
  { s with
    swapUsed := update s.swapUsed slot true
    swapData := update s.swapData slot page }

/-- A slot is given back. -/
def swapRelease (s : Vm) (slot : Nat) : Vm :=
  { s with swapUsed := update s.swapUsed slot false }

/-- A frame is filled. -/
def setMem (s : Vm) (k : Nat) (page : Page) : Vm :=
  { s with mem := update s.mem k page }

/-- `swap_out`: the first free slot takes the frame's contents. -/
def swapOut (s : Vm) (k : Nat) : Option Nat × Vm :=
  match (List.range s.swapSize).find? (fun slot => !s.swapUsed slot) with
  | none => (none, { s with shortage := true })
  | some slot => (some slot, swapStore s slot (s.mem k))

def swapFree (s : Vm) (slot : Nat) : Except Stop Vm :=
  if s.swapUsed slot then .ok (swapRelease s slot) else stop s .swapAssert

def swapIn (s : Vm) (slot k : Nat) : Except Stop Vm :=
  if s.swapUsed slot then .ok (swapRelease (setMem s k (s.swapData slot)) slot)
  else stop s .swapAssert

/-! ## Files -/

/-- `file_open` on an inode. -/
def fileOpen (s : Vm) (inode : Nat) : Option Nat × Vm :=
  match malloc s with
  | (false, s) => (none, s)
  | (true, s) => (some s.nextHandle, { s with
      isOpen := update s.isOpen s.nextHandle true
      inodeOf := update s.inodeOf s.nextHandle inode
      denies := update s.denies s.nextHandle false
      nextHandle := s.nextHandle + 1 })

def fileDenyWrite (s : Vm) (h : Nat) : Except Stop Vm :=
  if !s.isOpen h then stop s .closedFile
  else if s.denies h then .ok s
  else .ok { s with
    denies := update s.denies h true
    deny := update s.deny (s.inodeOf h) (s.deny (s.inodeOf h) + 1) }

/-- `file_close`, with the `file_allow_write` it does first. -/
def fileClose (s : Vm) (h : Nat) : Except Stop Vm :=
  if !s.isOpen h then stop s .closedFile
  else .ok { s with
    isOpen := update s.isOpen h false
    denies := update s.denies h false
    deny := if s.denies h then
        update s.deny (s.inodeOf h) (s.deny (s.inodeOf h) - 1)
      else s.deny }

/-- What `inode_write_at` leaves: a write past the end of the file extends it. -/
def inodeWriteAt (s : Vm) (inode : Nat) (page : Page) (size offset : Nat) : Vm :=
  { s with
    data := update s.data inode fun i =>
      if offset ≤ i ∧ i < offset + size then page (i - offset) else s.data inode i
    length := update s.length inode (max (s.length inode) (offset + size)) }

/-- Writes to the inode are not denied, and those that end at `pos` find sectors. -/
def Vm.takes (s : Vm) (inode pos : Nat) : Prop :=
  s.deny inode = 0 ∧ pos ≤ max (s.length inode) (s.room inode)
deriving Decidable

/-- `file_write_at`: the number of bytes written, all or none. -/
def fileWriteAt (s : Vm) (h : Nat) (page : Page) (size offset : Nat) : Except Stop (Nat × Vm) :=
  if !s.isOpen h then stop s .closedFile
  else if s.takes (s.inodeOf h) (offset + size) then
    .ok (size, inodeWriteAt s (s.inodeOf h) page size offset)
  else .ok (0, s)

/-- What `file_read` leaves in a zeroed frame. -/
def filePage (s : Vm) (inode offset size : Nat) : Page :=
  fun i => if i < size then s.data inode (offset + i) else 0

/-! ## The frame table -/

/-- `clock_advance`: the next frame of the list, round to the first. -/
def clockAdvance (order : List Nat) (k : Nat) : Nat :=
  match order.dropWhile (fun k' => k' ≠ k) with
  | _ :: next :: _ => next
  | _ => order.headD k

/-- Take a frame off `frame_list`. -/
def listRemove (s : Vm) (k : Nat) (hand : Option Nat) : Vm :=
  { s with order := s.order.erase k, hand := hand }

/-- The clock hand moved past a frame, `NULL` when there is no other. -/
def handPast (s : Vm) (k : Nat) : Option Nat :=
  if clockAdvance s.order k = k then none else some (clockAdvance s.order k)

/-- Set the pinned flag: `frame_pin`, `frame_unpin`. -/
def setPinned (s : Vm) (k : Nat) (pinned : Bool) : Vm :=
  if k ∈ s.order then
    { s with frame := update s.frame k { s.frame k with pinned := pinned } }
  else s

/-- Write the reference count of a frame. -/
def setRefCount (s : Vm) (k n : Nat) : Vm :=
  { s with frame := update s.frame k { s.frame k with refCount := n } }

/-- One more reference. -/
def frameShare (s : Vm) (k : Nat) : Vm :=
  if k ∈ s.order then setRefCount s k ((s.frame k).refCount + 1) else s

def frameFree (s : Vm) (k : Nat) : Vm :=
  if k ∈ s.order then
    if 1 < (s.frame k).refCount then setRefCount s k ((s.frame k).refCount - 1)
    else
      { listRemove s k (if s.hand = some k then handPast s k else s.hand) with
        pool := update s.pool k false }
  else s

/-- The part of `frame_evict` that writes a dirty page to swap: when no slot is
    free the page table entry is put back. -/
def evictToSwap (s : Vm) (k : Nat) : Except Stop (Bool × Vm) :=
  let p := (s.frame k).owner
  let u := (s.frame k).upage
  match swapOut s k with
  | (none, s) => do
      let (_, s) ← pagedirSetPage s p u k (((s.spt p u).map (·.writable)).getD true)
      .ok (false, s)
  | (some slot, s) =>
    match s.spt p u with
    | none => .ok (true, s)
    | some e => .ok (true, setEntry s p u
        { e with status := .swap, swapSlot := slot, kpage := none, pinnedDirty := true })

/-- The part of `frame_evict` for the chosen victim: unmap the recorded page, save its contents and
    update the recorded owner's entry. `false` when the contents could not be saved. -/
def evictPage (s : Vm) (k : Nat) : Except Stop (Bool × Vm) :=
  let p := (s.frame k).owner
  let u := (s.frame k).upage
  let s := pagedirClearPage s p u
  match s.spt p u with
  | none => if s.dirty p u then evictToSwap s k else .ok (true, s)
  | some e =>
    if s.dirty p u || e.pinnedDirty || e.writable then
      match e.file with
      | some h =>
        if e.writable && e.isMmap then do
          let (written, s) ← fileWriteAt s h (s.mem k) e.readBytes e.fileOffset
          if written = e.readBytes then
            .ok (true, setEntry s p u { e with status := .file, kpage := none })
          else evictToSwap s k
        else evictToSwap s k
      | none => evictToSwap s k
    else
      .ok (true, setEntry s p u
        { e with status := if e.file.isSome then .file else .zero, kpage := none })

/-- The loop of `frame_evict`, with the clock at frame `k`. -/
def evictLoop (start : Nat) : Nat → Nat → Vm → Except Stop (Option Nat × Vm)
  | 0, _, s => .ok (none, { s with shortage := true })
  | n + 1, k, s =>
    let f := s.frame k
    if f.pinned || 1 < f.refCount then evictLoop start n (clockAdvance s.order k) s
    else if !s.alive f.owner then .ok (some k, listRemove s k (handPast s k))
    else if s.accessed f.owner f.upage then
      evictLoop start n (clockAdvance s.order k)
        { s with accessed := set2 s.accessed f.owner f.upage false }
    else do
      let (saved, s) ← evictPage s k
      if saved then .ok (some k, listRemove s k (handPast s k))
      else if clockAdvance s.order k = start then .ok (none, { s with shortage := true })
      else evictLoop start n (clockAdvance s.order k) s

def frameEvict (s : Vm) : Except Stop (Option Nat × Vm) :=
  match s.order with
  | [] => .ok (none, { s with shortage := true })
  | first :: _ =>
    let start := s.hand.getD first
    evictLoop start (2 * s.order.length) start { s with hand := some start }

/-- The page `palloc_get_page` finds in the user pool. -/
def freePage (s : Vm) : Option Nat :=
  (List.range s.poolSize).find? fun k => !s.pool k

/-- The end of `frame_alloc`: the zeroed page enters the frame table, pinned. -/
def enterFrame (s : Vm) (p u k : Nat) : Vm :=
  { s with
    pool := update s.pool k true
    mem := update s.mem k zeros
    order := s.order ++ [k]
    frame := update s.frame k ⟨u, p, 1, true⟩ }

/-- `frame_alloc` by process `p` for its page `u`. -/
def frameAlloc (s : Vm) (p u : Nat) : Except Stop (Option Nat × Vm) :=
  match malloc s with
  | (false, s) => .ok (none, s)
  | (true, s) =>
    match freePage s with
    | some k => .ok (some k, enterFrame s p u k)
    | none => do
        let (found, s) ← frameEvict s
        match found with
        | none => .ok (none, s)
        | some k => .ok (some k, enterFrame s p u k)

/-! ## Loading a page -/

/-- What `spt_load_page` fills a new frame with: `false` when the read came out short. -/
def fillFrame (s : Vm) (e : Entry) (k : Nat) : Except Stop (Bool × Vm) :=
  match e.status with
  | .zero => .ok (true, setMem s k zeros)
  | .file =>
    match e.file with
    | none => .ok (false, s)
    | some h =>
      if !s.isOpen h then stop s .closedFile
      else if e.fileOffset + e.readBytes ≤ s.length (s.inodeOf h) ∨ e.readBytes = 0 then
        .ok (true, setMem s k (filePage s (s.inodeOf h) e.fileOffset e.readBytes))
      else .ok (false, s)
  | .swap => do
      let s ← swapIn s e.swapSlot k
      .ok (true, s)
  | .frame | .cow => .ok (false, s)

/-- `spt_load_page` for page `u` of process `p`: the frame, when the page came in. -/
def sptLoadPage (s : Vm) (p u : Nat) : Except Stop (Option Nat × Vm) := do
  let (found, s) ← frameAlloc s p u
  match found with
  | none => .ok (none, s)
  | some k =>
    match s.spt p u with
    | none => stop s .notAllowed
    | some e => do
        let (filled, s) ← fillFrame s e k
        if filled then do
          let (installed, s) ← pagedirSetPage s p u k e.writable
          if installed then
            .ok (some k, setEntry
              (if e.status = .swap then { s with dirty := set2 s.dirty p u true } else s) p u
              { e with
                status := .frame
                kpage := some k
                pinnedDirty := e.pinnedDirty || decide (e.status = .swap) })
          else .ok (none, frameFree s k)
        else .ok (none, frameFree s k)

/-- `vm_is_stack_access`; `esp - 32` wraps as the pointer does. -/
def vmIsStackAccess (addr esp : Nat) : Bool :=
  addr < PHYS_BASE && (esp + 2 ^ 32 - 32) % 2 ^ 32 ≤ addr && PHYS_BASE - VM_STACK_MAX ≤ addr

/-- A zero-filled page that is not loaded yet. -/
def zeroEntry (writable isMmap : Bool) : Entry :=
  ⟨.zero, writable, none, 0, 0, isMmap, false, none, 0⟩

/-- A file-backed page that is not loaded yet. -/
def fileEntry (h offset readBytes : Nat) (writable isMmap : Bool) : Entry :=
  ⟨.file, writable, some h, offset, readBytes, isMmap, false, none, 0⟩

/-! ## Mapped files -/

/-- `mmap_find_region_locked`. -/
def mmapFindRegion (s : Vm) (p addr : Nat) : Option Region :=
  (s.regions p).find? fun r => r.start * PGSIZE ≤ addr && addr < (r.start + r.pageCount) * PGSIZE

/-- `mmap_range_available` for `pages` pages from `start`. -/
def mmapRangeAvailable (s : Vm) (p start pages : Nat) : Bool :=
  start * PGSIZE < PHYS_BASE && (start + pages) * PGSIZE < PHYS_BASE &&
    (List.range pages).all (fun i => (s.spt p (start + i)).isNone) &&
    !(PHYS_BASE - VM_STACK_MAX < (start + pages) * PGSIZE)

def sptRemove (s : Vm) (p u : Nat) : Except Stop Vm :=
  match s.spt p u with
  | none => .ok s
  | some e =>
    match e.status, e.kpage with
    | .frame, some k => .ok (frameFree (sptDelete s p u) k)
    | .swap, _ => swapFree (sptDelete s p u) e.swapSlot
    | _, _ => .ok (sptDelete s p u)

/-- `spt_remove` on the `n` pages from `start`. -/
def sptRemoveAll (p start : Nat) : Nat → Vm → Except Stop Vm
  | 0, s => .ok s
  | n + 1, s => do
      let s ← sptRemoveAll p start n s
      sptRemove s p (start + n)

/-- The entry `mmap_create` makes for page `i` of a mapping of `length` bytes, or
    `mmap_create_anon` when there is no file. -/
def mapEntry (file : Option Nat) (offset length i : Nat) : Entry :=
  match file with
  | none => zeroEntry true true
  | some h => fileEntry h (offset + i * PGSIZE) (min PGSIZE (length - i * PGSIZE)) true true

/-- The loop that creates the entries of a mapping; `false` after it removed them again. -/
def mapPages (p start : Nat) (file : Option Nat) (offset length : Nat) :
    Nat → Nat → Vm → Except Stop (Bool × Vm)
  | _, 0, s => .ok (true, s)
  | i, n + 1, s =>
    match malloc s with
    | (false, s) => do
        let s ← sptRemoveAll p start i s
        .ok (false, s)
    | (true, s) =>
      mapPages p start file offset length (i + 1) n
        (sptInsert s p (start + i) (mapEntry file offset length i))

/-- `DIV_ROUND_UP (length, PGSIZE)`; the sum wraps. -/
def pagesOf (length : Nat) : Nat := (length + PGSIZE - 1) % 2 ^ 32 / PGSIZE

/-- `list_push_back` on the list of regions. -/
def addRegion (s : Vm) (p : Nat) (r : Region) : Vm :=
  { s with regions := update s.regions p (s.regions p ++ [r]) }

/-- `mmap_create`, for a file descriptor open on `inode`. -/
def mmapCreate (s : Vm) (p addr length inode offset : Nat) : Except Stop (Bool × Vm) :=
  if addr = 0 ∨ addr % PGSIZE ≠ 0 ∨ offset % PGSIZE ≠ 0 ∨ length = 0 ∨ s.length inode = 0 then
    .ok (false, s)
  else if !mmapRangeAvailable s p (addr / PGSIZE) (pagesOf length) then .ok (false, s)
  else
    match fileOpen s inode with
    | (none, s) => .ok (false, s)
    | (some h, s) =>
      match malloc s with
      | (false, s) => do
          let s ← fileClose s h
          .ok (false, s)
      | (true, s) => do
          let (made, s) ←
            mapPages p (addr / PGSIZE) (some h) offset length 0 (pagesOf length) s
          if made then
            .ok (true, addRegion s p ⟨addr / PGSIZE, pagesOf length, length, some h, offset⟩)
          else do
            let s ← fileClose s h
            .ok (false, s)

/-- `find_free_address`, trying `n` pages from `start` on. -/
def findFreeAddress (s : Vm) (p pages : Nat) : Nat → Nat → Option Nat
  | _, 0 => none
  | start, n + 1 =>
    if PHYS_BASE - VM_STACK_MAX < (start + pages) * PGSIZE then none
    else if mmapRangeAvailable s p start pages then some start
    else findFreeAddress s p pages (start + 1) n

/-- The pages between `MMAP_BASE` and the stack region. -/
def mmapPages : Nat := (PHYS_BASE - VM_STACK_MAX - MMAP_BASE) / PGSIZE + 1

/-- Where `mmap_create_anon` puts a mapping of `pages` pages. -/
def anonStart (s : Vm) (p addr pages : Nat) : Option Nat :=
  if addr = 0 then findFreeAddress s p pages (MMAP_BASE / PGSIZE) mmapPages
  else if mmapRangeAvailable s p (addr / PGSIZE) pages then some (addr / PGSIZE)
  else none

def mmapCreateAnon (s : Vm) (p addr length : Nat) : Except Stop (Bool × Vm) :=
  if length = 0 ∨ addr % PGSIZE ≠ 0 then .ok (false, s)
  else
    match anonStart s p addr (pagesOf length) with
    | none => .ok (false, s)
    | some start =>
      match malloc s with
      | (false, s) => .ok (false, s)
      | (true, s) => do
          let (made, s) ← mapPages p start none 0 length 0 (pagesOf length) s
          if made then
            .ok (true, addRegion s p ⟨start, pagesOf length, length, none, 0⟩)
          else .ok (false, s)

/-! ## Processes -/

/-- The fields a clone copies. -/
def cloneOf (e : Entry) (status : Status) (kpage : Option Nat) (slot : Nat) : Entry :=
  { e with status := status, kpage := kpage, swapSlot := slot }

/-- Pass 2 of `spt_clone`: the parent's resident pages are copy-on-write. -/
def markCow (s : Vm) (p : Nat) : Vm :=
  { s with spt := update s.spt p fun u =>
      (s.spt p u).map fun e => if e.status = .frame then { e with status := .cow } else e }

/-- A process with an empty address space: `pcb_init` and `pagedir_create`. -/
def startProcess (s : Vm) (c : Nat) : Vm :=
  { s with
    born := update s.born c true
    alive := update s.alive c true }

/-- The child's own handle on its executable. -/
def forkExecutable (s : Vm) (p c : Nat) : Except Stop Vm :=
  match s.executable p with
  | none => .ok s
  | some h =>
    if !s.isOpen h then stop s .closedFile
    else
      match fileOpen s (s.inodeOf h) with
      | (none, s) => .ok s
      | (some h', s) =>
        fileDenyWrite { s with executable := update s.executable c (some h') } h'

/-- A page of an executable's segments. -/
structure Segment where
  upage : Nat
  offset : Nat
  readBytes : Nat
  writable : Bool
deriving DecidableEq, Repr

/-- The entry `load_segment` makes for a page. -/
def segmentEntry (h : Nat) (g : Segment) : Entry :=
  if g.readBytes = 0 then zeroEntry g.writable false
  else fileEntry h g.offset g.readBytes g.writable false

/-- `load_segment` and `setup_stack`: one entry for each page of the image. -/
def loadSegments (c h : Nat) : List Segment → Vm → Except Stop Vm
  | [], s => .ok s
  | g :: gs, s =>
    if (s.spt c g.upage).isSome then stop s .notAllowed
    else loadSegments c h gs (sptInsert s c g.upage (segmentEntry h g))

/-- `start_process` and `load` of an executable that loads: process `c` with the
    pages of the image and of the first stack page. -/
def execProcess (s : Vm) (c inode : Nat) (image : List Segment) : Except Stop Vm :=
  match fileOpen (startProcess s c) inode with
  | (none, s) => stop s .notAllowed
  | (some h, s) => do
      let s ← loadSegments c h image s
      fileDenyWrite { s with executable := update s.executable c (some h) } h

/-- No process, all memory free. -/
def boot (hash : HashOrder) (poolSize swapSize : Nat) (data : Nat → Nat → UInt8)
    (length room : Nat → Nat) : Vm where
  born := fun _ => false
  alive := fun _ => false
  spt := fun _ _ => none
  upages := fun _ => []
  pte := fun _ _ => none
  accessed := fun _ _ => false
  dirty := fun _ _ => false
  tables := fun _ _ => false
  regions := fun _ => []
  executable := fun _ => none
  order := []
  frame := fun _ => ⟨0, 0, 0, false⟩
  hand := none
  mem := fun _ => zeros
  pool := fun _ => false
  poolSize := poolSize
  swapUsed := fun _ => false
  swapSize := swapSize
  swapData := fun _ => zeros
  isOpen := fun _ => false
  inodeOf := fun _ => 0
  denies := fun _ => false
  nextHandle := 0
  data := data
  length := length
  room := room
  deny := fun _ => 0
  mallocs := []
  tablePages := []
  shortage := false
  hash := hash

end MavVm
