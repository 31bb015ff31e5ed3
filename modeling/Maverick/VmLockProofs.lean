import Maverick.VmProofs
import Maverick.LockLogicProofs

/-! # The locks of the virtual memory — the model

The functions of `vm/` as programs of threads that run at the same time: the data is the state of
`VmProofs`, and every `lock_acquire` and `lock_release` on `frame_lock`, an `spt_lock`, an
`mmap_lock` or `swap_lock` is a step of its own. What the code does to the data between two lock
operations is one step for each stretch that reads or writes shared data.

* A thread is a process and a number, so a process may have any number of threads. A fork is run by
the child's first thread, as `start_fork` is.
* A grip on a lock names the function whose `lock_acquire` took it.
* A section under a lock has one release at its end (`holding`), for the releases of its returns.
* A pointer to an `spt_entry` is the page it is filed under. Where the code goes on with a pointer
to an entry that is no longer there it reads freed memory, and the program stops.
* The iterator of `spt_clone` and `hash_destroy` goes through the keys the table had when the walk
began. -/

namespace MavVmLock

open MavLock MavLock.Prog
open Function (update)
open MavVm (Vm Entry Region Segment PGSIZE PHYS_BASE)

/-- The locks of `vm/`: one `frame_lock` and one `swap_lock`, an `spt_lock` and an
    `mmap_lock` for each process. -/
inductive Lock where
  | frame
  | spt (p : Nat)
  | mmap (p : Nat)
  | swap
deriving DecidableEq, Repr

/-- The functions that call `lock_acquire`. -/
inductive Site where
  | frameAlloc | frameShare | frameFree | framePin | framePinIfPresent | frameUnpin | frameEvict
  | swapOut | swapIn | swapFree
  | vmHandleFault | sptClone | sptDestroy
  | mmapCleanupPages | mmapCreate | mmapCreateAnon | mmapDestroy | mmapFindAndDestroy
  | mmapDestroyAll
deriving DecidableEq, Repr

/-- The loop of `mmap_cleanup_pages` for one page, which is entered again as long
    as the page moves. -/
structure Cleanup where
  pid : Nat
  region : Region
  page : Nat

/-- Code of `vm/`. -/
abbrev Code := Prog Vm Lock Site Cleanup

/-- Write fields of the entry of a page, if it has one. -/
def edit (p u : Nat) (f : Entry → Entry) (s : Vm) : Vm :=
  match s.spt p u with
  | none => s
  | some e => MavVm.setEntry s p u (f e)

/-- The same through a pointer: the entry has to be there. -/
def editThrough (p u : Nat) (f : Entry → Entry) (s : Vm) : Option (Unit × Vm) :=
  (s.spt p u).map fun e => ((), MavVm.setEntry s p u (f e))

/-! ## Swap and the frame table -/

def swapOut (k : Nat) : Code (Option Nat) :=
  holding .swap .swapOut (atomically fun s => MavVm.swapOut s k)

def swapIn (slot k : Nat) : Code Unit :=
  holding .swap .swapIn (attempt fun s => (MavVm.swapIn s slot k).toOption.map ((), ·))

def swapFree (slot : Nat) : Code Unit :=
  holding .swap .swapFree (attempt fun s => (MavVm.swapFree s slot).toOption.map ((), ·))

def frameShare : Option Nat → Code Unit
  | none => return ()
  | some k => holding .frame .frameShare (update fun s => MavVm.frameShare s k)

/-- Set the pinned flag of a frame, if the page is one. -/
def setPinned (k : Option Nat) (pinned : Bool) (s : Vm) : Vm :=
  match k with
  | none => s
  | some k => MavVm.setPinned s k pinned

def framePin (k : Option Nat) : Code Unit :=
  holding .frame .framePin (update (setPinned k true))

def frameUnpin (k : Option Nat) : Code Unit :=
  holding .frame .frameUnpin (update (setPinned k false))

def framePinIfPresent : Option Nat → Code Bool
  | none => return false
  | some k =>
    holding .frame .framePinIfPresent (atomically fun s =>
      (decide (k ∈ s.order), MavVm.setPinned s k true))

/-- The part of `frame_free` under the lock: `true` when the last reference is gone. -/
def dropReference (k : Nat) (s : Vm) : Bool × Vm :=
  if k ∈ s.order then
    if 1 < (s.frame k).refCount then (false, MavVm.setRefCount s k ((s.frame k).refCount - 1))
    else (true, MavVm.listRemove s k (if s.hand = some k then MavVm.handPast s k else s.hand))
  else (false, s)

def pallocFreePage (k : Nat) (s : Vm) : Vm :=
  { s with pool := update s.pool k false }

def frameFree : Option Nat → Code Unit
  | none => return ()
  | some k => do
      let last ← holding .frame .frameFree (atomically (dropReference k))
      if last then update (pallocFreePage k) else return ()

/-! ## Eviction -/

/-- What `frame_evict` makes of the frame under the clock hand. -/
inductive Look where
  | skip (next : Nat)
  | reclaim
  | victim (p u : Nat)

/-- The loop body of `frame_evict` up to the choice of the victim. -/
def examine (k : Nat) (s : Vm) : Look × Vm :=
  let f := s.frame k
  if f.pinned || 1 < f.refCount then (.skip (MavVm.clockAdvance s.order k), s)
  else if !s.alive f.owner then (.reclaim, MavVm.listRemove s k (MavVm.handPast s k))
  else if s.accessed f.owner f.upage then
    (.skip (MavVm.clockAdvance s.order k),
      { s with accessed := MavVm.set2 s.accessed f.owner f.upage false })
  else (.victim f.owner f.upage, s)

/-- How a victim's contents are kept. -/
inductive Fate where
  | dropped
  | toFile (h readBytes offset : Nat)
  | toSwap

/-- The page table entry is cleared, and the fate of the contents decided; a
    clean page is done with. `found` says that there is a table to look in. -/
def unmapVictim (p u : Nat) (found : Bool) (s : Vm) : Fate × Vm :=
  let s := MavVm.pagedirClearPage s p u
  match if found then s.spt p u else none with
  | none => (if s.dirty p u then .toSwap else .dropped, s)
  | some e =>
    if s.dirty p u || e.pinnedDirty || e.writable then
      match e.file with
      | some h =>
        (if e.writable && e.isMmap then .toFile h e.readBytes e.fileOffset else .toSwap, s)
      | none => (.toSwap, s)
    else
      (.dropped, MavVm.setEntry s p u
        { e with status := if e.file.isSome then .file else .zero, kpage := none })

/-- The page table entry is put back when swap is full. -/
def restoreVictim (k p u : Nat) (found : Bool) (s : Vm) : Option (Bool × Vm) :=
  let writable := if found then ((s.spt p u).map (·.writable)).getD true else true
  (MavVm.pagedirSetPage s p u k writable).toOption

/-- The page is in swap. -/
def toSwap (slot : Nat) (e : Entry) : Entry :=
  { e with status := .swap, swapSlot := slot, kpage := none, pinnedDirty := true }

/-- The victim goes to swap. -/
def saveToSwap (k p u : Nat) (found : Bool) : Code Bool := do
  match ← swapOut k with
  | none => do
      let _ ← attempt (restoreVictim k p u found)
      return false
  | some slot => do
      update fun s => if found then edit p u (toSwap slot) s else s
      return true

/-- The part of `frame_evict` between taking and giving back the owner's
    `spt_lock`: `true` when the contents are safe. -/
def evictPage (k p u : Nat) (found : Bool) : Code Bool := do
  match ← atomically (unmapVictim p u found) with
  | .dropped => return true
  | .toSwap => saveToSwap k p u found
  | .toFile h bytes offset => do
      let written ← attempt fun s => (MavVm.fileWriteAt s h (s.mem k) bytes offset).toOption
      if written = bytes then do
        update (edit p u fun e => { e with status := .file, kpage := none })
        return true
      else saveToSwap k p u found

/-- The victim at `k`: the owner is looked at once more, and its `spt_lock` is
    taken if it still has a PCB. -/
def evictVictim (k p u : Nat) : Code Bool := do
  let found ← inspect (·.alive p)
  if found then holding (.spt p) .frameEvict (evictPage k p u true)
  else evictPage k p u false

/-- The loop of `frame_evict`, with the clock at frame `k`. -/
def evictLoop (start : Nat) : Nat → Nat → Code (Option Nat)
  | 0, _ => return none
  | n + 1, k => do
      match ← atomically (examine k) with
      | .skip next => evictLoop start n next
      | .reclaim => return some k
      | .victim p u => do
          let saved ← evictVictim k p u
          if saved then do
            update fun s => MavVm.listRemove s k (MavVm.handPast s k)
            return some k
          else do
            let next ← inspect fun s => MavVm.clockAdvance s.order k
            if next = start then return none else evictLoop start n next

/-- Where the scan begins, and how many frames there are. -/
def scanFrom (s : Vm) : Option (Nat × Nat) × Vm :=
  match s.order with
  | [] => (none, s)
  | first :: _ =>
    (some (s.hand.getD first, s.order.length), { s with hand := some (s.hand.getD first) })

def frameEvict : Code (Option Nat) :=
  holding .frame .frameEvict do
    match ← atomically scanFrom with
    | none => return none
    | some (start, n) => evictLoop start (2 * n) start

/-- `palloc_get_page` on the user pool. -/
def pallocGetPage (s : Vm) : Option Nat × Vm :=
  match MavVm.freePage s with
  | none => (none, s)
  | some k => (some k, { s with pool := update s.pool k true })

/-- The new frame, pinned, at the end of `frame_list`. -/
def listPush (p u k : Nat) (s : Vm) : Vm :=
  { s with
    order := s.order ++ [k]
    frame := update s.frame k ⟨u, p, 1, true⟩ }

/-- The end of `frame_alloc`: the zeroed page is entered in the table. -/
def enterFrame (p u k : Nat) : Code (Option Nat) := do
  update fun s => MavVm.setMem s k MavVm.zeros
  holding .frame .frameAlloc (update (listPush p u k))
  return some k

/-- `frame_alloc` by a thread of process `p`. -/
def frameAlloc (p u : Nat) : Code (Option Nat) := do
  let ok ← atomically MavVm.malloc
  if ok then
    match ← atomically pallocGetPage with
    | some k => enterFrame p u k
    | none =>
      match ← frameEvict with
      | some k => enterFrame p u k
      | none => return none
  else return none

/-! ## Page faults -/

/-- What `spt_load_page` fills the frame with. -/
def fillFrame (e : Entry) (k : Nat) : Code Bool :=
  match e.status with
  | .swap => do
      swapIn e.swapSlot k
      return true
  | _ => attempt fun s => (MavVm.fillFrame s e k).toOption

/-- The end of `spt_load_page`: the entry is over its frame. -/
def finishLoad (p u k : Nat) (s : Vm) : Option (Unit × Vm) :=
  (s.spt p u).map fun e => ((), MavVm.setEntry
    (if e.status = .swap then { s with dirty := MavVm.set2 s.dirty p u true } else s) p u
    { e with
      status := .frame
      kpage := some k
      pinnedDirty := e.pinnedDirty || decide (e.status = .swap) })

/-- `spt_load_page`, by a thread of process `p`. -/
def sptLoadPage (p u : Nat) : Code Bool := do
  match ← frameAlloc p u with
  | none => return false
  | some k =>
    match ← inspect (·.spt p u) with
    | none => .halt
    | some e => do
        let filled ← fillFrame e k
        if filled then do
          let installed ← attempt fun s => (MavVm.pagedirSetPage s p u k e.writable).toOption
          if installed then do
            attempt (finishLoad p u k)
            return true
          else do
            frameFree (some k)
            return false
        else do
          frameFree (some k)
          return false

/-- What the first section of `vm_handle_fault` finds. -/
inductive Found where
  | refuse
  | cow (kpage : Option Nat)
  | load

/-- The checks on an entry before it is loaded. -/
def checkLoad (write : Bool) (e : Entry) : Found :=
  if write && !e.writable then .refuse
  else if e.status = .frame then .refuse
  else .load

/-- The first section of `vm_handle_fault`. -/
def lookUp (p addr : Nat) (write notPresent : Bool) (esp : Nat) (s : Vm) : Found × Vm :=
  let u := addr / PGSIZE
  match s.spt p u with
  | some e =>
    if !notPresent && write && e.status = .cow then
      (if e.writable then .cow e.kpage else .refuse, s)
    else if !notPresent then (.refuse, s)
    else (checkLoad write e, s)
  | none =>
    if notPresent && MavVm.vmIsStackAccess addr esp then
      match MavVm.malloc s with
      | (false, s) => (.refuse, s)
      | (true, s) =>
        (checkLoad write (MavVm.zeroEntry true false),
          MavVm.sptInsert s p u (MavVm.zeroEntry true false))
    else (.refuse, s)

/-- The end of `vm_handle_fault`: the page is loaded and unpinned. -/
def loadFault (p u : Nat) : Code Bool := do
  let loaded ← sptLoadPage p u
  if loaded then do
    let k ← inspect fun s => (s.spt p u).bind (·.kpage)
    frameUnpin k
    return true
  else return false

/-- The private copy of a copy-on-write page. -/
def copyFault (p u : Nat) (old : Nat) : Code Bool := do
  match ← frameAlloc p u with
  | none => do
      frameUnpin (some old)
      return false
  | some k => do
      update fun s => MavVm.setMem s k (s.mem old)
      frameUnpin (some old)
      update fun s => MavVm.pagedirClearPage s p u
      let installed ← attempt fun s => (MavVm.pagedirSetPage s p u k true).toOption
      if installed then do
        holding (.spt p) .vmHandleFault
          (attempt (editThrough p u fun e => { e with status := .frame, kpage := some k }))
        frameFree (some old)
        frameUnpin (some k)
        return true
      else do
        frameFree (some k)
        return false

/-- One round of `vm_handle_fault`; `again` is its call of itself when the frame
    of a copy-on-write page is gone. -/
def handleFault (again : Code Bool) (p addr : Nat) (write notPresent : Bool) (esp : Nat) :
    Code Bool :=
  if addr < PHYS_BASE then do
    match ← holding (.spt p) .vmHandleFault (atomically (lookUp p addr write notPresent esp)) with
    | .refuse => return false
    | .load => loadFault p (addr / PGSIZE)
    | .cow old => do
        let pinned ← framePinIfPresent old
        match pinned, old with
        | true, some old => copyFault p (addr / PGSIZE) old
        | _, _ => again
  else return false

/-- `vm_handle_fault`. The second round is for a page that is not present, which
    is never a copy-on-write fault. -/
def vmHandleFault (p addr : Nat) (write notPresent : Bool) (esp : Nat) : Code Bool :=
  handleFault (handleFault .halt p addr write true esp) p addr write notPresent esp

/-! ## Mapped files -/

/-- What phase 3 of `mmap_cleanup_pages` decides. -/
inductive Phase3 where
  | gone
  | retry
  | remove (e : Entry) (kpageToFree : Option Nat) (writeback : Bool)

/-- Phase 3 of `mmap_cleanup_pages`, for the frame pinned in phase 2. -/
def phase3 (p : Nat) (r : Region) (u : Nat) (snapshot : Option Nat) (pinned : Bool) (s : Vm) :
    Phase3 × Vm :=
  match s.spt p u with
  | none => (.gone, s)
  | some e =>
    if e.status = .frame ∧ e.kpage ≠ none then
      if pinned ∧ e.kpage = snapshot then
        (.remove e e.kpage (r.file.isSome && s.dirty p u),
          MavVm.sptDelete (MavVm.pagedirClearPage s p u) p u)
      else (.retry, s)
    else (.remove e none false, MavVm.sptDelete s p u)

/-- The write back of phase 4, of a page found dirty. -/
def writeBack (r : Region) (i : Nat) (e : Entry) (k : Option Nat) (dirty : Bool) (s : Vm) :
    Option (Unit × Vm) :=
  match dirty, r.file, k with
  | true, some h, some k =>
    (MavVm.fileWriteAt s h (s.mem k) e.readBytes (r.offset + i * PGSIZE)).toOption.map
      fun (_, s) => ((), s)
  | _, _, _ => some ((), s)

/-- `frame_unpin` of a frame that was pinned. -/
def unpinIf (pinned : Bool) (k : Option Nat) : Code Unit :=
  if pinned then frameUnpin k else return ()

/-- One turn of the loop of `mmap_cleanup_pages` for one page. -/
def cleanupTurn (q : Cleanup) : Code Unit := do
  let p := q.pid
  let u := q.region.start + q.page
  match ← holding (.spt p) .mmapCleanupPages (inspect (·.spt p u)) with
  | none => return ()
  | some e => do
      let snapshot := if e.status = .frame then e.kpage else none
      let pinned ← framePinIfPresent snapshot
      match ← holding (.spt p) .mmapCleanupPages
          (atomically (phase3 p q.region u snapshot pinned)) with
      | .gone => unpinIf pinned snapshot
      | .retry => do
          unpinIf pinned snapshot
          invoke q
      | .remove e k dirty => do
          attempt (writeBack q.region q.page e k dirty)
          unpinIf pinned snapshot
          frameFree k
          if e.status = .swap then swapFree e.swapSlot else return ()

/-- `mmap_cleanup_pages`, from page `i` on for `n` pages. -/
def cleanupPages (p : Nat) (r : Region) : Nat → Nat → Code Unit
  | _, 0 => return ()
  | i, n + 1 => do
      invoke ⟨p, r, i⟩
      cleanupPages p r (i + 1) n

/-- The pages of a region, then its file. -/
def regionClose (p : Nat) (r : Region) : Code Unit := do
  cleanupPages p r 0 r.pageCount
  match r.file with
  | none => return ()
  | some h => attempt fun s => (MavVm.fileClose s h).toOption.map ((), ·)

/-- `list_remove` on the list of regions. -/
def removeRegion (p : Nat) (r : Region) (s : Vm) : Vm :=
  { s with regions := update s.regions p ((s.regions p).erase r) }

/-- The end of `mmap_destroy` and `mmap_find_and_destroy`. -/
def mmapTakeDown (p : Nat) (r : Region) : Code Bool := do
  regionClose p r
  update (removeRegion p r)
  return true

def mmapDestroy (p addr length : Nat) : Code Bool :=
  holding (.mmap p) .mmapDestroy do
    match ← inspect fun s => MavVm.mmapFindRegion s p addr with
    | none => return false
    | some r =>
      if r.start * PGSIZE ≠ addr ∨ r.length ≠ length then return false
      else mmapTakeDown p r

def mmapFindAndDestroy (p addr : Nat) : Code Bool :=
  holding (.mmap p) .mmapFindAndDestroy do
    match ← inspect fun s => MavVm.mmapFindRegion s p addr with
    | none => return false
    | some r => mmapTakeDown p r

/-- `list_pop_front` on the list of regions. -/
def popRegion (p : Nat) (s : Vm) : Option Region × Vm :=
  match s.regions p with
  | [] => (none, s)
  | r :: rs => (some r, { s with regions := update s.regions p rs })

/-- The loop of `mmap_destroy_all`; nothing adds regions while the lock is held. -/
def destroyRegions (p : Nat) : Nat → Code Unit
  | 0 => return ()
  | n + 1 => do
      match ← atomically (popRegion p) with
      | none => return ()
      | some r => do
          regionClose p r
          destroyRegions p n

def mmapDestroyAll (p : Nat) : Code Unit :=
  holding (.mmap p) .mmapDestroyAll do
    let n ← inspect fun s => (s.regions p).length
    destroyRegions p n

/-- The entry of a page is taken out of its table. -/
def takeEntry (p u : Nat) (s : Vm) : Option Entry × Vm :=
  match s.spt p u with
  | none => (none, s)
  | some e => (some e, MavVm.sptDelete s p u)

/-- What the entry held is given back: the end of `spt_remove` and `spt_destroy_func`. -/
def dropEntry (e : Entry) : Code Unit :=
  match e.status with
  | .frame => frameFree e.kpage
  | .swap => swapFree e.swapSlot
  | _ => return ()

def sptRemove (p u : Nat) : Code Unit := do
  match ← atomically (takeEntry p u) with
  | none => return ()
  | some e => dropEntry e

/-- `spt_remove` on the `n` pages from `start`. -/
def sptRemoveAll (p start : Nat) : Nat → Code Unit
  | 0 => return ()
  | n + 1 => do
      sptRemoveAll p start n
      sptRemove p (start + n)

/-- `spt_insert`, after `malloc` of the entry: `false` when either fails. -/
def createPage (p u : Nat) (e : Entry) (s : Vm) : Bool × Vm :=
  match MavVm.malloc s with
  | (false, s) => (false, s)
  | (true, s) =>
    match s.spt p u with
    | some _ => (false, s)
    | none => (true, MavVm.sptInsert s p u e)

/-- The loop that creates the entries of a mapping; `false` after it removed them again. -/
def mapPages (p start : Nat) (file : Option Nat) (offset length : Nat) : Nat → Nat → Code Bool
  | _, 0 => return true
  | i, n + 1 => do
      let made ← atomically (createPage p (start + i) (MavVm.mapEntry file offset length i))
      if made then mapPages p start file offset length (i + 1) n
      else do
        sptRemoveAll p start i
        return false

/-- `mmap_create`, for a file descriptor open on `inode`. -/
def mmapCreate (p addr length inode offset : Nat) : Code Bool := do
  let size ← inspect fun s => s.length inode
  if addr = 0 ∨ addr % PGSIZE ≠ 0 ∨ offset % PGSIZE ≠ 0 ∨ length = 0 ∨ size = 0 then return false
  else holding (.mmap p) .mmapCreate do
    let available ← inspect fun s =>
      MavVm.mmapRangeAvailable s p (addr / PGSIZE) (MavVm.pagesOf length)
    if available then
      match ← atomically fun s => MavVm.fileOpen s inode with
      | none => return false
      | some h => do
          let close : Code Unit := attempt fun s => (MavVm.fileClose s h).toOption.map ((), ·)
          let ok ← atomically MavVm.malloc
          if ok then do
            let made ← holding (.spt p) .mmapCreate
              (mapPages p (addr / PGSIZE) (some h) offset length 0 (MavVm.pagesOf length))
            if made then do
              update fun s => MavVm.addRegion s p
                ⟨addr / PGSIZE, MavVm.pagesOf length, length, some h, offset⟩
              return true
            else do
              close
              return false
          else do
            close
            return false
    else return false

def mmapCreateAnon (p addr length : Nat) : Code Bool :=
  if length = 0 ∨ addr % PGSIZE ≠ 0 then return false
  else holding (.mmap p) .mmapCreateAnon do
    match ← inspect fun s => MavVm.anonStart s p addr (MavVm.pagesOf length) with
    | none => return false
    | some start => do
        let ok ← atomically MavVm.malloc
        if ok then do
          let made ← holding (.spt p) .mmapCreateAnon
            (mapPages p start none 0 length 0 (MavVm.pagesOf length))
          if made then do
            update fun s => MavVm.addRegion s p ⟨start, MavVm.pagesOf length, length, none, 0⟩
            return true
          else return false
        else return false

/-! ## Fork and exit -/

/-- `spt_clone_entry` for an entry over a frame. -/
def cloneShared (p c u : Nat) (e : Entry) : Code (Option Entry) :=
  match e.kpage with
  | none => .halt
  | some k => do
      let installed ← attempt fun s => (MavVm.pagedirSetPage s c u k false).toOption
      if installed then do
        update fun s => MavVm.pagedirSetWritable s p u false
        frameShare (some k)
        return some (MavVm.cloneOf e .cow (some k) 0)
      else return none

/-- The second try to give the parent's page a slot again. -/
def restoreSlot (p u k : Nat) : Code Unit := do
  match ← swapOut k with
  | none => return ()
  | some slot => attempt (editThrough p u fun e => { e with swapSlot := slot })

/-- `spt_clone_entry` for an entry in swap: the slot is read into a frame and written out twice. -/
def cloneSwapped (p c u : Nat) (e : Entry) : Code (Option Entry) := do
  match ← frameAlloc c u with
  | none => return none
  | some k =>
    match ← inspect (·.spt p u) with
    | none => .halt
    | some e' => do
        swapIn e'.swapSlot k
        match ← swapOut k with
        | none => do
            restoreSlot p u k
            frameFree (some k)
            return none
        | some slot => do
            attempt (editThrough p u fun e => { e with swapSlot := slot })
            let child ← swapOut k
            frameFree (some k)
            return child.map fun slot' => MavVm.cloneOf e .swap none slot'

/-- `spt_clone_entry`, by the child `c`, of page `u` of `p`. -/
def sptCloneEntry (p c u : Nat) : Code (Option Entry) := do
  let ok ← atomically MavVm.malloc
  if ok then
    match ← inspect (·.spt p u) with
    | none => .halt
    | some e =>
      match e.status with
      | .zero | .file => return some (MavVm.cloneOf e e.status none 0)
      | .frame | .cow => cloneShared p c u e
      | .swap => cloneSwapped p c u e
  else return none

/-- The pin that `spt_clone` puts on a resident page. -/
def pinResident (e : Entry) : Code (Option Nat) :=
  match e.status with
  | .frame | .cow => do
      framePin e.kpage
      return e.kpage
  | _ => return none

/-- The pin taken off again. -/
def unpinResident : Option Nat → Code Unit
  | none => return ()
  | some k => frameUnpin (some k)

/-- `spt_insert` on the child's table. -/
def insertClone (c u : Nat) (e : Entry) (s : Vm) : Bool × Vm :=
  match s.spt c u with
  | some _ => (false, s)
  | none => (true, MavVm.sptInsert s c u e)

/-- A clone that did not get into the table. -/
def dropClone (e : Entry) : Code Unit :=
  match e.status with
  | .frame | .cow => frameFree e.kpage
  | .swap => swapFree e.swapSlot
  | _ => return ()

/-- The entry of page `u` of `p` is read once more, and cloned with the `spt_lock`
    held, or without it when the page is in swap. -/
def cloneOne (p c u : Nat) : Code (Option Entry) := do
  match ← inspect (·.spt p u) with
  | none => .halt
  | some e =>
    if e.status = .swap then apart (.spt p) .sptClone (sptCloneEntry p c u)
    else sptCloneEntry p c u

/-- Pass 1 of `spt_clone`, over the keys still listed. -/
def cloneEntries (p c : Nat) : List Nat → Code Bool
  | [] => return true
  | u :: us => do
      match ← inspect (·.spt p u) with
      | none => .halt
      | some e => do
          let pinned ← pinResident e
          let cloned ← cloneOne p c u
          unpinResident pinned
          match cloned with
          | none => return false
          | some e' => do
              let inserted ← atomically (insertClone c u e')
              if inserted then cloneEntries p c us
              else do
                dropClone e'
                return false

def sptClone (p c : Nat) : Code Bool :=
  holding (.spt p) .sptClone do
    let us ← inspect fun s => s.hash.list (s.upages p)
    let done ← cloneEntries p c us
    if done then do
      update fun s => MavVm.markCow s p
      return true
    else return false

/-- `spt_destroy_func`, on an element already taken out of its bucket. -/
def sptDestroyFunc (p u : Nat) : Code Unit := do
  match ← atomically (takeEntry p u) with
  | none => return ()
  | some e => dropEntry e

/-- `hash_destroy`, over the keys still listed. -/
def destroyEntries (p : Nat) : List Nat → Code Unit
  | [] => return ()
  | u :: us => do
      sptDestroyFunc p u
      destroyEntries p us

def sptDestroy (p : Nat) : Code Unit :=
  holding (.spt p) .sptDestroy do
    let us ← inspect fun s => s.hash.list (s.upages p)
    destroyEntries p us

/-- The page directory goes, and with it the PCB. -/
def pagedirDestroy (p : Nat) (s : Vm) : Vm :=
  { s with
    alive := update s.alive p false
    pte := update s.pte p fun _ => none
    accessed := update s.accessed p fun _ => false
    dirty := update s.dirty p fun _ => false
    tables := update s.tables p fun _ => false }

/-- The handle on the executable is closed. -/
def closeExecutable (p : Nat) (s : Vm) : Option (Unit × Vm) :=
  match s.executable p with
  | none => some ((), s)
  | some h => (MavVm.fileClose { s with executable := update s.executable p none } h).toOption.map
      ((), ·)

def processExit (p : Nat) : Code Unit := do
  mmapDestroyAll p
  sptDestroy p
  update (pagedirDestroy p)
  attempt (closeExecutable p)

/-- `start_fork` by the first thread of the child `c` of `p`. -/
def startFork (p c : Nat) : Code Unit := do
  let ok ← atomically MavVm.malloc
  if ok then do
    update fun s => MavVm.startProcess s c
    let _ ← sptClone p c
    attempt fun s => (MavVm.forkExecutable s p c).toOption.map ((), ·)
  else return ()

/-- The page of the initial stack. -/
def stackPage : Nat := PHYS_BASE / PGSIZE - 1

def setupStack (c : Nat) : Code Bool := do
  let made ← atomically (createPage c stackPage (MavVm.zeroEntry true false))
  if made then loadFault c stackPage else return false

/-- `start_process`: the entries of the image, then `setup_stack`. -/
def startProcess (c inode : Nat) (image : List Segment) : Code Unit := do
  attempt fun s => (MavVm.execProcess s c inode image).toOption.map ((), ·)
  let loaded ← setupStack c
  if loaded then return () else update (pagedirDestroy c)

/-- How the hardware takes an access. -/
inductive Access where
  | done
  | fault (notPresent : Bool)

/-- One access of a user instruction. -/
def touch (p addr : Nat) (write : Bool) (s : Vm) : Access × Vm :=
  match s.pte p (addr / PGSIZE) with
  | none => (.fault true, s)
  | some t =>
    if write && !t.writable then (.fault false, s)
    else (.done, { s with
      accessed := MavVm.set2 s.accessed p (addr / PGSIZE) true
      dirty := if write then MavVm.set2 s.dirty p (addr / PGSIZE) true else s.dirty })

/-- An access with its fault; a process whose fault is not handled is killed. -/
def userAccess (p addr : Nat) (write : Bool) (esp : Nat) : Code Unit := do
  match ← atomically (touch p addr write) with
  | .done => return ()
  | .fault notPresent => do
      let handled ← vmHandleFault p addr write notPresent esp
      if handled then return () else processExit p

/-! ## Runs -/

/-- What a thread sets out to do. -/
inductive Request where
  | exec (inode : Nat) (image : List Segment)
  | fork (parent : Nat)
  | access (addr : Nat) (write : Bool) (esp : Nat)
  | mmap (addr length inode offset : Nat)
  | anon (addr length : Nat)
  | munmap (addr length : Nat)
  | munmapAt (addr : Nat)
  | exit
deriving DecidableEq, Repr

/-- The code of a request by process `p`. -/
def program (p : Nat) : Request → Code Unit
  | .exec inode image => startProcess p inode image
  | .fork parent => startFork parent p
  | .access addr write esp => userAccess p addr write esp
  | .mmap addr length inode offset => do
      let _ ← mmapCreate p addr length inode offset
  | .anon addr length => do
      let _ ← mmapCreateAnon p addr length
  | .munmap addr length => do
      let _ ← mmapDestroy p addr length
  | .munmapAt addr => do
      let _ ← mmapFindAndDestroy p addr
  | .exit => processExit p

/-- The states of a run: the data, the locks and the threads. -/
abbrev Machine := MavLock.State Vm Lock Site Cleanup (Nat × Nat)

/-- The requests a process can make: a new process starts, by an `exec` or as a
    child, and a live one does everything else. -/
def admits (s : Vm) (p : Nat) : Request → Bool
  | .exec _ _ => !s.born p
  | .fork parent => !s.born p && s.alive parent
  | _ => s.alive p

/-- A process number is used once. -/
def enroll (p : Nat) (s : Vm) : Vm := { s with born := update s.born p true }

/-- One step of a run: an idle thread sets out, or a thread takes its next step. -/
inductive Label where
  | start (t : Nat × Nat) (r : Request)
  | run (t : Nat × Nat)
deriving DecidableEq, Repr

/-- A step of a run. -/
def step (m : Machine) : Label → Option Machine
  | .start t r =>
    if admits m.data t.1 r then
      (MavLock.start m t (program t.1 r)).map fun m => { m with data := enroll t.1 m.data }
    else none
  | .run t => MavLock.run cleanupTurn m t

/-- Nothing runs and no lock is held. -/
def boot (s : Vm) : Machine where
  data := s
  holder := fun _ => none
  waiters := fun _ => []
  thread := fun _ => ⟨.ret (), []⟩

end MavVmLock
