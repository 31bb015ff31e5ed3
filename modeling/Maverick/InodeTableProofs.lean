import Maverick.GrowthProofs

/-! # The inode table — creating, extending, closing

`inode.c` over the device and the free map: inodes are created in a sector of their own, opened into
memory, extended by writes, and given back when the last opener of a removed inode without links
closes it. The inode in memory and the one in its sector can differ: an extension that runs out of
sectors keeps its new pointers in memory only.

Locks and the allocation of kernel memory are left out, as is the logging of data writes. -/

namespace MavInode

open MavBlock MavField MavRun
open Function (update update_self update_of_ne)

/-! ## Bytes of a file -/

theorem block_mod_lt (k : Nat) : (k - 140) % 128 < 128 :=
  leaf_mod_lt _

/-- The pointer lookup of `byte_to_sector`: the sector of data block `k`. -/
def blockSector (d : Disk) (n : InodeDisk) (k : Nat) : Nat :=
  if h : k < 12 then n.direct ⟨k, h⟩
  else if h : k - 12 < 128 then words (d n.indirect) ⟨k - 12, h⟩
  else if h : (k - 140) / 128 < 128 then
    words (d (words (d n.doublyIndirect) ⟨(k - 140) / 128, h⟩)) ⟨(k - 140) % 128, block_mod_lt k⟩
  else 0

def invalidSector : Nat := 2 ^ 32 - 1

def byteToSector (d : Disk) (n : InodeDisk) (pos : Nat) : Nat :=
  if pos ≥ n.length then invalidSector else blockSector d n (pos / 512)

/-- How many of `size` bytes at `offset` lie in one sector and in the file. -/
def chunkSize (n : InodeDisk) (size offset : Nat) : Nat :=
  min size (min (n.length - offset) (512 - offset % 512))

/-- The loop of `inode_read_at`; it runs at most once per byte. -/
def readLoop (d : Disk) (n : InodeDisk) : Nat → Nat → Nat → List UInt8
  | 0, _, _ => []
  | fuel + 1, size, offset =>
    let chunk := chunkSize n size offset
    if chunk = 0 then []
    else bytesAt (d (byteToSector d n offset)) (offset % 512) chunk ++
      readLoop d n fuel (size - chunk) (offset + chunk)

/-- `inode_read_at`: the bytes it copies out. -/
def inodeReadAt (d : Disk) (n : InodeDisk) (size offset : Nat) : List UInt8 :=
  readLoop d n size size offset

/-- The loop of `inode_write_at`: the bytes written so far and the device. -/
def writeLoop (n : InodeDisk) : Nat → Store → List UInt8 → Nat → Nat → Nat × Store
  | 0, s, _, _, done => (done, s)
  | fuel + 1, s, buf, offset, done =>
    let chunk := chunkSize n buf.length offset
    if chunk = 0 then (done, s)
    else
      let y := byteToSector s.disk n offset
      writeLoop n fuel (s.write y (memcpyInto (s.disk y) (offset % 512) (buf.take chunk)))
        (buf.drop chunk) (offset + chunk) (done + chunk)

def inodeExtend (s : Store) (x : Sector) (n : InodeDisk) (newLength : Nat) :
    Bool × Store × InodeDisk :=
  if bytesToSectors newLength = bytesToSectors n.length then
    (true, s.write x { n with length := newLength }.encode, { n with length := newLength })
  else
    match growBlocks (bytesToSectors n.length) (bytesToSectors newLength) s n with
    | (false, s, n) => (false, s, n)
    | (true, s, n) =>
      (true, s.write x { n with length := newLength }.encode, { n with length := newLength })

/-! ## Inodes in memory -/

/-- `struct inode` without its lock and its place in the list. -/
structure MemInode where
  openCnt : Nat
  removed : Bool
  denyWriteCnt : Nat
  data : InodeDisk

/-- `inode_write_at`: the bytes written, and the device and the inode after
    it. An extension that fails is kept in memory. -/
def inodeWriteAt (s : Store) (x : Sector) (m : MemInode) (buf : List UInt8) (offset : Nat) :
    Nat × Store × MemInode :=
  if m.denyWriteCnt ≠ 0 then (0, s, m)
  else if offset + buf.length > m.data.length then
    match inodeExtend s x m.data (offset + buf.length) with
    | (false, s, n) => (0, s, { m with data := n })
    | (true, s, n) =>
      let r := writeLoop n buf.length s buf offset 0
      (r.1, r.2, { m with data := n })
  else
    let r := writeLoop m.data buf.length s buf offset 0
    (r.1, r.2, m)

/-! ## Creating and giving back -/

inductive InodeType where
  | file
  | dir
  | symlink
  deriving DecidableEq

def InodeType.code : InodeType → Nat
  | .file => inodeTypeFile
  | .dir => inodeTypeDir
  | .symlink => inodeTypeSymlink

/-- The pointers of an index block that are not zero. -/
def nonzero {n : Nat} (a : Fin n → Nat) : List Sector :=
  ((List.finRange n).map a).filter (· ≠ 0)

/-- The sectors `inode_deallocate` gives back, in its order. -/
def blockList (d : Disk) (n : InodeDisk) : List Sector :=
  nonzero n.direct ++
  (if n.indirect = 0 then [] else nonzero (words (d n.indirect)) ++ [n.indirect]) ++
  (if n.doublyIndirect = 0 then []
    else (nonzero (words (d n.doublyIndirect))).flatMap (fun p => nonzero (words (d p)) ++ [p]) ++
      [n.doublyIndirect])

def releaseAll : Store → List Sector → Option Store
  | s, [] => some s
  | s, x :: xs => (freeMapRelease s x).bind fun s => releaseAll s xs

def inodeDeallocate (s : Store) (n : InodeDisk) : Option Store :=
  releaseAll s (blockList s.disk n)

/-- What `inode_create_internal` starts from. -/
def blankInode (length : Nat) (type : InodeType) : InodeDisk where
  direct _ := 0
  indirect := 0
  doublyIndirect := 0
  length := length
  type := type.code
  nlink := 1

/-- `inode_create_internal`: with a zeroed inode its loops are those of
    `inode_extend`. `none` when a release panics. -/
def inodeCreateInternal (s : Store) (x : Sector) (length : Nat) (type : InodeType) :
    Option (Bool × Store) :=
  match growBlocks 0 (bytesToSectors length) s (blankInode length type) with
  | (true, s, n) => some (true, s.write x n.encode)
  | (false, s, n) => (inodeDeallocate s n).map fun s => (false, s)

/-! ## The table -/

/-- The device with its free map, the open inodes, and which sectors hold an
    inode that was created and not given back. -/
structure Fs where
  store : Store
  opens : Sector → Option MemInode
  live : Sector → Bool

/-- The inode in its sector. -/
def Fs.onDisk (s : Fs) (x : Sector) : InodeDisk := .decode (s.store.disk x)

def Fs.setMem (s : Fs) (x : Sector) (m : MemInode) : Fs :=
  { s with opens := update s.opens x (some m) }

/-- Take the inode out of memory. -/
def Fs.dropMem (s : Fs) (x : Sector) : Fs := { s with opens := update s.opens x none }

@[simp] theorem Fs.setMem_opens_self (s : Fs) (x : Sector) (m : MemInode) :
    (s.setMem x m).opens x = some m := update_self ..

theorem Fs.setMem_opens_of_ne (s : Fs) {x z : Sector} (m : MemInode) (h : z ≠ x) :
    (s.setMem x m).opens z = s.opens z := update_of_ne h ..

@[simp] theorem Fs.dropMem_opens_self (s : Fs) (x : Sector) :
    (s.dropMem x).opens x = none := update_self ..

theorem Fs.dropMem_opens_of_ne (s : Fs) {x z : Sector} (h : z ≠ x) :
    (s.dropMem x).opens z = s.opens z := update_of_ne h ..

/-- Store the inode in memory and in its sector. -/
def Fs.setInode (s : Fs) (x : Sector) (m : MemInode) : Fs :=
  { s.setMem x m with store := s.store.write x m.data.encode }

/-- The operations on inodes. A creation takes a sector from the free map, or
    the free map's or the root directory's own. -/
inductive Op where
  | create (place : Option Sector) (length : Nat) (type : InodeType)
  | openInode (x : Sector)
  | close (x : Sector)
  | remove (x : Sector)
  | incNlink (x : Sector)
  | decNlink (x : Sector)
  | denyWrite (x : Sector)
  | allowWrite (x : Sector)
  | write (x : Sector) (buf : List UInt8) (offset : Nat)

/-- `free_map_allocate`, `inode_create`, and the release of the sector when the creation fails. -/
def create (s : Fs) (length : Nat) (type : InodeType) : Option Fs :=
  match allocateOne s.store with
  | none => some s
  | some (x, st) =>
    match inodeCreateInternal st x length type with
    | none => none
    | some (true, st) => some { s with store := st, live := update s.live x true }
    | some (false, st) => (freeMapRelease st x).map fun st => { s with store := st }

/-- The two inodes of a new file system; their creation panics if it fails. -/
def format (s : Fs) (x : Sector) (length : Nat) (type : InodeType) : Option Fs :=
  if x < 2 ∧ s.live x = false then
    match inodeCreateInternal s.store x length type with
    | some (true, st) => some { s with store := st, live := update s.live x true }
    | _ => none
  else none

/-- `inode_open` of a sector that holds an inode. -/
def inodeOpen (s : Fs) (x : Sector) : Option Fs :=
  match s.opens x with
  | some m => some (s.setMem x { m with openCnt := m.openCnt + 1 })
  | none => if s.live x then some (s.setMem x ⟨1, false, 0, s.onDisk x⟩) else none

def inodeClose (s : Fs) (x : Sector) : Option Fs :=
  match s.opens x with
  | none => none
  | some m =>
    if m.openCnt - 1 = 0 then
      if m.removed ∧ m.data.nlink = 0 then
        ((freeMapRelease s.store x).bind fun st => inodeDeallocate st m.data).map fun st =>
          { s.dropMem x with store := st, live := update s.live x false }
      else some (s.dropMem x)
    else some (s.setMem x { m with openCnt := m.openCnt - 1 })

/-- An operation on an inode in memory. -/
def onOpen (s : Fs) (x : Sector) (f : MemInode → Option Fs) : Option Fs := (s.opens x).bind f

/-- One operation; `none` when it panics or its inode is not open. The free map's inode and the
    root directory's stand in no entry that can be removed. -/
def step (s : Fs) : Op → Option Fs
  | .create none length type => create s length type
  | .create (some x) length type => format s x length type
  | .openInode x => inodeOpen s x
  | .close x => inodeClose s x
  | .remove x => onOpen s x fun m =>
    if x < 2 then none else some (s.setMem x { m with removed := true })
  | .incNlink x => onOpen s x fun m =>
    some (s.setInode x { m with data.nlink := (m.data.nlink + 1) % 2 ^ 32 })
  | .decNlink x => onOpen s x fun m =>
    if m.data.nlink = 0 then none
    else some (s.setInode x { m with data.nlink := m.data.nlink - 1 })
  | .denyWrite x => onOpen s x fun m =>
    if m.openCnt < m.denyWriteCnt + 1 then none
    else some (s.setMem x { m with denyWriteCnt := m.denyWriteCnt + 1 })
  | .allowWrite x => onOpen s x fun m =>
    if m.denyWriteCnt = 0 ∨ m.openCnt < m.denyWriteCnt then none
    else some (s.setMem x { m with denyWriteCnt := m.denyWriteCnt - 1 })
  | .write x buf offset => onOpen s x fun m =>
    let r := inodeWriteAt s.store x m buf offset
    some { s.setMem x r.2.2 with store := r.2.1 }

/-- A new file system on a device of `size` sectors: those of the free map, of
    the root directory and of the log are in use. -/
def booted (disk : Disk) (size : Nat) : Fs where
  store := ⟨disk, fun y => y < 67, size⟩
  opens _ := none
  live _ := false

end MavInode
