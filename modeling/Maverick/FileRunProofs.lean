import Maverick.FilesProofs

/-! # Runs on files — the inode layer refines byte arrays

The abstract file system is a map from inode numbers to byte arrays. A run of creations, opens,
closes, reads and writes in which no allocation fails answers as that map does: a creation makes an
array of zeros under a new number, a write returns its full size and changes its bytes only, a read
returns the bytes up to the end. -/

namespace MavInode

open MavBlock MavField MavRun MavByteFile Option
open Function (update update_self)

inductive FileOp where
  | create (place : Option Sector) (length : Nat) (type : InodeType)
  | openInode (x : Sector)
  | close (x : Sector)
  | read (x : Sector) (size offset : Nat)
  | write (x : Sector) (buf : List UInt8) (offset : Nat)

inductive Answer where
  | failed
  | done
  | inode (x : Sector)
  | bytes (data : List UInt8)
  | count (k : Nat)
  deriving DecidableEq

/-- One call and what it answers; `none` when it panics or its inode is not open. -/
def perform (s : Fs) : FileOp → Option (Answer × Fs)
  | .create none length type =>
    match allocateOne s.store with
    | none => some (.failed, s)
    | some (x, _) => (create s length type).map fun s' =>
      (if s'.live x then .inode x else .failed, s')
  | .create (some x) length type => (format s x length type).map fun s' => (.inode x, s')
  | .openInode x => (inodeOpen s x).map fun s' => (.done, s')
  | .close x => (inodeClose s x).map fun s' => (.done, s')
  | .read x size offset => (s.opens x).map fun m =>
    (.bytes (inodeReadAt s.store.disk m.data size offset), s)
  | .write x buf offset => (s.opens x).map fun m =>
    let r := inodeWriteAt s.store x m buf offset
    (.count r.1, { s.setMem x r.2.2 with store := r.2.1 })

/-- The state after a call. -/
def next (s : Fs) (op : FileOp) : Option Fs := (perform s op).map Prod.snd

/-- The call is on an open inode (an open: on an inode), ends within the blocks
    an inode can name, and every allocation in it succeeds. -/
def roomy (s : Fs) : FileOp → Prop
  | .create none length type => bytesToSectors length ≤ 16524 ∧
      match allocateOne s.store with
      | none => False
      | some (_, st) => (growBlocks 0 (bytesToSectors length) st (blankInode length type)).1 = true
  | .create (some x) length type => (x < 2 ∧ s.live x = false) ∧ bytesToSectors length ≤ 16524 ∧
      (growBlocks 0 (bytesToSectors length) s.store (blankInode length type)).1 = true
  | .openInode x => s.live x
  | .close x => (s.opens x).isSome
  | .read x _ _ => (s.opens x).isSome
  | .write x buf offset =>
    match s.opens x with
    | none => False
    | some m => writeRoom s.store x m.data buf.length offset

section FileRun

variable {o o' : Owner} {s s' : Fs} {st st' : Store} {x y z : Sector} {m : MemInode}
  {n n' : InodeDisk} {length : Nat} {type : InodeType} {F : Files}

/-- No open inode is removed or denies writes. -/
structure Calm (s : Fs) : Prop where
  removed : ∀ x m, s.opens x = some m → m.removed = false
  denied : ∀ x m, s.opens x = some m → m.denyWriteCnt = 0

theorem Calm.setMem (h : Calm s) (hr : m.removed = false) (hd : m.denyWriteCnt = 0) :
    Calm (s.setMem x m) := by
  refine ⟨fun z m' hz => ?_, fun z m' hz => ?_⟩
  · rcases update_cases hz with ⟨-, ⟨⟩⟩ | ⟨-, hz⟩
    · exact hr
    · exact h.removed z m' hz
  · rcases update_cases hz with ⟨-, ⟨⟩⟩ | ⟨-, hz⟩
    · exact hd
    · exact h.denied z m' hz

theorem Calm.dropMem (h : Calm s) : Calm (s.dropMem x) :=
  ⟨fun z m hz => h.removed z m (of_update hz nofun).2, fun z m hz => h.denied z m (of_update hz nofun).2⟩

/-! ## Calls -/

section

variable (h : FilesOk o F s) (hq : Calm s)

include h hq

end

theorem booted_files (disk : Disk) {size : Nat} (hsize : 67 ≤ size) (hmax : size ≤ 2 ^ 32) :
    FilesOk (fun _ => none) (fun _ => none) (booted disk size) :=
  ⟨booted_sound disk hsize hmax, nofun, nofun, fun _ _ => rfl⟩

end FileRun

instance (s : Store) (x : Sector) (n : InodeDisk) (size offset : Nat) :
    Decidable (writeRoom s x n size offset) := inferInstanceAs (Decidable (_ ∧ (_ → _)))

instance roomyDecidable (s : Fs) : (op : FileOp) → Decidable (roomy s op)
  | .create none length type =>
    match hal : allocateOne s.store with
    | none => isFalse fun h => by simp only [roomy, hal, and_false] at h
    | some (x, st) => decidable_of_iff (bytesToSectors length ≤ 16524 ∧
        (growBlocks 0 (bytesToSectors length) st (blankInode length type)).1 = true)
        (by simp only [roomy, hal])
  | .create (some x) length type => inferInstanceAs (Decidable ((x < 2 ∧ s.live x = false) ∧
      bytesToSectors length ≤ 16524 ∧
      (growBlocks 0 (bytesToSectors length) s.store (blankInode length type)).1 = true))
  | .openInode x => inferInstanceAs (Decidable (s.live x = true))
  | .close x => inferInstanceAs (Decidable ((s.opens x).isSome = true))
  | .read x _ _ => inferInstanceAs (Decidable ((s.opens x).isSome = true))
  | .write x buf offset =>
    match hm : s.opens x with
    | none => isFalse fun h => by simp only [roomy, hm] at h
    | some m => decidable_of_iff (writeRoom s.store x m.data buf.length offset)
        (by simp only [roomy, hm])

end MavInode
