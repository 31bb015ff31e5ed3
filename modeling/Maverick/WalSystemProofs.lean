import Maverick.CacheProofs
import Maverick.RecoverProofs

/-! # The log and the cache together — runs and their device writes

The transactions of `wal.c` over the buffer cache of `cache.c`: begin, logged writes as
`inode_write_at` makes them, commit, abort, checkpoint, flushes, and reads that evict. Every
`block_write` of a run is recorded as an event, with the device and the manager as they were before
it, so that a crash can be placed after any of them.

Beside the manager the state keeps what no code stores: the writes of the transactions that are
active, the bytes the disk ought to hold, and for every byte the record of the logged write it comes
from. -/

namespace MavSystem

open MavBlock MavRecord MavLog MavRecover MavCache MavOverride List

/-! ## State -/

/-- A write of a transaction, as its caller made it. -/
structure TxnWrite where
  txnId : Nat
  sector : Sector
  offset : Nat
  data : List UInt8

/-- The bytes a write decides. -/
def TxnWrite.patch (w : TxnWrite) : Addr → Option UInt8 :=
  rangePatch w.sector w.offset w.data

/-- The manager `wal` and what is kept beside it:
    - `storedLsn`, the largest LSN issued to the log sectors;
    - `txnWrites`, the writes of the active transactions, oldest first;
    - `initial`, the data bytes the run started from;
    - `committedWrites`, the writes of the transactions whose `wal_txn_commit`
      has returned, in the order of the commits;
    - `committing`, a transaction whose `WAL_COMMIT` is in the log while its
      `wal_txn_commit` has not returned;
    - `committed` and `rolledBack`, the transactions that ended either way;
    - `viewTag` and `diskTag`, for a byte of the cache and of the disk the
      record of the logged write it comes from;
    - `quietLsns`, the checkpoints that completed with no transaction active. -/
structure Core where
  wal : WalManager
  storedLsn : Nat
  txnWrites : List TxnWrite
  initial : Addr → UInt8
  committedWrites : List TxnWrite
  committing : Option Nat
  committed : List Nat
  rolledBack : List Nat
  viewTag : Addr → Option WalRecord
  diskTag : Addr → Option WalRecord
  quietLsns : List Nat

/-- The writes of transaction `t` so far. -/
def Core.writesBy (k : Core) (t : Nat) : List TxnWrite :=
  k.txnWrites.filter fun w => w.txnId = t

/-- The writes that ought to survive a crash now: a transaction counts from the
    moment its commit record is in the log. -/
def Core.durableWrites (k : Core) : List TxnWrite :=
  match k.committing with
  | none => k.committedWrites
  | some t => k.committedWrites ++ k.writesBy t

/-- What the data sectors ought to hold after a crash now. -/
def Core.durable (k : Core) : Addr → UInt8 :=
  applyAll TxnWrite.patch k.initial k.durableWrites

/-- What a `block_write` writes: a log record to its log sector, or a sector of the cache. -/
inductive Target where
  | record (r : WalRecord)
  | data (s : Sector) (b : Block)

/-- The device after the write. -/
def Target.apply (d : Disk) : Target → Disk
  | .record r => blockWrite d (logSector r.lsn) (bytesOf r)
  | .data s b => blockWrite d s b

/-- What the write changes beside the device. -/
def Core.after (k : Core) : Target → Core
  | .record r => { k with
      storedLsn := if k.storedLsn < r.lsn then r.lsn else k.storedLsn
      committing := if r.type = .commit ∧ k.storedLsn < r.lsn then some r.txnId
        else k.committing }
  | .data s _ => { k with diskTag := fun a => if a.1 = s then k.viewTag a else k.diskTag a }

/-- A `block_write` with the state before it. -/
structure Event where
  disk : Disk
  core : Core
  target : Target

/-- The device a crash right after the event leaves. -/
def Event.diskAfter (e : Event) : Disk := e.target.apply e.disk

def Event.coreAfter (e : Event) : Core := e.core.after e.target

/-- The running system. `panicked` is set when an `ASSERT` or `PANIC` of the cache is reached. -/
structure Sys where
  bc : BufferCache
  core : Core
  events : List Event
  panicked : Bool

/-! ## Elementary steps -/

def Sys.setWal (s : Sys) (w : WalManager) : Sys :=
  { s with core := { s.core with wal := w } }

/-- `block_write` of a record to its log sector, past the cache. -/
def Sys.storeRecord (s : Sys) (r : WalRecord) : Sys :=
  { s with
    bc := s.bc.deviceWrite (logSector r.lsn) (bytesOf r)
    core := s.core.after (.record r)
    events := s.events ++ [⟨s.bc.disk, s.core, .record r⟩] }

def Sys.storeRecords (s : Sys) (rs : List WalRecord) : Sys := rs.foldl Sys.storeRecord s

def Sys.walFlush (s : Sys) (upToLsn : Nat) : Sys :=
  let out := MavLog.walFlush s.core.wal upToLsn
  (s.storeRecords out.1).setWal out.2

/-- `wal_append_record`. -/
def Sys.appendRecord (s : Sys) (r : WalRecord) : Sys :=
  let out := walAppendRecord s.core.wal r
  (s.storeRecords out.1).setWal out.2

/-- The events of the cache's write-backs `ws`, from the device `d` on. -/
def writeBackEvents (d : Disk) (k : Core) : List (Sector × Block) → List Event
  | [] => []
  | w :: ws => ⟨d, k, .data w.1 w.2⟩ ::
      writeBackEvents (blockWrite d w.1 w.2) (k.after (.data w.1 w.2)) ws

/-- The cache moves on to `c`; what it wrote back on the way becomes events. -/
def Sys.observe (s : Sys) (c : BufferCache) : Sys :=
  let ws := c.writes.drop s.bc.writes.length
  { s with
    bc := c
    core := ws.foldl (fun k w => k.after (.data w.1 w.2)) s.core
    events := s.events ++ writeBackEvents s.bc.disk s.core ws }

/-- A call into the cache, with the bytes it hands back. -/
def Sys.call (s : Sys) (op : CacheOp) : List UInt8 × Sys :=
  match cacheStep s.bc op with
  | none => ([], { s with panicked := true })
  | some (out, c) => (out, s.observe c)

/-! ## Transactions -/

/-- A record with nothing but a type and a transaction. -/
def markRecord (type : RecordType) (txnId : Nat) : WalRecord where
  lsn := 0
  txnId := txnId
  type := type
  sector := 0
  offset := 0
  length := 0
  oldData := fun _ => 0
  newData := fun _ => 0

/-- An active transaction by its number. -/
def findTxn (w : WalManager) (txnId : Nat) : Option WalTxn :=
  w.activeTxns.find? fun x => x.txnId == txnId

/-- `list_remove` of a transaction. -/
def removeTxn (w : WalManager) (txnId : Nat) : WalManager :=
  { w with activeTxns := w.activeTxns.filter fun x => x.txnId ≠ txnId }

/-- `wal_txn_begin`. `mallocOk` is the outcome of its allocation. -/
def Sys.walTxnBegin (s : Sys) (mallocOk : Bool) : Sys :=
  if mallocOk then
    let w := s.core.wal
    let txnId := w.nextTxnId
    let s := s.setWal { w with nextTxnId := txnId + 1 }
    let beginLsn := s.core.wal.nextLsn
    let s := s.appendRecord (markRecord .begin txnId)
    let w := s.core.wal
    s.setWal { w with activeTxns := w.activeTxns ++ [⟨txnId, beginLsn, beginLsn⟩] }
  else s

def walMaxDataSize : Nat := 232

/-- The records `wal_log_write` makes for the bytes from `logged` on; the first
    argument bounds its loop. -/
def logChunks (txnId : Nat) (sector : Sector) (offset : Nat) (old new : List UInt8) :
    Nat → Nat → List WalRecord
  | 0, _ => []
  | fuel + 1, logged =>
    if logged < new.length then
      let chunk := if walMaxDataSize < new.length - logged then walMaxDataSize
        else new.length - logged
      { lsn := 0
        txnId := txnId
        type := .write
        sector := sector
        offset := offset + logged
        length := chunk
        oldData := payloadOf ((old.drop logged).take chunk)
        newData := payloadOf ((new.drop logged).take chunk) } ::
      logChunks txnId sector offset old new fuel (logged + chunk)
    else []

/-- `txn->last_lsn = lsn`. -/
def setLastLsn (w : WalManager) (txnId lsn : Nat) : WalManager :=
  { w with activeTxns := w.activeTxns.map fun x =>
      if x.txnId = txnId then { x with lastLsn := lsn } else x }

/-- One turn of the loop of `wal_log_write`; the second component collects the
    records with their LSNs. -/
def Sys.logChunk (s : Sys × List WalRecord) (r : WalRecord) : Sys × List WalRecord :=
  let lsn := s.1.core.wal.nextLsn
  let s' := s.1.appendRecord r
  (s'.setWal (setLastLsn s'.core.wal r.txnId lsn), s.2 ++ [stampRecord s.1.core.wal r])

def Sys.walLogWrite (s : Sys) (txnId : Nat) (sector : Sector) (old new : List UInt8)
    (offset : Nat) : Sys × List WalRecord :=
  match findTxn s.core.wal txnId with
  | none => (s, [])
  | some _ =>
    (logChunks txnId sector offset old new new.length 0).foldl Sys.logChunk (s, [])

/-- The tags after a `cache_write` of the range that `recs` logged. -/
def tagWrite (tag : Addr → Option WalRecord) (recs : List WalRecord) (w : TxnWrite) :
    Addr → Option WalRecord := fun a =>
  if (w.patch a).isSome then recs.find? fun r => decide (Covers r a) else tag a

/-- The body of the loop of `inode_write_at` with a transaction: read the old
    bytes, log them and the new ones, write the new ones to the cache. -/
def Sys.loggedWrite (s : Sys) (w : TxnWrite) : Sys :=
  let read := s.call (.readAt w.sector w.offset w.data.length)
  let logged := read.2.walLogWrite w.txnId w.sector read.1 w.data w.offset
  let s := (logged.1.call (.write w.sector w.offset w.data)).2
  { s with core := { s.core with
      txnWrites := if (findTxn s.core.wal w.txnId).isSome then s.core.txnWrites ++ [w]
        else s.core.txnWrites
      viewTag := tagWrite s.core.viewTag logged.2 w } }

/-- The same without a transaction, or for an inode with `skip_wal`. -/
def Sys.plainWrite (s : Sys) (sector : Sector) (offset : Nat) (data : List UInt8) : Sys :=
  let s := (s.call (.write sector offset data)).2
  { s with core := { s.core with
      viewTag := tagWrite s.core.viewTag [] ⟨0, sector, offset, data⟩ } }

/-- `wal_flush` of every record there is. -/
def Sys.flushAll (s : Sys) : Sys := s.walFlush (s.core.wal.nextLsn - 1)

/-- The end of `wal_checkpoint`, whose record is the last one appended. -/
def Sys.checkpointDone (s : Sys) : Sys :=
  { s with core := { s.core with
      wal := { s.core.wal with checkpointing := false }
      quietLsns := if s.core.wal.activeTxns.isEmpty
        then s.core.quietLsns ++ [s.core.wal.nextLsn - 1] else s.core.quietLsns } }

def Sys.walCheckpoint (s : Sys) : Sys :=
  if s.core.wal.checkpointing then s
  else
    let s := s.setWal { s.core.wal with checkpointing := true }
    let s := (s.call .flush).2
    let s := s.flushAll
    let s := s.appendRecord (markRecord .checkpoint 0)
    let s := s.flushAll
    s.checkpointDone

/-- The end of `wal_txn_commit`: the transaction is removed, and what it wrote
    is now owed to its caller. -/
def Core.commitReturns (k : Core) (txnId : Nat) : Core :=
  { k with
    wal := removeTxn k.wal txnId
    txnWrites := k.txnWrites.filter fun w => w.txnId ≠ txnId
    committedWrites := k.committedWrites ++ k.writesBy txnId
    committing := none
    committed := k.committed ++ [txnId] }

/-- `wal_txn_commit` up to the removal of the transaction. -/
def Sys.commitTxn (s : Sys) (txnId : Nat) : Sys :=
  let commitLsn := s.core.wal.nextLsn
  let s := s.appendRecord (markRecord .commit txnId)
  let s := s.walFlush commitLsn
  { s with core := s.core.commitReturns txnId }

/-- The deferred checkpoint at the end of `wal_txn_commit`. -/
def Sys.deferredCheckpoint (s : Sys) : Sys :=
  if s.core.wal.checkpointPending then
    (s.setWal { s.core.wal with checkpointPending := false }).walCheckpoint
  else s

def Sys.walTxnCommit (s : Sys) (txnId : Nat) : Sys :=
  match findTxn s.core.wal txnId with
  | none => s
  | some _ => (s.commitTxn txnId).deferredCheckpoint

/-! ## Abort -/

/-- `wal_read_record`: `none` when the record is not there. -/
def walReadRecord (d : Disk) (lsn : Nat) : Option WalRecord :=
  if lsn = 0 then none
  else if (recordOf (d (logSector lsn))).lsn ≠ lsn then none
  else if checksumOk (d (logSector lsn)) then some (recordOf (d (logSector lsn)))
  else none

def maxUndoRecords : Nat := 64

/-- The test of the first loop of `wal_txn_abort`. -/
def isWriteOf (txnId : Nat) : Option WalRecord → Bool
  | none => false
  | some r => decide (r.txnId = txnId ∧ r.type = .write)

/-- `undo_lsns`: the LSNs of the transaction's writes, oldest first. -/
def undoLsns (d : Disk) (txn : WalTxn) (endLsn : Nat) : List Nat :=
  ((List.range' txn.firstLsn (endLsn - txn.firstLsn)).filter fun lsn =>
    isWriteOf txn.txnId (walReadRecord d lsn)).take maxUndoRecords

/-- The tags after the old bytes of `r` are written back to the cache. -/
def untag (tag : Addr → Option WalRecord) (r : WalRecord) : Addr → Option WalRecord :=
  fun a => if Covers r a then none else tag a

/-- One turn of the second loop: restore the old bytes through the cache. -/
def Sys.undoLsn (s : Sys) (lsn : Nat) : Sys :=
  match walReadRecord s.bc.disk lsn with
  | none => s
  | some r =>
    let s := (s.call (.write r.sector r.offset (payloadBytes r.oldData r.length))).2
    { s with core := { s.core with viewTag := untag s.core.viewTag r } }

/-- The end of `wal_txn_abort`; `undone` tells whether it came to the undo. -/
def Core.abortReturns (k : Core) (txnId : Nat) (undone : Bool) : Core :=
  { k with
    wal := removeTxn k.wal txnId
    txnWrites := k.txnWrites.filter fun w => w.txnId ≠ txnId
    rolledBack := if undone then k.rolledBack ++ [txnId] else k.rolledBack }

/-- The two loops of `wal_txn_abort`: the writes of the transaction, newest first. -/
def Sys.undoTxn (s : Sys) (txn : WalTxn) (endLsn : Nat) : Sys :=
  (undoLsns s.bc.disk txn endLsn).reverse.foldl Sys.undoLsn s

/-- The rest of `wal_txn_abort` after its undo. -/
def Sys.finishAbort (s : Sys) (txnId : Nat) : Sys :=
  let s := (s.call .flush).2
  let s := s.appendRecord (markRecord .abort txnId)
  { s with core := s.core.abortReturns txnId true }

/-- The end of `wal_txn_abort` when it has no memory for the undo. -/
def Sys.dropTxn (s : Sys) (txnId : Nat) : Sys :=
  { s with core := s.core.abortReturns txnId false }

/-- `wal_txn_abort`. `mallocLsns` and `mallocRec` are the outcomes of its two allocations. -/
def Sys.walTxnAbort (s : Sys) (txnId : Nat) (mallocLsns mallocRec : Bool) : Sys :=
  match findTxn s.core.wal txnId with
  | none => s
  | some txn =>
    if mallocLsns then
      let endLsn := s.core.wal.nextLsn
      let s := s.walFlush endLsn
      if mallocRec then (s.undoTxn txn endLsn).finishAbort txnId
      else s.dropTxn txnId
    else s.dropTxn txnId

/-! ## Runs -/

/-- One call of a run. -/
inductive Op where
  | begin (mallocOk : Bool)
  | write (w : TxnWrite)
  | plainWrite (sector : Sector) (offset : Nat) (data : List UInt8)
  | commit (txnId : Nat)
  | abort (txnId : Nat) (mallocLsns mallocRec : Bool)
  | checkpoint
  | cacheFlush
  | read (sector : Sector) (offset length : Nat)
  | prefetch (sector : Sector)

def Sys.step (s : Sys) : Op → Sys
  | .begin m => s.walTxnBegin m
  | .write w => s.loggedWrite w
  | .plainWrite sector offset data => s.plainWrite sector offset data
  | .commit t => s.walTxnCommit t
  | .abort t m1 m2 => s.walTxnAbort t m1 m2
  | .checkpoint => s.walCheckpoint
  | .cacheFlush => (s.call .flush).2
  | .read sector offset length => (s.call (.readAt sector offset length)).2
  | .prefetch sector => (s.call (.prefetch sector)).2

def Sys.run (s : Sys) (ops : List Op) : Sys := ops.foldl Sys.step s

/-- The data bytes of a device; the log and its metadata are blanked out. -/
def dataBytes (d : Disk) : Addr → UInt8 := fun a => if DataSector a.1 then d a.1 a.2 else 0

variable {d v' v u : Disk} {r p : WalRecord} {k k' : Core} {ps : List WalRecord}
  {P : Disk → Disk → Core → Prop} {Q : Disk → Core → Prop} {C : Event → Prop} {s : Sys} {a : Addr}
  {op : CacheOp} {w : WalManager}

theorem dataBytes_congr {d' : Disk} (h : ∀ s, DataSector s → d' s = d s) :
    dataBytes d' = dataBytes d := by
  funext x
  unfold dataBytes
  by_cases hx : DataSector x.1
  · rw [if_pos hx, if_pos hx, h x.1 hx]
  · rw [if_neg hx, if_neg hx]

/-- A mounted system: nothing cached, no transaction, the counters as `wal_init` left them. -/
def mounted (c : BufferCache) (w : WalManager) : Sys where
  bc := cacheInit c
  core :=
    { wal := w, storedLsn := w.flushedLsn, txnWrites := [], initial := dataBytes c.disk,
      committedWrites := [], committing := none, committed := [], rolledBack := [],
      viewTag := fun _ => none, diskTag := fun _ => none, quietLsns := [] }
  events := []
  panicked := false

/-- The manager right after `wal_init`. -/
structure Idle (w : WalManager) : Prop where
  buffer : w.logBuffer = []
  txns : w.activeTxns = []
  flushed : w.nextLsn = w.flushedLsn + 1
  idPos : 1 ≤ w.nextTxnId

/-- The arguments of a call: byte ranges inside data sectors. -/
def Op.Legal : Op → Prop
  | .write w => DataSector w.sector ∧ RangeOk w.offset w.data.length
  | .plainWrite t ofs data => DataSector t ∧ RangeOk ofs data.length
  | .read t ofs len => DataSector t ∧ RangeOk ofs len
  | .prefetch t => DataSector t
  | _ => True

instance (op : Op) : Decidable op.Legal := by
  cases op <;> unfold Op.Legal <;> infer_instance

/-! ## The log -/

/-- The records that wait in the buffer. -/
def Core.pending (k : Core) : List WalRecord :=
  k.wal.logBuffer.filter fun r => k.storedLsn < r.lsn

/-- A record of the log, on disk or in the buffer. -/
def InLog (d : Disk) (k : Core) (r : WalRecord) : Prop :=
  r ∈ storedLog d ∨ r ∈ k.wal.logBuffer

/-- A `WAL_WRITE` as `wal_log_write` makes them. -/
structure WriteOk (r : WalRecord) : Prop where
  data : DataSector r.sector
  range : RangeOk r.offset r.length
  size : r.length ≤ walMaxDataSize

/-- The log, on disk and in the buffer. -/
structure LogInv (d : Disk) (k : Core) : Prop where
  inPlace : InPlace d
  ring : ∀ r ∈ storedLog d, 1 ≤ r.lsn ∧ r.lsn ≤ k.storedLsn ∧ k.storedLsn < r.lsn + 64
  writeOk : ∀ r, InLog d k r → r.type = .write → WriteOk r
  txnIds : ∀ r, InLog d k r → r.txnId < k.wal.nextTxnId ∧
    (r.type = .write ∨ r.type = .commit ∨ r.type = .abort → 1 ≤ r.txnId)
  buffer : k.wal.logBuffer.map WalRecord.lsn
    = List.range' (k.wal.nextLsn - k.wal.logBuffer.length) k.wal.logBuffer.length
  short : k.wal.logBuffer.length ≤ walBufferRecords
  base : k.wal.logBuffer.length < k.wal.nextLsn
  reach : k.wal.nextLsn ≤ k.storedLsn + 1 + k.wal.logBuffer.length
  top : k.storedLsn < k.wal.nextLsn
  copies : ∀ r ∈ k.wal.logBuffer, r.lsn ≤ k.storedLsn → d (logSector r.lsn) = bytesOf r
  txns : ∀ x ∈ k.wal.activeTxns, 1 ≤ x.txnId ∧ x.txnId < k.wal.nextTxnId ∧
    1 ≤ x.firstLsn ∧ x.firstLsn ≤ k.wal.nextLsn
  firsts : ∀ x ∈ k.wal.activeTxns, ∀ r, InLog d k r → r.txnId = x.txnId →
    x.firstLsn ≤ r.lsn
  nodup : (k.wal.activeTxns.map WalTxn.txnId).Nodup
  idPos : 1 ≤ k.wal.nextTxnId

/-- Of consecutive records, those above a bound are consecutive. -/
theorem filter_consecutive (m : Nat) (l : List WalRecord) (a : Nat) : a ≤ m + 1 →
    l.map WalRecord.lsn = List.range' a l.length →
    (l.filter fun r => m < r.lsn).map WalRecord.lsn
      = List.range' (m + 1) (l.filter fun r => m < r.lsn).length ∧
    a + l.length ≤ m + 1 + (l.filter fun r => m < r.lsn).length := by
  induction l generalizing a with
  | nil => intro ha _; exact ⟨rfl, ha⟩
  | cons r l ih =>
    intro ha h
    obtain ⟨hr, hl⟩ := List.cons.inj h
    by_cases hm : m < r.lsn
    · -- the head is above the bound, and so are all that follow
      have ham : a = m + 1 := by omega
      have hall : (r :: l).filter (fun r => m < r.lsn) = r :: l := by
        refine filter_eq_self.mpr ?_
        intro q hq
        refine decide_eq_true ?_
        rcases mem_cons.mp hq with rfl | hq
        · exact hm
        · have hmem : q.lsn ∈ l.map WalRecord.lsn := mem_map.mpr ⟨q, hq, rfl⟩
          rw [hl, mem_range'_1] at hmem
          omega
      rw [hall, map_cons, length_cons, List.range'_succ, ham, hl, hr, ham]
      exact ⟨rfl, Nat.le_refl _⟩
    · rw [filter_cons_of_neg (by simpa using hm)]
      obtain ⟨h1, h2⟩ := ih (a + 1) (by omega) hl
      refine ⟨h1, ?_⟩
      rw [length_cons]
      omega

namespace LogInv

variable (h : LogInv d k)

include h

/-- The waiting records carry the LSNs from `storedLsn` to `next_lsn`. -/
theorem pending_lsns :
    k.pending.map WalRecord.lsn = List.range' (k.storedLsn + 1) k.pending.length ∧
      k.storedLsn + k.pending.length + 1 = k.wal.nextLsn := by
  have hbase := h.base
  have hreach := h.reach
  obtain ⟨h1, h2⟩ := filter_consecutive k.storedLsn _ _ (by omega) h.buffer
  refine ⟨h1, ?_⟩
  have htop := h.top
  show k.storedLsn + (k.wal.logBuffer.filter fun r => k.storedLsn < r.lsn).length + 1 = _
  rcases Nat.eq_zero_or_pos (k.wal.logBuffer.filter fun r => k.storedLsn < r.lsn).length
    with h0 | hpos
  · omega
  -- the last waiting record is below `next_lsn`
  have hmem : k.storedLsn + (k.wal.logBuffer.filter fun r => k.storedLsn < r.lsn).length
      ∈ (k.wal.logBuffer.filter fun r => k.storedLsn < r.lsn).map WalRecord.lsn := by
    rw [h1, mem_range'_1]
    omega
  obtain ⟨r, hr, hlsn⟩ := mem_map.mp hmem
  have hlt : r.lsn ∈ k.wal.logBuffer.map WalRecord.lsn :=
    mem_map.mpr ⟨r, (mem_filter.mp hr).1, rfl⟩
  rw [h.buffer, mem_range'_1] at hlt
  omega

theorem buffer_lsn (hr : r ∈ k.wal.logBuffer) :
    k.wal.nextLsn ≤ r.lsn + k.wal.logBuffer.length ∧ r.lsn < k.wal.nextLsn := by
  have hm : r.lsn ∈ k.wal.logBuffer.map WalRecord.lsn := mem_map.mpr ⟨r, hr, rfl⟩
  rw [h.buffer, mem_range'_1] at hm
  have := h.base
  omega

/-- Records of the buffer are told apart by their LSNs. -/
theorem buffer_inj {q : WalRecord} (hr : r ∈ k.wal.logBuffer)
    (hq : q ∈ k.wal.logBuffer) (he : r.lsn = q.lsn) : r = q := by
  have hnd : (k.wal.logBuffer.map WalRecord.lsn).Nodup := by
    rw [h.buffer]
    exact nodup_range'
  exact inj_on_of_nodup_map hnd hr hq he

theorem lsn_pos (hr : InLog d k r) : 1 ≤ r.lsn := by
  rcases hr with hr | hr
  · exact (h.ring r hr).1
  · have h1 := h.buffer_lsn hr
    have h2 := h.base
    omega

theorem lsn_lt (hr : InLog d k r) : r.lsn < k.wal.nextLsn := by
  rcases hr with hr | hr
  · have h1 := h.ring r hr
    have h2 := h.top
    omega
  · exact (h.buffer_lsn hr).2

theorem namesData : NamesData d :=
  fun r hr hw => (h.writeOk r (.inl hr) hw).data

theorem mem_notedLog_iff : r ∈ notedLog d ↔ r ∈ storedLog d := by
  rw [mem_notedLog]
  refine ⟨fun hr => hr.1, fun hr => ⟨hr, ?_⟩⟩
  have := (h.ring r hr).1
  omega

end LogInv

/-! ## Storing a record -/

theorem logSector_slot (lsn : Nat) : logSector lsn = walLogStartSector + (lsn - 1) % 64 := rfl

theorem not_dataSector_logSector (lsn : Nat) : ¬ DataSector (logSector lsn) :=
  not_dataSector_slot (Nat.mod_lt _ (by decide))

theorem slotRecord_store_same (hf : Fits p) {i : Nat}
    (hi : walLogStartSector + i = logSector p.lsn) :
    slotRecord (blockWrite d (logSector p.lsn) (bytesOf p)) i = some p := by
  unfold slotRecord
  rw [hi, blockWrite_same, if_pos (checksumOk_bytesOf p), recordOf_bytesOf hf]

theorem slotRecord_write_other {s : Sector} {b : Block} {i : Nat}
    (hi : walLogStartSector + i ≠ s) : slotRecord (blockWrite d s b) i = slotRecord d i := by
  unfold slotRecord
  rw [blockWrite_other hi]

section Head

variable (h : LogInv d k) (hp : k.pending = p :: ps)

include h hp

/-- The head of the queue is the record after `storedLsn`. -/
theorem LogInv.pending_head : p.lsn = k.storedLsn + 1 ∧ p ∈ k.wal.logBuffer := by
  have hl := h.pending_lsns.1
  rw [hp, map_cons, length_cons, List.range'_succ] at hl
  have hmem : p ∈ k.pending := by rw [hp]; exact mem_cons_self ..
  exact ⟨(List.cons.inj hl).1, (mem_filter.mp hmem).1⟩

theorem LogInv.head_lt : k.storedLsn < p.lsn := by
  rw [(h.pending_head hp).1]
  exact Nat.lt_succ_self _

theorem LogInv.storedLsn_store : (k.after (.record p)).storedLsn = p.lsn := if_pos (h.head_lt hp)

/-- The log after the next record is stored: the record one lap older is gone. -/
theorem LogInv.mem_store (hf : Fits p) :
    r ∈ storedLog (blockWrite d (logSector p.lsn) (bytesOf p)) ↔
      (r ∈ storedLog d ∧ r.lsn + 64 ≠ p.lsn) ∨ r = p := by
  have hlsn := (h.pending_head hp).1
  have hslot : ∀ q i, i < walLogSectors → slotRecord d i = some q →
      (q.lsn + 64 = p.lsn ↔ walLogStartSector + i = logSector p.lsn) := by
    intro q i hi hq
    have hq' : q ∈ storedLog d := mem_storedLog.mpr ⟨i, hi, hq⟩
    have hring := h.ring q hq'
    have hplace := h.inPlace i q hi hq
    constructor
    · intro he
      have hmod : (q.lsn - 1) % 64 = (p.lsn - 1) % 64 := by omega
      rw [← hplace, logSector_slot, logSector_slot, hmod]
    · intro he
      rw [← hplace] at he
      obtain ⟨m, hm⟩ := lsn_of_logSector_eq (a := q.lsn) (b := p.lsn) (by omega) (by omega)
        he.symm (by omega)
      omega
  rw [mem_storedLog, mem_storedLog]
  constructor
  · rintro ⟨i, hi, hr⟩
    by_cases hip : walLogStartSector + i = logSector p.lsn
    · rw [slotRecord_store_same hf hip] at hr
      exact .inr (Option.some.inj hr).symm
    · rw [slotRecord_write_other hip] at hr
      exact .inl ⟨⟨i, hi, hr⟩, fun he => hip ((hslot r i hi hr).mp he)⟩
  · rintro (⟨⟨i, hi, hr⟩, hne⟩ | rfl)
    · refine ⟨i, hi, ?_⟩
      rw [slotRecord_write_other fun hip => hne ((hslot r i hi hr).mpr hip)]
      exact hr
    · exact ⟨(r.lsn - 1) % 64, Nat.mod_lt _ (by decide), slotRecord_store_same hf rfl⟩

theorem LogInv.inLog_store (hf : Fits p)
    (hr : InLog (blockWrite d (logSector p.lsn) (bytesOf p)) (k.after (.record p)) r) :
    InLog d k r := by
  rcases hr with hr | hr
  · rcases (h.mem_store hp hf).mp hr with ⟨hr, -⟩ | rfl
    · exact .inl hr
    · exact .inr (h.pending_head hp).2
  · exact .inr hr

/-- Storing the head of the queue keeps the log. -/
theorem LogInv.store (hf : Fits p) :
    LogInv (blockWrite d (logSector p.lsn) (bytesOf p)) (k.after (.record p)) := by
  obtain ⟨hlsn, hmem⟩ := h.pending_head hp
  have hin : ∀ r, InLog (blockWrite d (logSector p.lsn) (bytesOf p)) (k.after (.record p)) r →
      InLog d k r := fun r hr => h.inLog_store hp hf hr
  have hst := h.storedLsn_store hp
  have hbuf := h.buffer_lsn hmem
  have hshort : k.wal.logBuffer.length ≤ 8 := h.short
  refine ⟨?_, ?_, fun r hr => h.writeOk r (hin r hr), fun r hr => h.txnIds r (hin r hr),
    h.buffer, h.short, h.base, ?_, ?_, ?_, h.txns,
    fun x hx r hr => h.firsts x hx r (hin r hr), h.nodup, h.idPos⟩
  · intro i r hi hr
    by_cases hip : walLogStartSector + i = logSector p.lsn
    · rw [slotRecord_store_same hf hip] at hr
      rw [← Option.some.inj hr, hip]
    · rw [slotRecord_write_other hip] at hr
      exact h.inPlace i r hi hr
  · intro r hr
    rcases (h.mem_store hp hf).mp hr with ⟨hr, hne⟩ | rfl
    · have := h.ring r hr
      omega
    · omega
  · show k.wal.nextLsn ≤ (k.after (.record p)).storedLsn + 1 + k.wal.logBuffer.length
    omega
  · show (k.after (.record p)).storedLsn < k.wal.nextLsn
    omega
  · intro r hr hle
    have hr' := h.buffer_lsn hr
    by_cases he : r.lsn = p.lsn
    · rw [h.buffer_inj hr hmem he, blockWrite_same]
    · have hne : logSector r.lsn ≠ logSector p.lsn := by
        intro hs
        obtain ⟨m, hm⟩ := lsn_of_logSector_eq (a := r.lsn) (b := p.lsn)
          (h.lsn_pos (.inr hr)) (by omega) hs.symm (by omega)
        omega
      rw [blockWrite_other hne]
      exact h.copies r hr (by omega)

end Head

/-- Storing a record of the buffer once more changes nothing. -/
theorem LogInv.store_again (h : LogInv d k) (hr : r ∈ k.wal.logBuffer) (hle : r.lsn ≤ k.storedLsn) :
    blockWrite d (logSector r.lsn) (bytesOf r) = d ∧ k.after (.record r) = k := by
  refine ⟨blockWrite_self (h.copies r hr hle), ?_⟩
  have h1 : ¬ k.storedLsn < r.lsn := by omega
  show { k with storedLsn := _, committing := _ } = k
  rw [if_neg h1, if_neg (fun hc => h1 hc.2)]

theorem storedLog_write_data (d : Disk) {s : Sector} (hs : DataSector s) (b : Block) :
    storedLog (blockWrite d s b) = storedLog d := by
  have hsame : SameLog d (blockWrite d s b) := by
    intro t ht
    refine blockWrite_other ?_
    rintro rfl
    exact ht hs
  exact hsame.storedLog

/-- Writing a data sector keeps the log. -/
theorem LogInv.writeBack (h : LogInv d k) {s : Sector} (hs : DataSector s) (b : Block) :
    LogInv (blockWrite d s b) (k.after (.data s b)) := by
  have hlog := storedLog_write_data d hs b
  have hin : ∀ r, InLog (blockWrite d s b) (k.after (.data s b)) r → InLog d k r := by
    intro r hr
    unfold InLog at hr
    rw [hlog] at hr
    exact hr
  have hslot : ∀ i, i < walLogSectors → walLogStartSector + i ≠ s := by
    rintro i hi rfl
    exact not_dataSector_slot hi hs
  refine ⟨?_, ?_, fun r hr => h.writeOk r (hin r hr), fun r hr => h.txnIds r (hin r hr),
    h.buffer, h.short, h.base, h.reach, h.top, ?_, h.txns,
    fun x hx r hr => h.firsts x hx r (hin r hr), h.nodup, h.idPos⟩
  · intro i r hi hr
    rw [slotRecord_write_other (hslot i hi)] at hr
    exact h.inPlace i r hi hr
  · intro r hr
    rw [hlog] at hr
    exact h.ring r hr
  · intro r hr hle
    have hne : logSector r.lsn ≠ s := by
      rintro rfl
      exact not_dataSector_logSector r.lsn hs
    rw [blockWrite_other hne]
    exact h.copies r hr hle

/-! ## Keeping a property along the device writes -/

/-- A property `P` of device, view and manager that implies `Q`, that the device writes keep when
    their events meet `C`, and that does not look at the view outside the data sectors, at
    `flushed_lsn` or at stored records left in the buffer. -/
structure Stable (C : Event → Prop) (Q : Disk → Core → Prop)
    (P : Disk → Disk → Core → Prop) : Prop where
  log : ∀ {d v k}, P d v k → LogInv d k
  good : ∀ {d v k}, P d v k → Q d k
  store : ∀ {d v k p ps}, P d v k → k.pending = p :: ps → C ⟨d, k, .record p⟩ →
    P (blockWrite d (logSector p.lsn) (bytesOf p)) v (k.after (.record p))
  back : ∀ {d v k s}, P d v k → DataSector s → C ⟨d, k, .data s (v s)⟩ →
    P (blockWrite d s (v s)) v (k.after (.data s (v s)))
  view : ∀ {d v v' k}, P d v k → (∀ s, DataSector s → v' s = v s) → P d v' k
  flushed : ∀ {d v k} (n : Nat), P d v k →
    P d v { k with wal := { k.wal with flushedLsn := n } }
  reset : ∀ {d v k}, P d v k → k.pending = [] →
    P d v { k with wal := resetBuffer k.wal }

/-- The property looks at the data sectors of the view only. -/
def OfData (P : Disk → Disk → Core → Prop) : Prop :=
  ∀ d v v' k, P d v k → (∀ s, DataSector s → v' s = v s) → P d v' k

theorem Stable.ofData (h : Stable C Q P) : OfData P :=
  fun _ _ _ _ hp hv => h.view hp hv

/-- The cache is in order, holds data sectors only and presents `u`. -/
structure Ground (u : Disk) (s : Sys) : Prop where
  calm : s.panicked = false
  ok : CacheOk s.bc
  data : ∀ t, Cached s.bc t → DataSector t
  view : ∀ t, DataSector t → cacheView s.bc t = u t

/-- If all device writes so far met `C`, the cache presents `u`, `P` holds now,
    with `v` as the view, and `Q` held after every one of them. -/
def Safe (C : Event → Prop) (Q : Disk → Core → Prop) (P : Disk → Disk → Core → Prop)
    (u v : Disk) (s : Sys) : Prop :=
  (∀ e ∈ s.events, C e) →
    Ground u s ∧ P s.bc.disk v s.core ∧ ∀ e ∈ s.events, Q e.diskAfter e.coreAfter

/-- Steps in memory: neither the device nor the cache is touched. -/
theorem Safe.setCore {P' : Disk → Disk → Core → Prop} (h : Safe C Q P u v s)
    (hk : Ground u s → P s.bc.disk v s.core → P' s.bc.disk v' k) :
    Safe C Q P' u v' { s with core := k } := by
  intro hC
  obtain ⟨hg, hp, hev⟩ := h hC
  exact ⟨{ hg with }, hk hg hp, hev⟩

theorem Safe.storeRecord (hP : Stable C Q P) (h : Safe C Q P u v s)
    {pre rest : List WalRecord} (hbuf : s.core.wal.logBuffer = pre ++ r :: rest)
    (hpre : ∀ q ∈ pre, q.lsn ≤ s.core.storedLsn) : Safe C Q P u v (s.storeRecord r) := by
  intro hC
  obtain ⟨hg, hp, hev⟩ := h fun e he => hC e (mem_append_left _ he)
  have hunc : ¬ Cached s.bc (logSector r.lsn) :=
    fun hc => not_dataSector_logSector r.lsn (hg.data _ hc)
  obtain ⟨hok, hview⟩ := deviceWrite_uncached hg.ok (bytesOf r) hunc
  have hmem : r ∈ s.core.wal.logBuffer := by
    rw [hbuf]
    exact mem_append_right _ (mem_cons_self ..)
  have hnew : P (blockWrite s.bc.disk (logSector r.lsn) (bytesOf r)) v
      (s.core.after (.record r)) := by
    by_cases hle : r.lsn ≤ s.core.storedLsn
    · obtain ⟨hd, hk⟩ := (hP.log hp).store_again hmem hle
      rw [hd, hk]
      exact hp
    have hnil : pre.filter (fun q => s.core.storedLsn < q.lsn) = [] := by
      refine filter_eq_nil_iff.mpr ?_
      intro q hq
      have := hpre q hq
      simpa using this
    have hpend : s.core.pending = r :: rest.filter fun q => s.core.storedLsn < q.lsn := by
      show s.core.wal.logBuffer.filter _ = _
      rw [hbuf, filter_append, hnil, nil_append, filter_cons_of_pos (by simpa using hle)]
    exact hP.store hp hpend (hC _ (mem_append_right _ (mem_singleton.mpr rfl)))
  refine ⟨⟨hg.calm, hok, hg.data, ?_⟩, hnew, ?_⟩
  · intro t ht
    have hne : t ≠ logSector r.lsn := by
      rintro rfl
      exact not_dataSector_logSector r.lsn ht
    show cacheView (s.bc.deviceWrite _ _) t = u t
    rw [hview, blockWrite_other hne]
    exact hg.view t ht
  · exact forall_mem_append.mpr ⟨hev, forall_mem_singleton.mpr (hP.good hnew)⟩

/-- What storing one record leaves alone, storing many does. -/
theorem storeRecords_keeps {γ : Type} (f : Sys → γ) (hf : ∀ s r, f (s.storeRecord r) = f s) :
    ∀ (rs : List WalRecord) (s : Sys), f (s.storeRecords rs) = f s := by
  intro rs
  induction rs with
  | nil => intro s; rfl
  | cons r rs ih => intro s; exact (ih (s.storeRecord r)).trans (hf s r)

@[simp] theorem storeRecords_wal : ∀ (rs : List WalRecord) (s : Sys),
    (s.storeRecords rs).core.wal = s.core.wal :=
  storeRecords_keeps (fun s => s.core.wal) fun _ _ => rfl

@[simp] theorem storeRecords_cache : ∀ (rs : List WalRecord) (s : Sys),
    (s.storeRecords rs).bc.cache = s.bc.cache :=
  storeRecords_keeps (fun s => s.bc.cache) fun _ _ => rfl

theorem storeRecords_tags (rs : List WalRecord) (s : Sys) :
    (s.storeRecords rs).core.viewTag = s.core.viewTag ∧
      (s.storeRecords rs).core.diskTag = s.core.diskTag :=
  ⟨storeRecords_keeps (fun s => s.core.viewTag) (fun _ _ => rfl) rs s,
    storeRecords_keeps (fun s => s.core.diskTag) (fun _ _ => rfl) rs s⟩

/-- Storing a tail of the buffer whose records before it are stored. -/
theorem Safe.storeRecords (hP : Stable C Q P) (rs pre : List WalRecord) (s : Sys) :
    Safe C Q P u v s → s.core.wal.logBuffer = pre ++ rs →
    (∀ q ∈ pre, q.lsn ≤ s.core.storedLsn) → Safe C Q P u v (s.storeRecords rs) := by
  induction rs generalizing pre s with
  | nil => intro h _ _; exact h
  | cons r rs ih =>
    intro h hbuf hpre
    refine ih (pre ++ [r]) (s.storeRecord r) (h.storeRecord hP hbuf hpre) ?_ ?_
    · rw [append_assoc]
      exact hbuf
    · intro q hq
      show q.lsn ≤ if s.core.storedLsn < r.lsn then r.lsn else s.core.storedLsn
      rcases mem_append.mp hq with hq | hq
      · have := hpre q hq
        split <;> omega
      · rw [mem_singleton.mp hq]
        split <;> omega

theorem Safe.walFlush (hP : Stable C Q P) (h : Safe C Q P u v s) (upTo : Nat) :
    Safe C Q P u v (s.walFlush upTo) := by
  unfold Sys.walFlush
  rcases walFlush_cases s.core.wal upTo with ⟨hw, -⟩ | ⟨hw, -, -⟩
  · rw [hw]
    exact h
  · rw [hw]
    refine Safe.setCore (h.storeRecords hP _ [] s rfl nofun) ?_
    intro _ hp
    have := hP.flushed (maxLsn s.core.wal.flushedLsn s.core.wal.logBuffer) hp
    rw [storeRecords_wal] at this
    exact this

/-- Between two calls: everything stored is counted as flushed, `next_lsn` is
    ahead of all of it, and no commit waits or is on its way. -/
structure Settled (k : Core) : Prop where
  flushed : k.wal.flushedLsn = k.storedLsn
  below : k.storedLsn < k.wal.nextLsn ∧ ∀ r ∈ k.wal.logBuffer, r.lsn < k.wal.nextLsn
  idle : k.committing = none
  noCommit : ∀ r ∈ k.pending, r.type ≠ .commit

theorem after_record_mark (h : ¬ (r.type = .commit ∧ k.storedLsn < r.lsn)) :
    k.after (.record r) = { k with
      storedLsn := if k.storedLsn < r.lsn then r.lsn else k.storedLsn } := by
  simp only [Core.after, if_neg h]

/-- What storing records does to the manager when no new commit is among them. -/
theorem storeRecords_core (rs : List WalRecord) (s : Sys) :
    (∀ r ∈ rs, s.core.storedLsn < r.lsn → r.type ≠ .commit) →
    (s.storeRecords rs).core = { s.core with storedLsn := maxLsn s.core.storedLsn rs } := by
  induction rs generalizing s with
  | nil => intro _; rfl
  | cons r rs ih =>
    intro h
    have hr : (s.storeRecord r).core = { s.core with
        storedLsn := if s.core.storedLsn < r.lsn then r.lsn else s.core.storedLsn } := by
      exact after_record_mark fun hc => h r (mem_cons_self ..) hc.2 hc.1
    have hstep := ih (s.storeRecord r) (by
      intro q hq hlt
      refine h q (mem_cons_of_mem _ hq) ?_
      refine Nat.lt_of_le_of_lt ?_ hlt
      show s.core.storedLsn ≤ if s.core.storedLsn < r.lsn then r.lsn else s.core.storedLsn
      split <;> omega)
    show ((s.storeRecord r).storeRecords rs).core = _
    rw [hstep, hr]
    rfl

/-- `wal_flush` between two calls: some LSNs more are stored. -/
theorem walFlush_settled (h : Settled s.core) (upTo : Nat) :
    ∃ m, (s.core.storedLsn ≤ m ∧ m < s.core.wal.nextLsn) ∧
      (s.walFlush upTo).core = { s.core with
        wal := { s.core.wal with flushedLsn := m }, storedLsn := m } ∧
      ∀ r ∈ s.core.wal.logBuffer, r.lsn ≤ upTo → r.lsn ≤ m := by
  unfold Sys.walFlush
  rcases walFlush_cases s.core.wal upTo with ⟨hw, hwhy⟩ | ⟨hw, -, -⟩
  · rw [hw]
    refine ⟨s.core.storedLsn, ⟨Nat.le_refl _, h.below.1⟩, ?_, ?_⟩
    · rw [show { s.core.wal with flushedLsn := s.core.storedLsn } = s.core.wal by
        rw [← h.flushed]]
      rfl
    · intro r hr hle
      rcases hwhy with hwhy | hwhy
      · rw [h.flushed] at hwhy
        omega
      · rw [hwhy] at hr
        exact nomatch hr
  · rw [hw]
    have hle := le_maxLsn s.core.wal.logBuffer s.core.storedLsn
    refine ⟨maxLsn s.core.storedLsn s.core.wal.logBuffer,
      ⟨hle.1, maxLsn_lt _ _ _ h.below.1 h.below.2⟩, ?_, fun r hr _ => hle.2 r hr⟩
    have hcore := storeRecords_core s.core.wal.logBuffer s (fun r hr hlt => h.noCommit r
      (mem_filter.mpr ⟨hr, decide_eq_true hlt⟩))
    simp only [Sys.setWal, hcore, h.flushed]

theorem settled_of_flush (h : Settled k) {m : Nat} (hm : k.storedLsn ≤ m ∧ m < k.wal.nextLsn) :
    Settled { k with wal := { k.wal with flushedLsn := m }, storedLsn := m } := by
  refine ⟨rfl, ⟨hm.2, h.below.2⟩, h.idle, ?_⟩
  intro r hr
  obtain ⟨hr, hlt⟩ := mem_filter.mp hr
  refine h.noCommit r (mem_filter.mpr ⟨hr, decide_eq_true ?_⟩)
  exact Nat.lt_of_le_of_lt hm.1 (of_decide_eq_true hlt)

end MavSystem
