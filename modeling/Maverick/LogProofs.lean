import Maverick.RecordProofs

/-! # The log manager — append and flush

`wal_append_record` and `wal_flush` work on the manager record `wal` and on the log sectors. Both
are cut here where the source takes and drops `wal_lock`: the section that stamps the record, the
flush in the middle when the buffer is full, and the section that copies the record and moves
`next_lsn`. Run one after the other they are the sequential `walAppendRecord`; the same sections
interleaved are the threads of `ThreadLogProofs`. -/

namespace MavLog

open MavBlock MavRecord

/-- `struct wal_txn` of an active transaction. -/
structure WalTxn where
  txnId : Nat
  firstLsn : Nat
  lastLsn : Nat
  deriving DecidableEq, Repr

/-- `struct wal_manager` with the file's `checkpoint_pending` flag. The buffer
    is the list of the records in it; `lsn_t` and `txn_id_t` are unbounded
    here and cut to their widths where a record is stored. -/
structure WalManager where
  nextLsn : Nat
  flushedLsn : Nat
  nextTxnId : Nat
  logBuffer : List WalRecord
  activeTxns : List WalTxn
  checkpointLsn : Nat
  checkpointing : Bool
  checkpointPending : Bool

def walLogStartSector : Sector := 2

def walLogSectors : Nat := 64

/-- The log sector of a record: the log is a ring. -/
def logSector (lsn : Nat) : Sector := walLogStartSector + (lsn - 1) % walLogSectors

/-- Records that fit the buffer: `WAL_BUFFER_SIZE` over the record size. -/
def walBufferRecords : Nat := 8

/-- The largest LSN among `flushed_lsn` and the records written. -/
def maxLsn (m : Nat) (rs : List WalRecord) : Nat :=
  rs.foldl (fun m r => if m < r.lsn then r.lsn else m) m

/-- `wal_flush`: the records it writes, in order, and the manager after it.
    The buffer is not emptied. -/
def walFlush (w : WalManager) (upToLsn : Nat) : List WalRecord × WalManager :=
  if upToLsn ≤ w.flushedLsn then ([], w)
  else if w.logBuffer.length = 0 then ([], w)
  else (w.logBuffer, { w with flushedLsn := maxLsn w.flushedLsn w.logBuffer })

/-- First section of `wal_append_record`: the record gets the next LSN. -/
def stampRecord (w : WalManager) (record : WalRecord) : WalRecord :=
  { record with lsn := w.nextLsn }

/-- The test for a full buffer. -/
def bufferFull (w : WalManager) : Prop := walBufferRecords < w.logBuffer.length + 1
deriving Decidable

/-- Entries of the log in use since the last checkpoint. -/
def logUsed (w : WalManager) : Nat :=
  if w.checkpointLsn = 0 then w.nextLsn - 1 else w.nextLsn - w.checkpointLsn

/-- Last section of `wal_append_record`: copy the stamped record, move
    `next_lsn` and ask for a checkpoint when the log is three quarters full. -/
def copyRecord (w : WalManager) (record : WalRecord) : WalManager :=
  let w := { w with logBuffer := w.logBuffer ++ [record] }
  let w := if record.type = .checkpoint then { w with checkpointLsn := record.lsn } else w
  let w := { w with nextLsn := w.nextLsn + 1 }
  if walLogSectors * 3 / 4 ≤ logUsed w ∧ w.checkpointing = false then
    { w with checkpointPending := true }
  else w

/-- Dropping the buffer after the flush of a full one. -/
def resetBuffer (w : WalManager) : WalManager := { w with logBuffer := [] }

/-- `wal_append_record` of one thread: the records it writes and the manager
    after it. The LSN it returns is `w.nextLsn`. -/
def walAppendRecord (w : WalManager) (record : WalRecord) :
    List WalRecord × WalManager :=
  let record := stampRecord w record
  if bufferFull w then
    let (rs, w') := walFlush w (w.nextLsn - 1)
    (rs, copyRecord (resetBuffer w') record)
  else ([], copyRecord w record)

/-! ## What each section changes -/

section

variable (w : WalManager) (r : WalRecord)

include w r

/-- The fields the last section changes. -/
theorem copyRecord_shape :
    ∃ pending, copyRecord w r = { w with
      logBuffer := w.logBuffer ++ [r]
      nextLsn := w.nextLsn + 1
      checkpointLsn := if r.type = .checkpoint then r.lsn else w.checkpointLsn
      checkpointPending := pending } := by
  unfold copyRecord
  by_cases ht : r.type = .checkpoint
  · simp only [if_pos ht]
    split
    · exact ⟨true, rfl⟩
    · exact ⟨w.checkpointPending, rfl⟩
  · simp only [if_neg ht]
    split
    · exact ⟨true, rfl⟩
    · exact ⟨w.checkpointPending, rfl⟩

@[simp] theorem copyRecord_logBuffer : (copyRecord w r).logBuffer = w.logBuffer ++ [r] := by
  obtain ⟨p, h⟩ := copyRecord_shape w r
  rw [h]

@[simp] theorem copyRecord_nextLsn : (copyRecord w r).nextLsn = w.nextLsn + 1 := by
  obtain ⟨p, h⟩ := copyRecord_shape w r
  rw [h]

@[simp] theorem copyRecord_flushedLsn : (copyRecord w r).flushedLsn = w.flushedLsn := by
  obtain ⟨p, h⟩ := copyRecord_shape w r
  rw [h]

end

theorem le_maxLsn (rs : List WalRecord) (m : Nat) :
    m ≤ maxLsn m rs ∧ ∀ r ∈ rs, r.lsn ≤ maxLsn m rs := by
  induction rs generalizing m with
  | nil => exact ⟨Nat.le_refl m, nofun⟩
  | cons q rs ih =>
    obtain ⟨hm, hrs⟩ := ih (if m < q.lsn then q.lsn else m)
    have hq : m ≤ (if m < q.lsn then q.lsn else m) ∧
        q.lsn ≤ (if m < q.lsn then q.lsn else m) := by
      split <;> omega
    refine ⟨Nat.le_trans hq.1 hm, ?_⟩
    exact List.forall_mem_cons.mpr ⟨Nat.le_trans hq.2 hm, hrs⟩

theorem maxLsn_lt (rs : List WalRecord) (m n : Nat) : m < n →
    (∀ r ∈ rs, r.lsn < n) → maxLsn m rs < n := by
  induction rs generalizing m n with
  | nil => intro hm _; exact hm
  | cons q rs ih =>
    intro hm h
    refine ih _ n ?_ (fun r hr => h r (List.mem_cons_of_mem _ hr))
    have hq := h q (List.mem_cons_self ..)
    show (if m < q.lsn then q.lsn else m) < n
    split <;> omega

/-- Everything `wal_flush` can do: nothing, or write the whole buffer. -/
theorem walFlush_cases (w : WalManager) (upTo : Nat) :
    (walFlush w upTo = ([], w) ∧ (upTo ≤ w.flushedLsn ∨ w.logBuffer = [])) ∨
    (walFlush w upTo
        = (w.logBuffer, { w with flushedLsn := maxLsn w.flushedLsn w.logBuffer }) ∧
      w.flushedLsn < upTo ∧ w.logBuffer ≠ []) := by
  unfold walFlush
  by_cases hu : upTo ≤ w.flushedLsn
  · exact .inl ⟨if_pos hu, .inl hu⟩
  · rw [if_neg hu]
    by_cases hl : w.logBuffer.length = 0
    · exact .inl ⟨if_pos hl, .inr (List.eq_nil_of_length_eq_zero hl)⟩
    · refine .inr ⟨if_neg hl, by omega, ?_⟩
      intro hnil
      exact hl (by rw [hnil]; rfl)

/-- Two LSNs share a log sector only 64 apart. -/
theorem lsn_of_logSector_eq {a b : Nat} (ha : 1 ≤ a) (hb : 1 ≤ b)
    (h : logSector b = logSector a) (hlt : a < b + 64) : ∃ k, b = a + 64 * k := by
  have hmod : (b - 1) % 64 = (a - 1) % 64 := Nat.add_left_cancel h
  exact ⟨(b - a) / 64, by omega⟩

end MavLog
