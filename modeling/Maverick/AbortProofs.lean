import Maverick.CrashRunProofs

/-! # Abort — undoing a transaction from the log

`wal_txn_abort` reads the records of its transaction back from the log and writes their old bytes to
the cache, newest first. A byte then has the old value of the oldest record about it that is still
in the log.

The log is a ring of 64 sectors. As long as the records appended since the transaction's first
write fit into it, the oldest record about a byte is the one its first write made, and abort
restores what was there when the transaction began. Longer transactions lose their first records,
and with them the bytes. -/

namespace MavAbort

open MavRun MavBlock MavRecord MavLog MavOverride MavRecover MavSystem MavMount MavCache MavRules List
open MavCrash MavUndoRedo

/-- The transaction under observation: its id, the LSN of its `WAL_BEGIN`, the
    bytes it is to write, and what the data bytes were when it began. -/
structure Watch where
  id : Nat
  first : Nat
  bytes : Set Addr
  base : Addr → UInt8

variable {T : Watch} {d v : Disk} {k : Core}

/-- A `WAL_WRITE` of the transaction, on disk or in the buffer. -/
def Mine (T : Watch) (d : Disk) (k : Core) (r : WalRecord) : Prop :=
  InLog d k r ∧ r.type = .write ∧ r.txnId = T.id

/-- The log has room for all records since the first write. -/
def Fresh (T : Watch) (k : Core) : Prop := k.wal.nextLsn ≤ T.first + 65

/-- The transaction is active. -/
def Active (T : Watch) (k : Core) : Prop := T.id ∈ k.wal.activeTxns.map WalTxn.txnId

/-- What is known while the transaction runs: other active transactions have no
    records about its bytes; of its own records about a byte the oldest has the
    value from before, and a byte without one still has it. -/
structure Tracked (T : Watch) (d v : Disk) (k : Core) : Prop where
  log : LogInv d k
  known : T.id < k.wal.nextTxnId ∧ T.first < k.wal.nextLsn
  after : ∀ r, Mine T d k r → T.first < r.lsn
  cover : ∀ r, Mine T d k r → ∀ x, Covers r x → x ∈ T.bytes
  others : ∀ t ∈ k.wal.activeTxns.map WalTxn.txnId, t ≠ T.id → ∀ r, InLog d k r →
    r.type = .write → r.txnId = t → ∀ x ∈ T.bytes, ¬ Covers r x
  stored : Fresh T k → ∀ r ∈ k.wal.logBuffer, T.first < r.lsn → r.lsn ≤ k.storedLsn →
    r ∈ storedLog d
  oldest : Fresh T k → Active T k → ∀ x ∈ T.bytes, ∀ r, Mine T d k r → Covers r x →
    (∀ q, Mine T d k q → Covers q x → r.lsn ≤ q.lsn) → oldPatch r x = some (T.base x)
  clean : Fresh T k → Active T k → ∀ x ∈ T.bytes, (∀ r, Mine T d k r → ¬ Covers r x) →
    dataBytes v x = T.base x

/-! ## Steps in memory -/

/-- A state whose log has the same writes, as far as they count, and in which no
    transaction is active that has some of them and was not. -/
theorem Tracked.keeps {d' : Disk} {k' : Core} (h : Tracked T d v k) (hlog : LogInv d' k')
    (hid : k.wal.nextTxnId ≤ k'.wal.nextTxnId) (hlsn : k.wal.nextLsn ≤ k'.wal.nextLsn)
    (hact : ∀ t ∈ k'.wal.activeTxns.map WalTxn.txnId,
      t ∈ k.wal.activeTxns.map WalTxn.txnId ∨ k.wal.nextTxnId ≤ t)
    (hin : ∀ r, InLog d' k' r → r.type = .write → InLog d k r)
    (hkeep : Fresh T k → ∀ r, InLog d k r → T.first < r.lsn → InLog d' k' r)
    (hst : Fresh T k → ∀ r ∈ k'.wal.logBuffer, T.first < r.lsn → r.lsn ≤ k'.storedLsn →
      r ∈ storedLog d') : Tracked T d' v k' := by
  have hmine : ∀ {r}, Mine T d' k' r → Mine T d k r := fun hr => ⟨hin _ hr.1 hr.2.1, hr.2⟩
  have hback : Fresh T k → ∀ {r}, Mine T d k r → Mine T d' k' r :=
    fun hf r hr => ⟨hkeep hf r hr.1 (h.after r hr), hr.2⟩
  have hfresh : Fresh T k' → Fresh T k := Nat.le_trans hlsn
  have hactive : Active T k' → Active T k :=
    fun ha => (hact _ ha).resolve_right (Nat.not_le.mpr h.known.1)
  refine ⟨hlog, ⟨Nat.lt_of_lt_of_le h.known.1 hid, Nat.lt_of_lt_of_le h.known.2 hlsn⟩,
    fun r hr => h.after r (hmine hr), fun r hr => h.cover r (hmine hr), ?_,
    fun hf => hst (hfresh hf), ?_, ?_⟩
  · intro t ht hne r hr hw hrt
    have hr' := hin r hr hw
    refine h.others t ((hact t ht).resolve_right fun hle => ?_) hne r hr' hw hrt
    have := (h.log.txnIds r hr').1
    omega
  · intro hf ha x hx r hr hc hmin
    exact h.oldest (hfresh hf) (hactive ha) x hx r (hmine hr) hc
      fun q hq => hmin q (hback (hfresh hf) hq)
  · intro hf ha x hx hno
    exact h.clean (hfresh hf) (hactive ha) x hx fun r hr => hno r (hback (hfresh hf) hr)

/-- Transactions may leave the table. -/
theorem Tracked.of_txns {k' : Core} (h : Tracked T d v k) (hlog : LogInv d k')
    (hwal : k'.wal = { k.wal with activeTxns := k'.wal.activeTxns })
    (hst : k'.storedLsn = k.storedLsn)
    (hact : ∀ t ∈ k'.wal.activeTxns.map WalTxn.txnId, t ∈ k.wal.activeTxns.map WalTxn.txnId) :
    Tracked T d v k' := by
  have hbuf : k'.wal.logBuffer = k.wal.logBuffer := by rw [hwal]
  have hin : ∀ r, InLog d k' r ↔ InLog d k r := by
    intro r
    unfold InLog
    rw [hbuf]
  refine h.keeps hlog (by rw [hwal]) (by rw [hwal]) (fun t ht => .inl (hact t ht))
    (fun r hr _ => (hin r).mp hr) (fun _ r hr _ => (hin r).mpr hr) ?_
  rw [hbuf, hst]
  exact h.stored

/-- Only the bytes of the transaction it has no record about are looked at. -/
theorem Tracked.of_view {v' : Disk} (h : Tracked T d v k)
    (hv : Fresh T k → ∀ x ∈ T.bytes, (∀ r, Mine T d k r → ¬ Covers r x) →
      dataBytes v' x = dataBytes v x) : Tracked T d v' k :=
  { h with clean := fun hf ha x hx hno => (hv hf x hx hno).trans (h.clean hf ha x hx hno) }

theorem nextLsn_push (k : Core) (r : WalRecord) :
    (Core.push k r).wal.nextLsn = k.wal.nextLsn + 1 := copyRecord_nextLsn ..

theorem ids_push (k : Core) (r : WalRecord) :
    (Core.push k r).wal.activeTxns = k.wal.activeTxns := (copyRecord_rest ..).1

variable {r : WalRecord} {s : Sys}

theorem inLog_push {q : WalRecord} :
    InLog d (Core.push k r) q ↔ InLog d k q ∨ q = { r with lsn := k.wal.nextLsn } := by
  constructor
  · exact inLog_copy
  rintro ((hq | hq) | rfl)
  · exact .inl hq
  · refine .inr ?_
    show q ∈ (copyRecord k.wal _).logBuffer
    rw [copyRecord_logBuffer]
    exact mem_append_left _ hq
  · refine .inr ?_
    show _ ∈ (copyRecord k.wal _).logBuffer
    rw [copyRecord_logBuffer]
    exact mem_append_right _ (mem_singleton.mpr rfl)

/-- A record is appended: a mark, a record of another transaction about other
    bytes, or one of the transaction's own with the bytes that are there. -/
theorem Tracked.push (h : Tracked T d v k) (hlog : LogInv d (Core.push k r))
    (hown : r.type = .write → r.txnId = T.id → ∀ x, Covers r x →
      x ∈ T.bytes ∧ oldPatch r x = some (dataBytes v x))
    (hother : r.type = .write → r.txnId ≠ T.id → ∀ x ∈ T.bytes, ¬ Covers r x) :
    Tracked T d v (Core.push k r) := by
  have hfresh : Fresh T (Core.push k r) → Fresh T k := by
    intro hf
    unfold Fresh at hf ⊢
    rw [nextLsn_push] at hf
    omega
  have hact : Active T (Core.push k r) → Active T k := by
    unfold Active
    rw [ids_push]
    exact id
  have hold : ∀ {q}, Mine T d k q → Mine T d (Core.push k r) q :=
    fun hq => ⟨inLog_push.mpr (.inl hq.1), hq.2⟩
  refine ⟨hlog, ⟨?_, ?_⟩, ?_, ?_, ?_, ?_, ?_, ?_⟩
  · show T.id < (copyRecord _ _).nextTxnId
    rw [(copyRecord_rest ..).2.1]
    exact h.known.1
  · rw [nextLsn_push]
    exact Nat.lt_succ_of_lt h.known.2
  · rintro q ⟨hq, hw, ht⟩
    rcases inLog_push.mp hq with hq | rfl
    · exact h.after q ⟨hq, hw, ht⟩
    · exact h.known.2
  · rintro q ⟨hq, hw, ht⟩ x hx
    rcases inLog_push.mp hq with hq | rfl
    · exact h.cover q ⟨hq, hw, ht⟩ x hx
    · exact (hown hw ht x hx).1
  · intro t ht hne q hq hw hqt
    rw [ids_push] at ht
    rcases inLog_push.mp hq with hq | rfl
    · exact h.others t ht hne q hq hw hqt
    · exact hother hw (by rw [show r.txnId = t from hqt]; exact hne)
  · intro hf q hq hlt hle
    have hq' : q ∈ (copyRecord k.wal { r with lsn := k.wal.nextLsn }).logBuffer := hq
    rw [copyRecord_logBuffer] at hq'
    rcases mem_append.mp hq' with hq' | hq'
    · exact h.stored (hfresh hf) q hq' hlt hle
    · rw [mem_singleton.mp hq'] at hle
      have := h.log.top
      have hle' : k.wal.nextLsn ≤ k.storedLsn := hle
      omega
  · intro hf ha x hx q ⟨hq, hw, ht⟩ hc hmin
    rcases inLog_push.mp hq with hq | rfl
    · exact h.oldest (hfresh hf) (hact ha) x hx q ⟨hq, hw, ht⟩ hc fun p hp => hmin p (hold hp)
    · -- the new record is the oldest about the byte only if it is the first
      rw [← h.clean (hfresh hf) (hact ha) x hx fun p hp hpc => ?_]
      · exact (hown hw ht x hc).2
      · have hle := hmin p (hold hp) hpc
        have hlt := h.log.lsn_lt hp.1
        have hle' : k.wal.nextLsn ≤ p.lsn := hle
        omega
  · intro hf ha x hx hno
    exact h.clean (hfresh hf) (hact ha) x hx fun p hp => hno p (hold hp)

theorem Tracked.push_mark (h : Tracked T d v k) (hr : Ready k) (type : RecordType) {t : Nat}
    (hw : type ≠ .write) (hlt : t < k.wal.nextTxnId)
    (hpos : type = .commit ∨ type = .abort → 1 ≤ t) :
    Tracked T d v (Core.push k (markRecord type t)) :=
  h.push (h.log.copy hr.room rfl (fun hw' => absurd hw' hw) hlt
    (fun hor => hpos (hor.resolve_left hw))) (fun hw' => absurd hw' hw) (fun hw' => absurd hw' hw)

/-- `wal_txn_begin` appends a mark only. -/
theorem inLog_begun (hr : InLog d { k with wal := begun k.wal } r) (hw : r.type = .write) :
    InLog d k r := by
  have hin : InLog d (Core.push { k with wal := { k.wal with
      nextTxnId := k.wal.nextTxnId + 1 } } (markRecord .begin k.wal.nextTxnId)) r := hr
  rcases inLog_push.mp hin with hin | rfl
  · exact hin
  · exact nomatch (show RecordType.begin = .write from hw)

theorem nextTxnId_begun (w : WalManager) : (begun w).nextTxnId = w.nextTxnId + 1 :=
  (copyRecord_rest ..).2.1

theorem nextLsn_begun (w : WalManager) : (begun w).nextLsn = w.nextLsn + 1 :=
  copyRecord_nextLsn ..

theorem ids_begun {w : WalManager} {t : Nat} (ht : t ∈ (begun w).activeTxns.map WalTxn.txnId) :
    t ∈ w.activeTxns.map WalTxn.txnId ∨ t = w.nextTxnId := by
  obtain ⟨y, hy, rfl⟩ := mem_map.mp ht
  rcases mem_append.mp hy with hy | hy
  · exact .inl (mem_map.mpr ⟨y, hy, rfl⟩)
  · rw [mem_singleton.mp hy]
    exact .inr rfl

/-- A new transaction has no records. -/
theorem Tracked.begun (h : Tracked T d v k) (hr : Ready k) :
    Tracked T d v { k with wal := begun k.wal } := by
  have hopened : Tracked T d v k.opened :=
    h.keeps h.log.opened (Nat.le_succ _) (Nat.le_refl _)
      (fun t ht => (ids_begun ht).imp id fun he => Nat.le_of_eq he.symm) (fun _ hr _ => hr)
      (fun _ _ hr _ => hr) h.stored
  rw [begun_opened]
  exact hopened.push_mark ⟨{ hr.settled with }, hr.room⟩ .begin nofun (Nat.lt_succ_self _) nofun

/-! ## Device writes -/

/-- Records after the `WAL_BEGIN` stay in the ring. -/
theorem Tracked.inLog_store (h : Tracked T d v k) {p : WalRecord} {ps : List WalRecord}
    (hp : k.pending = p :: ps) (hf : Fits p) (hfresh : Fresh T k)
    (hr : InLog d k r) (hlt : T.first < r.lsn) :
    InLog (blockWrite d (logSector p.lsn) (bytesOf p)) (k.after (.record p)) r := by
  rcases hr with hr | hr
  · refine .inl ((h.log.mem_store hp hf).mpr (.inl ⟨hr, ?_⟩))
    have := (h.log.buffer_lsn (h.log.pending_head hp).2).2
    unfold Fresh at hfresh
    omega
  · exact .inr hr

/-- With nothing waiting, what counts is stored. -/
theorem Tracked.mem_stored (h : Tracked T d v k) (hp : k.pending = []) (hf : Fresh T k)
    (hr : InLog d k r) (hlt : T.first < r.lsn) : r ∈ storedLog d := by
  rcases hr with hr | hr
  · exact hr
  · refine h.stored hf r hr hlt ?_
    by_contra hle
    have hmem : r ∈ k.pending := mem_filter.mpr ⟨hr, by simpa using hle⟩
    rw [hp] at hmem
    exact nomatch hmem

/-- The condition on device writes: what is stored fits its fields. -/
def Fitting : Event → Prop := Storing fun _ => True
deriving DecidablePred

theorem inLog_writeBack {t : Sector} (ht : DataSector t) {b : Block} :
    InLog (blockWrite d t b) (k.after (.data t b)) r ↔ InLog d k r := by
  unfold InLog
  rw [storedLog_write_data d ht]
  exact Iff.rfl

theorem tracked_stable (T : Watch) : Stable Fitting (fun _ _ => True) (Tracked T) where
  log h := h.log
  good _ := trivial
  store := by
    intro d v k p ps h hp hC
    obtain ⟨hlsn, hmem⟩ := h.log.pending_head hp
    have hf : Fits p := (hC (h.log.head_lt hp)).1
    refine h.keeps (h.log.store hp hf) (Nat.le_refl _) (Nat.le_refl _) (fun _ ht => .inl ht)
      (fun r hr _ => h.log.inLog_store hp hf hr)
      (fun hfr r hr => h.inLog_store hp hf hfr hr) ?_
    intro hfr r hr hlt hle
    rw [h.log.storedLsn_store hp] at hle
    by_cases he : r.lsn = p.lsn
    · rw [h.log.buffer_inj hr hmem he]
      exact (h.log.mem_store hp hf).mpr (.inr rfl)
    · have hold := h.stored hfr r hr hlt (by omega)
      refine (h.log.mem_store hp hf).mpr (.inl ⟨hold, ?_⟩)
      have := (h.log.buffer_lsn hmem).2
      unfold Fresh at hfr
      omega
  back := by
    intro d v k s h hs _
    refine h.keeps (h.log.writeBack hs _) (Nat.le_refl _) (Nat.le_refl _) (fun _ ht => .inl ht)
      (fun r hr _ => (inLog_writeBack hs).mp hr) (fun _ r hr _ => (inLog_writeBack hs).mpr hr) ?_
    rw [storedLog_write_data d hs]
    exact h.stored
  view h hv := h.of_view fun _ x _ _ => congrFun (dataBytes_congr hv) x
  flushed _ h := { h with log := h.log.of_same rfl rfl rfl rfl rfl }
  reset h hp := h.keeps (h.log.reset hp) (Nat.le_refl _) (Nat.le_refl _) (fun _ ht => .inl ht)
    (fun _ hr _ => .inl (hr.resolve_right nofun))
    (fun hf _ hr hlt => .inl (h.mem_stored hp hf hr hlt)) nofun

/-! ## The phases of a call -/

/-- A write in progress, with the records it has made so far. -/
structure Logging (T : Watch) (w : TxnWrite) (recs : List WalRecord) (d : Disk) (k : Core) :
    Prop where
  data : DataSector w.sector
  range : RangeOk w.offset w.data.length
  act : w.txnId ∈ k.wal.activeTxns.map WalTxn.txnId
  own : w.txnId = T.id → ∀ x, (w.patch x).isSome → x ∈ T.bytes
  other : w.txnId ≠ T.id → ∀ x ∈ T.bytes, w.patch x = none
  recs : ∀ r ∈ recs, T.first < r.lsn ∧ (Fresh T k → InLog d k r)

/-- The invariant in each phase. -/
def abortPhase (T : Watch) : Phase → Disk → Disk → Core → Prop
  | .idle, d, v, k => Tracked T d v k
  | .logging w recs, d, v, k => Tracked T d v k ∧ Logging T w recs d k
  | .plain t ofs data, d, v, k => Tracked T d v k ∧ DataSector t ∧
      ∀ x ∈ T.bytes, rangePatch t ofs data x = none
  | .undoing u, d, v, k => Tracked T d v k ∧ u ∈ k.wal.activeTxns.map WalTxn.txnId

/-- Calls around the transaction: it writes its own bytes, and everybody else others. -/
def Around (T : Watch) (k : Core) (op : Op) : Prop :=
  Regular k op ∧
    match op with
    | .write w => (w.txnId = T.id → ∀ x, (w.patch x).isSome → x ∈ T.bytes) ∧
        (w.txnId ≠ T.id → ∀ x ∈ T.bytes, w.patch x = none)
    | .plainWrite t ofs data => ∀ x ∈ T.bytes, rangePatch t ofs data x = none
    | _ => True

theorem logging_stable (T : Watch) (w : TxnWrite) (recs : List WalRecord) :
    Stable Fitting (fun _ _ => True) (abortPhase T (.logging w recs)) where
  log h := h.1.log
  good _ := trivial
  store := by
    rintro d v k p ps ⟨h, hl⟩ hp hC
    have hf : Fits p := (hC (h.log.head_lt hp)).1
    exact ⟨(tracked_stable T).store h hp hC, { hl with recs := fun r hr =>
      ⟨(hl.recs r hr).1, fun hfr => h.inLog_store hp hf hfr ((hl.recs r hr).2 hfr)
        (hl.recs r hr).1⟩ }⟩
  back := by
    rintro d v k s ⟨h, hl⟩ hs hC
    exact ⟨(tracked_stable T).back h hs hC, { hl with recs := fun r hr =>
      ⟨(hl.recs r hr).1, fun hfr => (inLog_writeBack hs).mpr ((hl.recs r hr).2 hfr)⟩ }⟩
  view h hv := ⟨(tracked_stable T).view h.1 hv, h.2⟩
  flushed n h := ⟨(tracked_stable T).flushed n h.1, { h.2 with recs := h.2.recs }⟩
  reset := by
    rintro d v k ⟨h, hl⟩ hp
    exact ⟨(tracked_stable T).reset h hp, { hl with recs := fun r hr =>
      ⟨(hl.recs r hr).1, fun hfr =>
        .inl (h.mem_stored hp hfr ((hl.recs r hr).2 hfr) (hl.recs r hr).1)⟩ }⟩

theorem abortPhase_stable (T : Watch) (ph : Phase) :
    Stable Fitting (fun _ _ => True) (abortPhase T ph) := by
  have hst := tracked_stable T
  cases ph with
  | idle => exact hst
  | logging w recs => exact logging_stable T w recs
  | plain t ofs data =>
    exact stable_and hst fun _ _ _ => DataSector t ∧
      ∀ x ∈ T.bytes, rangePatch t ofs data x = none
  | undoing u => exact stable_and hst fun _ _ txns => u ∈ txns.map WalTxn.txnId

/-- The next record of a write in progress. -/
theorem Logging.chunk {w : TxnWrite} {recs : List WalRecord}
    (h : Tracked T d v k) (hl : Logging T w recs d k) (hready : Ready k)
    (hc : ChunkOf w (bytesAt (v w.sector) w.offset w.data.length) r) :
    Tracked T d v (Core.push k r) ∧
      Logging T w (recs ++ [{ r with lsn := k.wal.nextLsn }]) d (Core.push k r) := by
  obtain ⟨y, hy, hyt⟩ := mem_map.mp hl.act
  obtain ⟨hpos, hlt, -⟩ := h.log.txns y hy
  have hlog : LogInv d (Core.push k r) := by
    refine h.log.copy hready.room rfl (fun _ => writeOk_chunk hc hl.data hl.range _) ?_ fun _ => ?_
    · rw [hc.txnId, ← hyt]
      exact hlt
    · rw [hc.txnId, ← hyt]
      exact hpos
  refine ⟨h.push hlog ?_ ?_, hl.data, hl.range, by rw [ids_push]; exact hl.act, hl.own,
    hl.other, ?_⟩
  · intro _ ht x hx
    obtain ⟨hold, hsome⟩ := chunk_old hl.data hc hx
    exact ⟨hl.own (hc.txnId.symm.trans ht) x hsome, hold⟩
  · intro _ ht x hx hcov
    obtain ⟨-, hsome⟩ := chunk_old hl.data hc hcov
    rw [hl.other (by rw [← hc.txnId]; exact ht) x hx] at hsome
    exact nomatch hsome
  · intro q hq
    rcases mem_append.mp hq with hq | hq
    · refine ⟨(hl.recs q hq).1, fun hf => inLog_push.mpr (.inl ((hl.recs q hq).2 ?_))⟩
      unfold Fresh at hf ⊢
      rw [nextLsn_push] at hf
      omega
    · rw [mem_singleton.mp hq]
      exact ⟨h.known.2, fun _ => inLog_push.mpr (.inr rfl)⟩

/-- The write reaches the cache. -/
theorem Tracked.logged {w : TxnWrite} {recs : List WalRecord} (h : Tracked T d v k)
    (hl : Logging T w recs d k)
    (hof : ∀ r ∈ recs, ∃ old, old.length = w.data.length ∧ ChunkOf w old r)
    (hall : ∀ x, (w.patch x).isSome → ∃ r ∈ recs, Covers r x) :
    Tracked T d (writeView v w.sector w.offset w.data) k := by
  refine h.of_view fun hf x hx hno => ?_
  rw [dataBytes_writeView v hl.data]
  have hnone : w.patch x = none := by
    by_cases ht : w.txnId = T.id
    · -- a byte the write covers has a record by now
      by_contra hsome
      obtain ⟨r, hr, hcov⟩ := hall x (Option.isSome_iff_ne_none.mpr hsome)
      obtain ⟨old, -, hc⟩ := hof r hr
      exact hno r ⟨(hl.recs r hr).2 hf, hc.type, hc.txnId.trans ht⟩ hcov
    · exact hl.other ht x hx
  rw [show rangePatch w.sector w.offset w.data x = none from hnone]
  rfl

theorem abort_rules (T : Watch) :
    WalRules Fitting (fun _ _ => True) (fun _ k op => Around T k op) (abortPhase T) where
  stable := abortPhase_stable T
  condId _ h := h
  goodId _ h := h
  legal h := h.1.1
  active h := h.1.2
  memory h := h.1.2
  flags _ _ h := { h with log := h.log.of_same rfl rfl rfl rfl rfl }
  begin h hr := h.begun hr
  logStart h _ hG := ⟨h, hG.1.1.1, hG.1.1.2, findTxn_isSome.mp hG.1.2, hG.2.1, hG.2.2,
    nofun⟩
  logChunk h hready hc := h.2.chunk h.1 hready hc
  lastLsn t n h := by
    exact ⟨h.1.of_txns (h.1.log.setLastLsn t n) rfl rfl
      (fun u hu => by rw [setLastLsn_ids] at hu; exact hu),
      { h.2 with act := by rw [setLastLsn_ids]; exact h.2.act, recs := h.2.recs }⟩
  logEnd h hof hall :=
    { h.1.logged h.2 hof hall with log := h.1.log.of_same rfl rfl rfl rfl rfl }
  plainStart h _ hG := ⟨h, hG.1.1.1, hG.2⟩
  plainEnd := by
    rintro d v k t ofs data tag ⟨h, ht, hno⟩
    have hv : Tracked T d (writeView v t ofs data) k := by
      refine h.of_view fun _ x hx _ => ?_
      rw [dataBytes_writeView v ht, hno x hx]
      rfl
    exact { hv with log := h.log.of_same rfl rfl rfl rfl rfl }
  commitMark := by
    intro d v k x h hr hx
    obtain ⟨hpos, hlt, -⟩ := h.log.txns x hx
    exact h.push_mark hr .commit nofun hlt (fun _ => hpos)
  commitReturns := by
    intro d v k t h _ _
    exact h.of_txns (h.log.remove t rfl rfl) rfl rfl (fun u hu => (filter_sublist.map _).subset hu)
  checkpoint := by
    intro d v k h hr
    exact h.push_mark hr .checkpoint nofun h.log.idPos (fun hor => by simp at hor)
  checkpointed h _ _ _ := { h with log := h.log.of_same rfl rfl rfl rfl rfl }
  undoStart h _ _ hx := ⟨h, mem_map.mpr ⟨_, hx, rfl⟩⟩
  undoStep := by
    rintro d v v' k t tag ⟨h, ht⟩ hv
    have hv' : Tracked T d v' k := by
      refine h.of_view fun _ x hx hno => hv x fun r hr => ?_
      by_cases he : t = T.id
      · exact hno r ⟨.inl hr.1, hr.2.1, hr.2.2.trans he⟩
      · exact h.others t ht he r (.inl hr.1) hr.2.1 hr.2.2 x hx
    exact ⟨{ hv' with log := h.log.of_same rfl rfl rfl rfl rfl }, ht⟩
  undoEnd := by
    rintro d v k x ⟨h, -⟩ hr _ hx _ _
    obtain ⟨hpos, hlt, -⟩ := h.log.txns x hx
    have hpush := h.push_mark hr .abort nofun hlt (fun _ => hpos)
    exact hpush.of_txns (hpush.log.remove x.txnId rfl rfl) rfl rfl
      (fun u hu => (filter_sublist.map _).subset hu)

/-! ## The abort itself -/

section Abort

variable {txn : WalTxn} {q : Addr → UInt8} {n : Nat}

/-- While the undo runs, the bytes without a stored record are as they were. -/
def Reverting (T : Watch) (q : Addr → UInt8) (n : Nat) (d v : Disk) (k : Core) : Prop :=
  Tracked T d v k ∧ k.pending = [] ∧ k.wal.nextLsn = n ∧
    ∀ x, (∀ r, WriteOf d T.id r → ¬ Covers r x) → dataBytes v x = q x

/-- What an abort with `next_lsn = n` leaves: a clean cache, the bytes of others
    as they were, its own as they were when it began if the log was fresh. -/
def Reverted (T : Watch) (q : Addr → UInt8) (n : Nat) (d v : Disk) (_ : Core) : Prop :=
  Clean d v ∧ (∀ x, x ∉ T.bytes → dataBytes v x = q x) ∧
    (n ≤ T.first + 65 → ∀ x ∈ T.bytes, dataBytes v x = T.base x)

theorem reverting_stable : Stable Fitting (fun _ _ => True) (Reverting T q n) where
  log h := h.1.log
  good _ := trivial
  store := by
    rintro d v k p ps ⟨-, hpend, -⟩ hp
    rw [hpend] at hp
    exact nomatch hp
  back := by
    rintro d v k s ⟨h, hp, hn, hv⟩ hs hC
    refine ⟨(tracked_stable T).back h hs hC, hp, hn, fun x hx => hv x fun r hr => hx r ?_⟩
    exact (writeOf_sameLog (storedLog_write_data d hs _)).mpr hr
  view h hv := ⟨(tracked_stable T).view h.1 hv, h.2.1, h.2.2.1, fun x hx =>
    (congrFun (dataBytes_congr hv) x).trans (h.2.2.2 x hx)⟩
  flushed n h := ⟨(tracked_stable T).flushed n h.1, h.2⟩
  reset h hp := ⟨(tracked_stable T).reset h.1 hp, rfl, h.2.2⟩

theorem reverting_undoStep (hid : txn.txnId = T.id) : UndoStep txn (Reverting T q n) := by
  rintro d v v' k tag ⟨h, hp, hn, hv⟩ hstep
  rw [hid] at hstep
  have hv' : Tracked T d v' k := h.of_view fun _ x _ hno => hstep x fun r hr =>
    hno r ⟨.inl hr.1, hr.2⟩
  exact ⟨{ hv' with log := h.log.of_same rfl rfl rfl rfl rfl }, hp, hn,
    fun x hx => (hstep x hx).trans (hv x hx)⟩

/-- **RESTORED**: when all its records were found and undone, the bytes of the
    transaction are what they were. -/
theorem reverting_abortEnd (hid : txn.txnId = T.id) :
    AbortEnd txn (Reverting T q n) (Reverted T q n) := by
  rintro d v k ⟨h, hp, rfl, hv⟩ - - hx hclean hres
  rw [hid] at hres
  have hact : Active T k := mem_map.mpr ⟨txn, hx, hid⟩
  refine ⟨hclean, fun x hx => hv x fun r hr hc => ?_, fun hfresh x hx => ?_⟩
  · exact hx (h.cover r ⟨.inl hr.1, hr.2⟩ x hc)
  have hmine : ∀ {r}, Mine T d k r → WriteOf d T.id r :=
    fun hr => ⟨h.mem_stored hp hfresh hr.1 (h.after _ hr), hr.2⟩
  by_cases hex : ∃ r, WriteOf d T.id r ∧ Covers r x
  · obtain ⟨r, ⟨hr, hc⟩, hmin⟩ := LogSig.exists_min_lsn (L := walSig) hex
    have hbase := h.oldest hfresh hact x hx r ⟨.inl hr.1, hr.2⟩ hc
      fun q hq hqc => hmin q ⟨hmine hq, hqc⟩
    have hnow := hres x r hr hc fun q hq hqc => hmin q ⟨hq, hqc⟩
    exact Option.some.inj (hnow.symm.trans hbase)
  · exact h.clean hfresh hact x hx fun r hr hc => hex ⟨r, hmine hr, hc⟩

theorem Tracked.walTxnAbort (h : Driven Fitting (fun _ _ => True) (Tracked T) s)
    (hfind : findTxn s.core.wal T.id = some txn) :
    Driven Fitting (fun _ _ => True)
      (Reverted T (dataBytes (cacheView s.bc)) s.core.wal.nextLsn)
      (s.walTxnAbort T.id true true) := by
  have hid := (findTxn_some hfind).2
  have hst := stable_and (tracked_stable T) fun bytes lsn _ =>
    bytes = dataBytes (cacheView s.bc) ∧ lsn = s.core.wal.nextLsn
  refine Driven.walTxnAbort hst reverting_stable ?_ (reverting_undoStep hid) ?_
    (reverting_abortEnd hid) (h.phase fun hp => ⟨hp, rfl, rfl⟩) hfind
  · intro d v k hp _ hpend _
    exact ⟨hp.1, hpend, hp.2.2, fun x _ => congrFun hp.2.1 x⟩
  · rintro d v v' k ⟨hclean, hout, hin⟩ hv
    refine ⟨fun t ht => (hclean t ht).trans (hv t ht).symm, ?_, ?_⟩ <;>
    · rw [dataBytes_congr hv]
      assumption

end Abort

/-! ## Records that fit

What is in the buffer when an abort starts is what it stores. -/

/-- All records stored so far fit their fields, and so do those in the buffer. -/
def Fitted (s : Sys) : Prop :=
  (∀ e ∈ s.events, Fitting e) ∧ ∀ r ∈ s.core.wal.logBuffer, Fits r

theorem Fitted.storeRecords : ∀ (rs : List WalRecord) (s : Sys), (∀ r ∈ rs, Fits r) →
    Fitted s → Fitted (s.storeRecords rs) := by
  intro rs
  induction rs with
  | nil => intro s _ h; exact h
  | cons r rs ih =>
    intro s hrs h
    obtain ⟨hr, hrs⟩ := forall_mem_cons.mp hrs
    exact ih _ hrs ⟨forall_mem_append.mpr
      ⟨h.1, forall_mem_singleton.mpr fun _ => ⟨hr, trivial⟩⟩, h.2⟩

theorem Fitted.walFlush (h : Fitted s) (upTo : Nat) : Fitted (s.walFlush upTo) := by
  unfold Sys.walFlush
  rcases walFlush_cases s.core.wal upTo with ⟨hw, -⟩ | ⟨hw, -, -⟩
  · rw [hw]
    exact h
  · rw [hw]
    exact ⟨(Fitted.storeRecords _ s h.2 h).1, h.2⟩

theorem Fitted.append (h : Fitted s) (r : WalRecord) :
    ∀ e ∈ (s.appendRecord r).events, Fitting e := by
  show ∀ e ∈ (s.storeRecords (walAppendRecord s.core.wal r).1).events, Fitting e
  unfold walAppendRecord
  split
  · rcases walFlush_cases s.core.wal (s.core.wal.nextLsn - 1) with ⟨hw, -⟩ | ⟨hw, -, -⟩ <;> rw [hw]
    · exact h.1
    · exact (Fitted.storeRecords _ s h.2 h).1
  · exact h.1

theorem Fitted.call (h : Fitted s) (op : CacheOp) : Fitted (s.call op).2 := by
  have hback : ∀ (ws : List (Sector × Block)) (d : Disk) (k : Core),
      ∀ e ∈ writeBackEvents d k ws, Fitting e := by
    intro ws
    induction ws with
    | nil => intro d k e he; exact nomatch he
    | cons w ws ih =>
      intro d k e he
      rcases mem_cons.mp he with rfl | he
      · exact trivial
      · exact ih _ _ e he
  obtain ⟨tag, hcore⟩ := call_core s op
  refine ⟨?_, by rw [hcore]; exact h.2⟩
  unfold Sys.call
  cases cacheStep s.bc op with
  | none => exact h.1
  | some out =>
    exact forall_mem_append.mpr ⟨h.1, hback _ _ _⟩

theorem Fitted.undoLsns : ∀ (L : List Nat) (s : Sys), Fitted s →
    Fitted (L.foldl Sys.undoLsn s) := by
  intro L
  induction L with
  | nil => intro s h; exact h
  | cons l L ih =>
    intro s h
    refine ih _ ?_
    unfold Sys.undoLsn
    cases walReadRecord s.bc.disk l with
    | none => exact h
    | some r =>
      have hcall := h.call (.write r.sector r.offset (payloadBytes r.oldData r.length))
      exact ⟨hcall.1, hcall.2⟩

theorem Fitted.finishAbort (h : Fitted s) (t : Nat) : ∀ e ∈ (s.finishAbort t).events, Fitting e :=
  (h.call .flush).append (markRecord .abort t)

theorem Fitted.walTxnAbort (h : Fitted s) (t : Nat) :
    ∀ e ∈ (s.walTxnAbort t true true).events, Fitting e := by
  unfold Sys.walTxnAbort
  cases findTxn s.core.wal t with
  | none => exact h.1
  | some txn =>
    have hundo : Fitted ((s.walFlush s.core.wal.nextLsn).undoTxn txn s.core.wal.nextLsn) :=
      Fitted.undoLsns _ _ (h.walFlush _)
    exact hundo.finishAbort t

/-! ## From begin to abort -/

/-- The transaction that `wal_txn_begin` is about to make. -/
def watch (s : Sys) (bytes : Set Addr) : Watch where
  id := s.core.wal.nextTxnId
  first := s.core.wal.nextLsn
  bytes := bytes
  base := dataBytes (cacheView s.bc)

/-- No active transaction has a record about the bytes. -/
def Apart (bytes : Set Addr) (d : Disk) (k : Core) : Prop :=
  ∀ t ∈ k.wal.activeTxns.map WalTxn.txnId, ∀ r, InLog d k r → r.type = .write → r.txnId = t →
    ∀ x ∈ bytes, ¬ Covers r x

/-- The state right before the begin. -/
structure Waiting (T : Watch) (d v : Disk) (k : Core) : Prop where
  log : LogInv d k
  id : k.wal.nextTxnId = T.id
  lsn : k.wal.nextLsn = T.first
  base : dataBytes v = T.base
  apart : Apart T.bytes d k

theorem waiting_stable (T : Watch) : Stable Fitting (fun _ _ => True) (Waiting T) where
  log h := h.log
  good _ := trivial
  store := by
    intro d v k p ps h hp hC
    have hf : Fits p := (hC (h.log.head_lt hp)).1
    exact ⟨h.log.store hp hf, h.id, h.lsn, h.base, fun t ht r hr =>
      h.apart t ht r (h.log.inLog_store hp hf hr)⟩
  back := by
    intro d v k s h hs _
    exact ⟨h.log.writeBack hs _, h.id, h.lsn, h.base, fun t ht r hr =>
      h.apart t ht r ((inLog_writeBack hs).mp hr)⟩
  view h hv := { h with base := (dataBytes_congr hv).trans h.base }
  flushed _ h := { h with log := h.log.of_same rfl rfl rfl rfl rfl }
  reset h hp := ⟨h.log.reset hp, h.id, h.lsn, h.base, fun t ht r hr =>
    h.apart t ht r (.inl (hr.resolve_right nofun))⟩

theorem Waiting.begun (h : Waiting T d v k) (hr : Ready k) :
    Tracked T d v { k with wal := begun k.wal } := by
  -- nothing in the log has the new number
  have hnone : ∀ r, ¬ Mine T d { k with wal := MavSystem.begun k.wal } r := by
    rintro r ⟨hr', hw, ht⟩
    have hlt := (h.log.txnIds r (inLog_begun hr' hw)).1
    rw [h.id, ht] at hlt
    exact Nat.lt_irrefl _ hlt
  refine ⟨h.log.begun hr.room, ⟨?_, ?_⟩, fun r hr' => absurd hr' (hnone r),
    fun r hr' => absurd hr' (hnone r), ?_, ?_, fun _ _ x _ r hr' => absurd hr' (hnone r),
    fun _ _ x _ _ => congrFun h.base x⟩
  · rw [nextTxnId_begun, ← h.id]
    exact Nat.lt_succ_self _
  · rw [nextLsn_begun, ← h.lsn]
    exact Nat.lt_succ_self _
  · intro t ht hne r hr' hw hrt
    rcases ids_begun ht with ht | rfl
    · exact h.apart t ht r (inLog_begun hr' hw) hw hrt
    · exact absurd h.id hne
  · intro _ r _ hlt hle
    have htop := h.log.top
    have hlsn := h.lsn
    have hle' : r.lsn ≤ k.storedLsn := hle
    omega

/-- **ABORT**: a transaction begun in the state `s0` of a run, the calls `ops1`
    in which it writes `bytes` and everybody else other bytes, and its abort in
    `s2`, with all its records still in the ring. The bytes are as they were
    when it began, in the cache and on disk, and no other data byte changes. -/
theorem abort_restores (c : BufferCache) {w : WalManager} (hw : Idle w)
    (hlog : LogInv c.disk (mounted c w).core) {ops0 ops1 : List Op} {bytes : Set Addr}
    {s0 s2 : Sys} (hs0 : s0 = (mounted c w).run ops0)
    (hs2 : s2 = (s0.walTxnBegin true).run ops1)
    (h0 : Guarded sysStep (fun s op => Regular s.core op) (mounted c w) ops0)
    (hapart : Apart bytes s0.bc.disk s0.core)
    (h1 : Guarded sysStep (fun s op => Around (watch s0 bytes) s.core op)
      (s0.walTxnBegin true) ops1)
    (hact : (findTxn s2.core.wal s0.core.wal.nextTxnId).isSome)
    (hroom : s2.core.wal.nextLsn ≤ s0.core.wal.nextLsn + 65)
    (hfit : Fitted s2) :
    ∃ s3, s2.walTxnAbort s0.core.wal.nextTxnId true true = s3 ∧ s3.panicked = false ∧
      (∀ x ∈ bytes, dataBytes (cacheView s3.bc) x = dataBytes (cacheView s0.bc) x) ∧
      (∀ x, x ∉ bytes → dataBytes (cacheView s3.bc) x = dataBytes (cacheView s2.bc) x) ∧
      dataBytes s3.bc.disk = dataBytes (cacheView s3.bc) := by
  obtain ⟨txn, htxn⟩ := Option.isSome_iff_exists.mp hact
  have hstart : Driven Fitting (Readable fun _ => True)
      (entriesPhase (fun _ => True) .idle) (mounted c w) :=
    driven_mounted c hw (entriesPhase_stable _ .idle).ofData ⟨hlog, fun _ _ => trivial⟩
  have hrun0 := (entries_rules fun _ => True).run hstart h0
  rw [← hs0] at hrun0
  have hwait : Driven Fitting (fun _ _ => True) (Waiting (watch s0 bytes)) s0 := by
    refine ⟨hrun0.settled, fun hC => ?_⟩
    obtain ⟨hg, hp, -⟩ := hrun0.safe hC
    exact ⟨hg, ⟨hp.log, rfl, rfl, rfl, hapart⟩, fun _ _ => trivial⟩
  have hbegun : Driven Fitting (fun _ _ => True) (abortPhase (watch s0 bytes) .idle)
      (s0.walTxnBegin true) :=
    ⟨hwait.settled.begin true, safe_view (abortPhase_stable _ .idle).ofData
      (hwait.safe.begin _ (waiting_stable _) (fun _ h => h) (fun _ _ => trivial) hwait.settled
        fun _ _ hp hr => hp.begun hr)⟩
  have hrun1 := (abort_rules (watch s0 bytes)).run hbegun h1
  rw [← hs2] at hrun1
  obtain ⟨hg, ⟨hclean, hout, hin⟩, -⟩ := (Tracked.walTxnAbort hrun1 htxn).safe (hfit.walTxnAbort _)
  exact ⟨_, rfl, hg.calm, hin hroom, hout, dataBytes_congr hclean⟩

/-! ## A short transaction, and one longer than the ring -/

instance (k : Core) (op : Op) : Decidable (Regular k op) := by
  refine op.casesOn ?_ ?_ ?_ ?_ ?_ ?_ ?_ ?_ ?_ <;> intros <;> unfold Regular <;> infer_instance

/-- The system at mount, on a device of zeros. -/
def blankSys : Sys := mounted blankCache (freshManager 1 0 1)

/-- A transaction that writes one byte and aborts. -/
theorem abort_restores_byte :
    ∃ s3, ((blankSys.walTxnBegin true).run [.write ⟨1, 70, 0, [7]⟩]).walTxnAbort 1 true true = s3 ∧
      dataBytes (cacheView s3.bc) (70, 0) = dataBytes (cacheView blankSys.bc) (70, 0) := by
  have hidle : Idle (freshManager 1 0 1) := MavWriteAhead.idle_freshManager 0 1 (by decide)
  have hguard : Guarded sysStep (fun s op => Around (watch blankSys {(70, 0)}) s.core op)
      (blankSys.walTxnBegin true) [.write ⟨1, 70, 0, [7]⟩] := by
    refine ⟨⟨by decide +kernel, fun _ x hx => ?_, fun hne => absurd rfl hne⟩, fun _ _ => trivial⟩
    obtain ⟨hsec, -, hlt⟩ := (rangePatch_isSome ..).mp hx
    have hzero : x.2 = 0 := Fin.ext (Nat.lt_one_iff.mp hlt)
    exact Prod.ext hsec hzero
  have hnone : Guarded sysStep (fun s op => Regular s.core op)
      (mounted blankCache (freshManager 1 0 1)) [] := trivial
  have hapart : Apart {(70, 0)} blankSys.bc.disk blankSys.core := nofun
  obtain ⟨s3, hs3, -, hin, -⟩ := abort_restores blankCache hidle
    (mounted_logInv _ hidle storedLog_blankDisk) rfl rfl hnone hapart hguard
    (by decide +kernel) (by decide +kernel) ⟨by decide +kernel, by decide +kernel⟩
  exact ⟨s3, hs3, hin (70, 0) rfl⟩

/-- Transaction 1 writes byte 0 of sector 70, and then byte 0 of sector 71 over and over. -/
def longTxn : List Op :=
  .begin true :: .write ⟨1, 70, 0, [7]⟩ :: List.replicate 72 (.write ⟨1, 71, 0, [1]⟩)

theorem longTxn_regular :
    Guarded sysStep (fun s op => Regular s.core op) blankSys longTxn := by
  decide +kernel

/-- The state before the abort: one record about the byte was made, with LSN 2,
    and 72 records later it is gone. -/
theorem longTxn_tracked : Driven Fitting (fun _ _ => True)
    (Tracked ⟨1, 0, { x | x ≠ (70, 0) }, fun _ => 0⟩) (blankSys.run longTxn) := by
  have hstore : ∀ e ∈ (blankSys.run longTxn).events,
      Storing (fun r => Covers r (70, 0) → r.lsn = 2) e := by decide +kernel
  have hidle : Idle (freshManager 1 0 1) := MavWriteAhead.idle_freshManager 0 1 (by decide)
  have hstart : Driven (Storing fun r => Covers r (70, 0) → r.lsn = 2)
      (Readable fun r => Covers r (70, 0) → r.lsn = 2)
      (entriesPhase (fun r => Covers r (70, 0) → r.lsn = 2) .idle) blankSys :=
    driven_mounted blankCache hidle (entriesPhase_stable _ .idle).ofData
      (entries_blank _ hidle storedLog_blankDisk)
  have hrun := (entries_rules _).run hstart longTxn_regular
  obtain ⟨hg, hp, -⟩ := hrun.safe hstore
  refine ⟨hrun.settled, fun _ => ⟨hg, ?_, fun _ _ => trivial⟩⟩
  generalize hs : blankSys.run longTxn = s at hp
  obtain ⟨hlsn, hst, hids, hnext, hbuf⟩ : s.core.wal.nextLsn = 75 ∧ s.core.storedLsn = 72 ∧
      s.core.wal.activeTxns.map WalTxn.txnId = [1] ∧ s.core.wal.nextTxnId = 2 ∧
      ∀ r ∈ s.core.wal.logBuffer, ¬ Covers r (70, 0) := by
    rw [← hs]
    decide +kernel
  have hstale : ∀ {P : Prop}, Fresh ⟨1, 0, { x | x ≠ (70, 0) }, fun _ => 0⟩ s.core → P := by
    intro P hf
    exact absurd (show s.core.wal.nextLsn ≤ 0 + 65 from hf) (by rw [hlsn]; decide)
  refine ⟨hp.log, by rw [hnext, hlsn]; decide, fun r hr => hp.log.lsn_pos hr.1, ?_, ?_,
    fun hf => hstale hf, fun hf => hstale hf, fun hf => hstale hf⟩
  · rintro r ⟨hr | hr, -, -⟩ x hx rfl
    · have hring := (hp.log.ring r hr).2.2
      have htwo := hp.all r hr hx
      omega
    · exact hbuf r hr hx
  · intro t ht hne
    rw [hids] at ht
    exact absurd (mem_singleton.mp ht) hne

/-- After the abort the byte still has the value the transaction wrote. -/
theorem long_abort_keeps_byte :
    Guarded sysStep (fun s op => Regular s.core op) blankSys longTxn ∧
      dataBytes (cacheView blankSys.bc) (70, 0) = 0 ∧
      dataBytes (cacheView ((blankSys.run longTxn).walTxnAbort 1 true true).bc) (70, 0) = 7 := by
  refine ⟨longTxn_regular, by decide +kernel, ?_⟩
  have hfit : Fitted (blankSys.run longTxn) := ⟨by decide +kernel, by decide +kernel⟩
  obtain ⟨txn, htxn⟩ : ∃ txn, findTxn (blankSys.run longTxn).core.wal 1 = some txn :=
    Option.isSome_iff_exists.mp (by decide +kernel)
  obtain ⟨-, ⟨-, hout, -⟩, -⟩ := (Tracked.walTxnAbort longTxn_tracked htxn).safe
    (hfit.walTxnAbort 1)
  rw [hout (70, 0) (fun hne => hne rfl)]
  decide +kernel

end MavAbort
