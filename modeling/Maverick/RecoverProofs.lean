import Maverick.LogProofs

/-! # Recovery — analysis, redo, undo

`wal_recover` scans the 64 log sectors three times. Analysis collects the transactions it sees and
whether a `WAL_COMMIT` or `WAL_ABORT` of theirs is in the log. Redo copies the new bytes of every
`WAL_WRITE` of a committed transaction, in slot order. Undo collects the writes of the transactions
with neither, sorts them by LSN with an exchange sort, newest first, and copies their old bytes.

The result says what every byte of the device holds afterwards: the old byte of the oldest loser
that covers it, else the new byte of the winner in the last slot, else what was there. -/

namespace MavRecover

open MavBlock MavField MavRecord MavLog MavOverride List

/-- The raw device, with the ghost list of the writes issued to it. -/
structure Device where
  disk : Disk
  writes : List (Sector × Block)

/-- `block_write`. -/
def Device.write (v : Device) (s : Sector) (b : Block) : Device :=
  { disk := blockWrite v.disk s b, writes := v.writes ++ [(s, b)] }

/-- The record in a log slot, if its checksum matches. -/
def slotRecord (d : Disk) (i : Nat) : Option WalRecord :=
  if checksumOk (d (walLogStartSector + i)) then
    some (recordOf (d (walLogStartSector + i)))
  else none

/-! ## Analysis -/

/-- One entry of `seen_txns`, `txn_committed` and `txn_aborted`. -/
structure SeenTxn where
  txnId : Nat
  committed : Bool
  aborted : Bool

/-- What the scan of the log has found. -/
structure Analysis where
  seenTxns : List SeenTxn
  maxLsn : Nat

def maxTxns : Nat := 256

/-- Find the transaction or add it. -/
def trackTxn (seen : List SeenTxn) (txnId : Nat) : List SeenTxn :=
  if seen.any (fun e => e.txnId == txnId) then seen
  else if seen.length < maxTxns ∧ txnId ≠ 0 then seen ++ [⟨txnId, false, false⟩]
  else seen

/-- Set the flag the record's type asks for. -/
def SeenTxn.mark (e : SeenTxn) (t : RecordType) : SeenTxn :=
  if t = .commit then { e with committed := true }
  else if t = .abort then { e with aborted := true }
  else e

/-- One valid record of the analysis scan. -/
def Analysis.note (a : Analysis) (r : WalRecord) : Analysis where
  maxLsn := if a.maxLsn < r.lsn then r.lsn else a.maxLsn
  seenTxns := (trackTxn a.seenTxns r.txnId).map fun e =>
    if e.txnId = r.txnId then e.mark r.type else e

/-- One turn of the analysis loop. -/
def analyzeSlot (d : Disk) (a : Analysis) (i : Nat) : Analysis :=
  match slotRecord d i with
  | none => a
  | some r => if r.lsn = 0 then a else a.note r

/-- Phase 1 of `wal_recover`. -/
def walAnalyze (d : Disk) : Analysis :=
  (List.range walLogSectors).foldl (analyzeSlot d) ⟨[], 0⟩

def Analysis.committedTxns (a : Analysis) : List Nat :=
  (a.seenTxns.filter fun e => e.committed).map SeenTxn.txnId

def Analysis.uncommittedTxns (a : Analysis) : List Nat :=
  (a.seenTxns.filter fun e => !e.committed && !e.aborted).map SeenTxn.txnId

/-! ## Redo -/

/-- Read the record's sector, copy `data` to the record's offset, write it back. -/
def copyToSector (v : Device) (r : WalRecord) (data : List UInt8) : Device :=
  v.write r.sector (memcpyInto (v.disk r.sector) r.offset data)

/-- The record of a slot, if it is a `WAL_WRITE` of one of the transactions:
    the tests that open the body of the redo and of the undo loop. -/
def writeOf (txns : List Nat) (d : Disk) (i : Nat) : Option WalRecord :=
  match slotRecord d i with
  | none => none
  | some r => if r.type = .write ∧ r.txnId ∈ txns then some r else none

/-- One turn of the redo loop. -/
def redoSlot (committed : List Nat) (v : Device) (i : Nat) : Device :=
  match writeOf committed v.disk i with
  | none => v
  | some r => copyToSector v r (payloadBytes r.newData r.length)

/-- Phase 2 of `wal_recover`. -/
def walRedo (committed : List Nat) (v : Device) : Device :=
  (List.range walLogSectors).foldl (redoSlot committed) v

/-! ## Undo -/

def maxUndo : Nat := 512

/-- The array `undo_records`; an entry keeps the sector, range, old bytes and LSN of its record. -/
def undoRecords (uncommitted : List Nat) (d : Disk) : List WalRecord :=
  ((List.range walLogSectors).filterMap (writeOf uncommitted d)).take maxUndo

/-- The inner loop of the sort: carry the entry at `i` along the rest,
    exchanging it for every entry with a larger LSN. -/
def exchangePass (cur : WalRecord) : List WalRecord → WalRecord × List WalRecord
  | [] => (cur, [])
  | y :: ys =>
    if cur.lsn < y.lsn then
      ((exchangePass y ys).1, cur :: (exchangePass y ys).2)
    else ((exchangePass cur ys).1, y :: (exchangePass cur ys).2)

/-- The outer loop, `n` entries to go. -/
def exchangeSort : Nat → List WalRecord → List WalRecord
  | 0, rs => rs
  | _ + 1, [] => []
  | n + 1, r :: rs => (exchangePass r rs).1 :: exchangeSort n (exchangePass r rs).2

/-- Copy the old bytes of one entry back. -/
def undoEntry (v : Device) (r : WalRecord) : Device :=
  copyToSector v r (payloadBytes r.oldData r.length)

/-- Phase 3 of `wal_recover`, once the array is allocated. -/
def walUndo (uncommitted : List Nat) (v : Device) : Device :=
  let entries := undoRecords uncommitted v.disk
  (exchangeSort entries.length entries).foldl undoEntry v

/-- `next_txn_id` after recovery: one past the largest transaction seen. -/
def nextTxnIdAfter (a : Analysis) : Nat :=
  a.seenTxns.foldl (fun n e => if n ≤ e.txnId then e.txnId + 1 else n) 1

/-- `wal_recover`. `mallocOk` is the outcome of the allocation of
    `undo_records`: without it nothing is undone. -/
def walRecover (mallocOk : Bool) (v : Device) (w : WalManager) : Device × WalManager :=
  let a := walAnalyze v.disk
  let v := walRedo a.committedTxns v
  let v := if mallocOk then walUndo a.uncommittedTxns v else v
  (v, { w with
    nextLsn := a.maxLsn + 1
    flushedLsn := a.maxLsn
    nextTxnId := nextTxnIdAfter a })

/-! ## What analysis finds -/

/-- The valid records of the log, in slot order. -/
def storedLog (d : Disk) : List WalRecord :=
  (List.range walLogSectors).filterMap (slotRecord d)

/-- Those that analysis takes note of. -/
def notedLog (d : Disk) : List WalRecord :=
  (storedLog d).filter fun r => r.lsn ≠ 0

variable {d d' : Disk} {r : WalRecord} {a : Addr} {i : Nat} {txns : List Nat} {C : Addr → Prop}
  {v : Device}

theorem mem_storedLog : r ∈ storedLog d ↔ ∃ i, i < walLogSectors ∧ slotRecord d i = some r := by
  simp only [storedLog, mem_filterMap, mem_range]

theorem mem_notedLog : r ∈ notedLog d ↔ r ∈ storedLog d ∧ r.lsn ≠ 0 := by
  show r ∈ (storedLog d).filter (fun r => r.lsn ≠ 0) ↔ _
  rw [mem_filter, decide_eq_true_iff]

theorem length_notedLog_le (d : Disk) : (notedLog d).length ≤ walLogSectors := by
  refine Nat.le_trans (length_filter_le ..) ?_
  refine Nat.le_trans (length_filterMap_le ..) ?_
  rw [length_range]

private theorem foldl_analyzeSlot (d : Disk) (is : List Nat) (a : Analysis) :
    is.foldl (analyzeSlot d) a
      = ((is.filterMap (slotRecord d)).filter fun r => r.lsn ≠ 0).foldl Analysis.note a := by
  induction is generalizing a with
  | nil => rfl
  | cons i is ih =>
    rw [foldl_cons, ih]
    cases hr : slotRecord d i with
    | none =>
      rw [filterMap_cons_none hr]
      simp only [analyzeSlot, hr]
    | some r =>
      rw [filterMap_cons_some hr]
      simp only [analyzeSlot, hr]
      by_cases hz : r.lsn = 0
      · rw [if_pos hz, filter_cons_of_neg (by simp [hz])]
      · rw [if_neg hz, filter_cons_of_pos (by simp [hz]), foldl_cons]

theorem walAnalyze_eq (d : Disk) :
    walAnalyze d = (notedLog d).foldl Analysis.note ⟨[], 0⟩ :=
  foldl_analyzeSlot d _ _

/-- An entry after the record `r`, which marks the entry of its transaction. -/
theorem SeenTxn.marked (e : SeenTxn) (r : WalRecord) :
    (if e.txnId = r.txnId then e.mark r.type else e).txnId = e.txnId ∧
      ((if e.txnId = r.txnId then e.mark r.type else e).committed = true ↔
        e.committed = true ∨ (r.txnId = e.txnId ∧ r.type = .commit)) ∧
      ((if e.txnId = r.txnId then e.mark r.type else e).aborted = true ↔
        e.aborted = true ∨ (r.txnId = e.txnId ∧ r.type = .abort)) := by
  split
  · rename_i hid
    cases r.type <;> simp [SeenTxn.mark, hid]
  · rename_i hid
    simp only [Ne.symm hid, false_and, or_false, and_self]

/-- The analysis of the records `rs` is right about their transactions. -/
structure Analysed (rs : List WalRecord) (a : Analysis) : Prop where
  known : ∀ r ∈ rs, r.txnId ≠ 0 → ∃ e ∈ a.seenTxns, e.txnId = r.txnId
  real : ∀ e ∈ a.seenTxns, e.txnId ≠ 0 ∧ ∃ r ∈ rs, r.txnId = e.txnId
  committed : ∀ e ∈ a.seenTxns,
    e.committed = true ↔ ∃ r ∈ rs, r.txnId = e.txnId ∧ r.type = .commit
  aborted : ∀ e ∈ a.seenTxns,
    e.aborted = true ↔ ∃ r ∈ rs, r.txnId = e.txnId ∧ r.type = .abort
  short : a.seenTxns.length ≤ rs.length
  max : a.maxLsn = maxLsn 0 rs

theorem mem_trackTxn {seen : List SeenTxn} {id : Nat} (hlen : seen.length < maxTxns)
    (e : SeenTxn) :
    e ∈ trackTxn seen id ↔
      e ∈ seen ∨ (e = ⟨id, false, false⟩ ∧ id ≠ 0 ∧ ∀ e' ∈ seen, e'.txnId ≠ id) := by
  unfold trackTxn
  by_cases hany : seen.any (fun e => e.txnId == id) = true
  · rw [if_pos hany]
    obtain ⟨e', he', hid⟩ := any_eq_true.mp hany
    exact (or_iff_left fun h => h.2.2 e' he' (eq_of_beq hid)).symm
  rw [if_neg hany]
  have hno : ∀ e' ∈ seen, e'.txnId ≠ id := by
    intro e' he' hid
    exact hany (any_eq_true.mpr ⟨e', he', beq_iff_eq.mpr hid⟩)
  by_cases hz : id = 0
  · rw [if_neg (fun h => h.2 hz)]
    exact (or_iff_left fun h => h.2.1 hz).symm
  · rw [if_pos ⟨hlen, hz⟩, mem_append, mem_singleton]
    exact or_congr_right ⟨fun h => ⟨h, hz, hno⟩, And.left⟩

theorem length_trackTxn_le (seen : List SeenTxn) (id : Nat) :
    (trackTxn seen id).length ≤ seen.length + 1 := by
  unfold trackTxn
  split
  · omega
  · split
    · rw [length_append]; exact Nat.le_refl _
    · omega

/-- A flag of an entry after one more record `r`: it was set, or `r` is of that
    transaction and type. -/
private theorem flag_append {rs : List WalRecord} {id : Nat} {t : RecordType} {flag : Prop}
    (h : flag ↔ ∃ q ∈ rs, q.txnId = id ∧ q.type = t) :
    (flag ∨ (r.txnId = id ∧ r.type = t)) ↔
      ∃ q ∈ rs ++ [r], q.txnId = id ∧ q.type = t := by
  rw [h]
  simp only [mem_append, mem_singleton, or_and_right, exists_or, exists_eq_left]

theorem Analysed.note {rs : List WalRecord} {a : Analysis} (h : Analysed rs a)
    (hlen : rs.length < maxTxns) (r : WalRecord) : Analysed (rs ++ [r]) (a.note r) := by
  have hshort : a.seenTxns.length < maxTxns := Nat.lt_of_le_of_lt h.short hlen
  -- the table before the flags are set
  have htrack : ∀ e ∈ trackTxn a.seenTxns r.txnId,
      (e.txnId ≠ 0 ∧ ∃ q ∈ rs ++ [r], q.txnId = e.txnId) ∧
      (e.committed = true ↔ ∃ q ∈ rs, q.txnId = e.txnId ∧ q.type = .commit) ∧
      (e.aborted = true ↔ ∃ q ∈ rs, q.txnId = e.txnId ∧ q.type = .abort) := by
    intro e he
    rcases (mem_trackTxn hshort e).mp he with he | ⟨rfl, hz, hno⟩
    · obtain ⟨hz, q, hq, heq⟩ := h.real e he
      exact ⟨⟨hz, q, mem_append_left _ hq, heq⟩, h.committed e he, h.aborted e he⟩
    · -- a fresh entry belongs to a transaction no earlier record names
      have hfresh : ∀ t, false = true ↔ ∃ q ∈ rs, q.txnId = r.txnId ∧ q.type = t := by
        refine fun t => ⟨nofun, ?_⟩
        rintro ⟨q, hq, hid, -⟩
        obtain ⟨e, he, heq⟩ := h.known q hq (by rw [hid]; exact hz)
        exact absurd (heq.trans hid) (hno e he)
      exact ⟨⟨hz, r, mem_append_right _ (mem_singleton.mpr rfl), rfl⟩, hfresh _, hfresh _⟩
  have hknown : ∀ q ∈ rs ++ [r], q.txnId ≠ 0 →
      ∃ e ∈ trackTxn a.seenTxns r.txnId, e.txnId = q.txnId := by
    intro q hq hz
    by_cases hex : ∃ e ∈ a.seenTxns, e.txnId = q.txnId
    · obtain ⟨e, he, heq⟩ := hex
      exact ⟨e, (mem_trackTxn hshort e).mpr (.inl he), heq⟩
    rcases mem_append.mp hq with hq | hq
    · exact absurd (h.known q hq hz) hex
    · rw [mem_singleton.mp hq] at hz hex ⊢
      refine ⟨⟨r.txnId, false, false⟩, (mem_trackTxn hshort _).mpr (.inr ⟨rfl, hz, ?_⟩), rfl⟩
      exact fun e he heq => hex ⟨e, he, heq⟩
  refine ⟨fun q hq hz => ?_, fun e' he' => ?_, fun e' he' => ?_, fun e' he' => ?_, ?_, ?_⟩
  · obtain ⟨e, he, heq⟩ := hknown q hq hz
    exact ⟨_, mem_map.mpr ⟨e, he, rfl⟩, (e.marked r).1.trans heq⟩
  · obtain ⟨e, he, rfl⟩ := mem_map.mp he'
    rw [(e.marked r).1]
    exact (htrack e he).1
  · obtain ⟨e, he, rfl⟩ := mem_map.mp he'
    rw [(e.marked r).1, (e.marked r).2.1]
    exact flag_append (htrack e he).2.1
  · obtain ⟨e, he, rfl⟩ := mem_map.mp he'
    rw [(e.marked r).1, (e.marked r).2.2]
    exact flag_append (htrack e he).2.2
  · show ((trackTxn a.seenTxns r.txnId).map _).length ≤ (rs ++ [r]).length
    rw [length_map, length_append]
    exact Nat.le_trans (length_trackTxn_le ..) (Nat.succ_le_succ h.short)
  · show (if a.maxLsn < r.lsn then r.lsn else a.maxLsn) = maxLsn 0 (rs ++ [r])
    rw [h.max]
    show _ = List.foldl _ 0 (rs ++ [r])
    rw [foldl_append]
    rfl

theorem analysed_foldl : ∀ (rs : List WalRecord), rs.length ≤ maxTxns →
    Analysed rs (rs.foldl Analysis.note ⟨[], 0⟩) := by
  intro rs
  induction rs using List.reverseRecOn with
  | nil =>
    intro _
    exact ⟨nofun, nofun, nofun, nofun, Nat.le_refl 0, rfl⟩
  | append_singleton rs r ih =>
    intro hlen
    rw [length_append] at hlen
    have hlen' : rs.length < maxTxns := hlen
    rw [foldl_append]
    exact (ih (Nat.le_of_lt hlen')).note hlen' r

/-- Analysis is right about the log on disk: 64 slots never fill its tables. -/
theorem walAnalyze_analysed (d : Disk) : Analysed (notedLog d) (walAnalyze d) := by
  rw [walAnalyze_eq]
  exact analysed_foldl _ (Nat.le_trans (length_notedLog_le d) (by decide))

/-- A transaction with a commit record in the log. -/
def WinnerIn (d : Disk) (t : Nat) : Prop :=
  t ≠ 0 ∧ ∃ r ∈ notedLog d, r.txnId = t ∧ r.type = .commit

/-- A transaction in the log with neither a commit nor an abort record there. -/
def LoserIn (d : Disk) (t : Nat) : Prop :=
  t ≠ 0 ∧ (∃ r ∈ notedLog d, r.txnId = t) ∧
    (∀ r ∈ notedLog d, r.txnId = t → r.type ≠ .commit ∧ r.type ≠ .abort)

theorem mem_committedTxns (d : Disk) (t : Nat) :
    t ∈ (walAnalyze d).committedTxns ↔ WinnerIn d t := by
  have h := walAnalyze_analysed d
  constructor
  · intro ht
    obtain ⟨e, he, rfl⟩ := mem_map.mp ht
    obtain ⟨he, hc⟩ := mem_filter.mp he
    exact ⟨(h.real e he).1, (h.committed e he).mp hc⟩
  · rintro ⟨hz, r, hr, hid, htype⟩
    obtain ⟨e, he, heq⟩ := h.known r hr (by rw [hid]; exact hz)
    refine mem_map.mpr ⟨e, mem_filter.mpr ⟨he, ?_⟩, heq.trans hid⟩
    exact (h.committed e he).mpr ⟨r, hr, heq.symm, htype⟩

theorem mem_uncommittedTxns (d : Disk) (t : Nat) :
    t ∈ (walAnalyze d).uncommittedTxns ↔ LoserIn d t := by
  have h := walAnalyze_analysed d
  have hflags : ∀ e ∈ (walAnalyze d).seenTxns, (!e.committed && !e.aborted) = true ↔
      ∀ r ∈ notedLog d, r.txnId = e.txnId → r.type ≠ .commit ∧ r.type ≠ .abort := by
    intro e he
    rw [Bool.and_eq_true, Bool.not_eq_true', Bool.not_eq_true', ← Bool.not_eq_true,
      ← Bool.not_eq_true, h.committed e he, h.aborted e he]
    simp only [not_exists, not_and, ne_eq, imp_and, forall_and]
  constructor
  · intro ht
    obtain ⟨e, he, rfl⟩ := mem_map.mp ht
    obtain ⟨he, hf⟩ := mem_filter.mp he
    obtain ⟨hz, hex⟩ := h.real e he
    exact ⟨hz, hex, (hflags e he).mp hf⟩
  · rintro ⟨hz, ⟨r, hr, hid⟩, hno⟩
    obtain ⟨e, he, heq⟩ := h.known r hr (by rw [hid]; exact hz)
    obtain rfl : e.txnId = t := heq.trans hid
    exact mem_map.mpr ⟨e, mem_filter.mpr ⟨he, (hflags e he).mpr hno⟩, rfl⟩

/-! ## The exchange sort -/

theorem exchangePass_perm (rs : List WalRecord) (cur : WalRecord) :
    ((exchangePass cur rs).1 :: (exchangePass cur rs).2).Perm (cur :: rs) := by
  induction rs generalizing cur with
  | nil => exact List.Perm.refl _
  | cons y ys ih =>
    unfold exchangePass
    split
    · exact (List.Perm.swap ..).trans ((ih y).cons cur)
    · exact (List.Perm.swap ..).trans (((ih cur).cons y).trans (List.Perm.swap ..))

theorem exchangePass_max (rs : List WalRecord) (cur : WalRecord) :
    cur.lsn ≤ (exchangePass cur rs).1.lsn := by
  induction rs generalizing cur with
  | nil => exact Nat.le_refl _
  | cons y ys ih =>
    unfold exchangePass
    split
    · rename_i hlt
      exact Nat.le_trans (Nat.le_of_lt hlt) (ih y)
    · exact ih cur

/-- The entry carried to the end has the largest LSN. -/
theorem exchangePass_ge (rs : List WalRecord) (cur : WalRecord) :
    ∀ q ∈ (exchangePass cur rs).2, q.lsn ≤ (exchangePass cur rs).1.lsn := by
  induction rs generalizing cur with
  | nil => intro q hq; exact nomatch hq
  | cons y ys ih =>
    unfold exchangePass
    split
    · rename_i hlt
      exact forall_mem_cons.mpr ⟨Nat.le_trans (Nat.le_of_lt hlt) (exchangePass_max ys y), ih y⟩
    · rename_i hlt
      exact forall_mem_cons.mpr
        ⟨Nat.le_trans (Nat.le_of_not_lt hlt) (exchangePass_max ys cur), ih cur⟩

/-- The sort permutes the entries and leaves them newest first. -/
theorem exchangeSort_spec (n : Nat) (rs : List WalRecord) : rs.length ≤ n →
    (exchangeSort n rs).Perm rs ∧
      (exchangeSort n rs).Pairwise (fun a b => b.lsn ≤ a.lsn) := by
  induction n generalizing rs with
  | zero =>
    intro hlen
    rw [eq_nil_of_length_eq_zero (Nat.le_zero.mp hlen)]
    exact ⟨List.Perm.refl _, List.Pairwise.nil⟩
  | succ n ih =>
    intro hlen
    cases rs with
    | nil => exact ⟨List.Perm.refl _, List.Pairwise.nil⟩
    | cons r rs =>
      have hperm := exchangePass_perm rs r
      have hlen' : (exchangePass r rs).2.length ≤ n := by
        have := hperm.length_eq
        rw [length_cons, length_cons] at this
        rw [length_cons] at hlen
        omega
      obtain ⟨hp, hs⟩ := ih (exchangePass r rs).2 hlen'
      refine ⟨(hp.cons _).trans hperm, pairwise_cons.mpr ⟨?_, hs⟩⟩
      intro q hq
      exact exchangePass_ge rs r q (hp.mem_iff.mp hq)

/-! ## Redo and undo byte by byte -/

/-- The bytes a `WAL_WRITE` speaks about. -/
def Covers (r : WalRecord) (a : Addr) : Prop :=
  a.1 = r.sector ∧ r.offset ≤ a.2.val ∧ a.2.val < r.offset + r.length
deriving Decidable

/-- The after image of a record. -/
def newPatch (r : WalRecord) : Addr → Option UInt8 :=
  rangePatch r.sector r.offset (payloadBytes r.newData r.length)

/-- The before image of a record. -/
def oldPatch (r : WalRecord) : Addr → Option UInt8 :=
  rangePatch r.sector r.offset (payloadBytes r.oldData r.length)

theorem image_isSome (data : Payload) :
    (rangePatch r.sector r.offset (payloadBytes data r.length) a).isSome ↔ Covers r a := by
  rw [rangePatch_isSome, length_payloadBytes]
  exact Iff.rfl

theorem newPatch_isSome : (newPatch r a).isSome ↔ Covers r a := image_isSome _

theorem oldPatch_isSome : (oldPatch r a).isSome ↔ Covers r a := image_isSome _

def walMetadataSector : Sector := 66

/-- A sector outside the log and its metadata. -/
def DataSector (s : Sector) : Prop := s < walLogStartSector ∨ walMetadataSector < s
deriving Decidable

/-- Every `WAL_WRITE` in the log is about a data sector. -/
def NamesData (d : Disk) : Prop :=
  ∀ r ∈ storedLog d, r.type = .write → DataSector r.sector

/-- The log and its metadata are the same on both devices. -/
def SameLog (d d' : Disk) : Prop := ∀ s, ¬ DataSector s → d' s = d s

theorem not_dataSector_slot (hi : i < walLogSectors) : ¬ DataSector (walLogStartSector + i) := by
  rintro (h | h)
  · exact absurd h (by show ¬ (2 + i < 2); omega)
  · have h64 : i < 64 := hi
    exact absurd h (by show ¬ (66 < 2 + i); omega)

theorem SameLog.slotRecord (h : SameLog d d')
    (hi : i < walLogSectors) : slotRecord d' i = slotRecord d i := by
  unfold MavRecover.slotRecord
  rw [h _ (not_dataSector_slot hi)]

theorem SameLog.writeOf (h : SameLog d d') (txns : List Nat)
    (hi : i < walLogSectors) : writeOf txns d' i = writeOf txns d i := by
  unfold MavRecover.writeOf
  rw [h.slotRecord hi]

theorem SameLog.storedLog (h : SameLog d d') : storedLog d' = storedLog d :=
  filterMap_congr fun _ hi => h.slotRecord (mem_range.mp hi)

theorem writeOf_eq_some : writeOf txns d i = some r ↔
    slotRecord d i = some r ∧ r.type = .write ∧ r.txnId ∈ txns := by
  unfold writeOf
  cases slotRecord d i with
  | none => exact ⟨nofun, fun h => nomatch h.1⟩
  | some q =>
    simp only [Option.ite_none_right_eq_some, Option.some.injEq]
    constructor
    · rintro ⟨hc, rfl⟩
      exact ⟨rfl, hc⟩
    · rintro ⟨rfl, hc⟩
      exact ⟨hc, rfl⟩

/-- The `WAL_WRITE`s of the transactions, in slot order. -/
def writesOf (txns : List Nat) (d : Disk) : List WalRecord :=
  (List.range walLogSectors).filterMap (writeOf txns d)

theorem mem_writesOf :
    r ∈ writesOf txns d ↔ r ∈ storedLog d ∧ r.type = .write ∧ r.txnId ∈ txns := by
  simp only [writesOf, mem_filterMap, mem_range, writeOf_eq_some, mem_storedLog]
  constructor
  · rintro ⟨i, hi, hs, hr⟩
    exact ⟨⟨i, hi, hs⟩, hr⟩
  · rintro ⟨⟨i, hi, hs⟩, hr⟩
    exact ⟨i, hi, hs, hr⟩

/-- `v'` comes from `v` by device writes that at no point change a byte outside `C`. -/
def Grows (C : Addr → Prop) (v v' : Device) : Prop :=
  ∃ ws, v'.writes = v.writes ++ ws ∧ v'.disk = replayWrites v.disk ws ∧
    ∀ k a, ¬ C a → toBytes (replayWrites v.disk (ws.take k)) a = toBytes v.disk a

theorem Grows.refl (C : Addr → Prop) (v : Device) : Grows C v v := by
  refine ⟨[], (append_nil _).symm, rfl, ?_⟩
  intro k a _
  rw [take_nil]
  rfl

theorem Grows.trans {u w : Device} (h1 : Grows C u v) (h2 : Grows C v w) : Grows C u w := by
  obtain ⟨ws, hw, hd, hf⟩ := h1
  obtain ⟨xs, hx, he, hg⟩ := h2
  refine ⟨ws ++ xs, by rw [hx, hw, append_assoc], ?_, ?_⟩
  · rw [he, hd, replayWrites_append]
  intro k a ha
  have hall : toBytes v.disk a = toBytes u.disk a := by
    have := hf ws.length a ha
    rw [take_length] at this
    rw [hd]
    exact this
  rw [take_append]
  rcases Nat.le_total k ws.length with hk | hk
  · rw [Nat.sub_eq_zero_of_le hk, take_zero, append_nil]
    exact hf k a ha
  · rw [take_of_length_le hk, replayWrites_append, ← hd, hg _ a ha, hall]

theorem copyToSector_bytes (v : Device) (r : WalRecord) (data : List UInt8) :
    toBytes (copyToSector v r data).disk
      = applyPatch (toBytes v.disk) (rangePatch r.sector r.offset data) :=
  toBytes_blockWrite ..

theorem copyToSector_grows
    {data : List UInt8} (hC : ∀ a, (rangePatch r.sector r.offset data a).isSome → C a) :
    Grows C v (copyToSector v r data) := by
  refine ⟨[(r.sector, memcpyInto (v.disk r.sector) r.offset data)], rfl, rfl, ?_⟩
  intro k a ha
  cases k with
  | zero => rfl
  | succ k =>
    rw [take_succ_cons, take_nil]
    show toBytes (copyToSector v r data).disk a = toBytes v.disk a
    rw [copyToSector_bytes]
    exact applyPatch_none (Option.not_isSome_iff_eq_none.mp fun hc => ha (hC a hc))

theorem copyToSector_sameLog {data : List UInt8} (h : SameLog d v.disk) (hr : DataSector r.sector) :
    SameLog d (copyToSector v r data).disk := by
  intro s hs
  refine (blockWrite_other ?_).trans (h s hs)
  rintro rfl
  exact hs hr

/-- What a phase does to the device: the log stays, the bytes are overridden by
    the patches of `rs`, and nothing outside `C` changes on the way. -/
structure Phase (C : Addr → Prop) (d : Disk) (patch : WalRecord → Addr → Option UInt8)
    (rs : List WalRecord) (v v' : Device) : Prop where
  log : SameLog d v'.disk
  bytes : toBytes v'.disk = applyAll patch (toBytes v.disk) rs
  grows : Grows C v v'

/-- The redo loop over the slots `is`. -/
theorem redoSlots_phase (hrs : ∀ r ∈ writesOf txns d, DataSector r.sector ∧ ∀ a, Covers r a → C a) :
    ∀ (is : List Nat) (v : Device), (∀ i ∈ is, i < walLogSectors) → SameLog d v.disk →
      Phase C d newPatch (is.filterMap (writeOf txns d)) v (is.foldl (redoSlot txns) v) := by
  intro is
  induction is with
  | nil => intro v _ hlog; exact ⟨hlog, rfl, Grows.refl C v⟩
  | cons i is ih =>
    intro v his hlog
    have hi := his i (mem_cons_self ..)
    have his' : ∀ j ∈ is, j < walLogSectors := fun j hj => his j (mem_cons_of_mem _ hj)
    rw [foldl_cons, redoSlot, hlog.writeOf txns hi]
    cases hw : writeOf txns d i with
    | none =>
      rw [filterMap_cons_none hw]
      exact ih v his' hlog
    | some r =>
      have hmem : r ∈ writesOf txns d :=
        mem_filterMap.mpr ⟨i, mem_range.mpr hi, hw⟩
      have hp := ih (copyToSector v r (payloadBytes r.newData r.length)) his'
        (copyToSector_sameLog hlog (hrs r hmem).1)
      rw [filterMap_cons_some hw]
      refine ⟨hp.log, ?_, (copyToSector_grows ?_).trans hp.grows⟩
      · rw [hp.bytes, copyToSector_bytes]
        rfl
      · intro a ha
        exact (hrs r hmem).2 a (newPatch_isSome.mp ha)

/-- The undo loop over the sorted entries. -/
theorem undoEntries_phase (rs : List WalRecord) (v : Device) :
    (∀ r ∈ rs, DataSector r.sector ∧ ∀ a, Covers r a → C a) → SameLog d v.disk →
      Phase C d oldPatch rs v (rs.foldl undoEntry v) := by
  induction rs generalizing v with
  | nil => intro _ hlog; exact ⟨hlog, rfl, Grows.refl C v⟩
  | cons r rs ih =>
    intro hrs hlog
    obtain ⟨hsec, hcov⟩ := hrs r (mem_cons_self ..)
    have hp := ih (undoEntry v r) (fun q hq => hrs q (mem_cons_of_mem _ hq))
      (copyToSector_sameLog hlog hsec)
    rw [foldl_cons]
    refine ⟨hp.log, ?_, Grows.trans (copyToSector_grows ?_) hp.grows⟩
    · rw [hp.bytes, show toBytes (undoEntry v r).disk
        = applyPatch (toBytes v.disk) (oldPatch r) from copyToSector_bytes ..]
      rfl
    · intro a ha
      exact hcov a (oldPatch_isSome.mp ha)

/-! ## The whole of recovery -/

/-- A byte some winner or loser of the log covers. -/
def Replayed (d : Disk) (a : Addr) : Prop :=
  ∃ r ∈ storedLog d, r.type = .write ∧ (WinnerIn d r.txnId ∨ LoserIn d r.txnId) ∧
    Covers r a

/-- Every record sits in the slot of its LSN. -/
def InPlace (d : Disk) : Prop :=
  ∀ i r, i < walLogSectors → slotRecord d i = some r → logSector r.lsn = walLogStartSector + i

/-- The entries of the undo phase in the order they are applied. -/
def undoOrder (d : Disk) : List WalRecord :=
  let entries := undoRecords (walAnalyze d).uncommittedTxns d
  exchangeSort entries.length entries

theorem undoRecords_eq (txns : List Nat) (d : Disk) :
    undoRecords txns d = writesOf txns d := by
  refine take_of_length_le ?_
  refine Nat.le_trans (length_filterMap_le ..) ?_
  decide

theorem mem_undoOrder :
    r ∈ undoOrder d ↔ r ∈ storedLog d ∧ r.type = .write ∧ LoserIn d r.txnId := by
  have hp := (exchangeSort_spec _ (undoRecords (walAnalyze d).uncommittedTxns d) (Nat.le_refl _)).1
  show r ∈ exchangeSort _ _ ↔ _
  rw [hp.mem_iff, undoRecords_eq, mem_writesOf, mem_uncommittedTxns]

/-- The redo phase of recovery. -/
theorem walRedo_phase (hn : NamesData v.disk) : Phase (Replayed v.disk) v.disk newPatch
      (writesOf (walAnalyze v.disk).committedTxns v.disk) v
      (walRedo (walAnalyze v.disk).committedTxns v) := by
  refine redoSlots_phase ?_ (List.range walLogSectors) v
    (fun i hi => mem_range.mp hi) (fun s _ => rfl)
  intro r hr
  obtain ⟨hm, hw, ht⟩ := mem_writesOf.mp hr
  exact ⟨hn r hm hw, fun a ha =>
    ⟨r, hm, hw, .inl ((mem_committedTxns v.disk r.txnId).mp ht), ha⟩⟩

/-- The undo phase, which finds the log as analysis did. -/
theorem walUndo_phase (hn : NamesData v.disk) :
    Phase (Replayed v.disk) v.disk oldPatch (undoOrder v.disk)
      (walRedo (walAnalyze v.disk).committedTxns v)
      (walUndo (walAnalyze v.disk).uncommittedTxns
        (walRedo (walAnalyze v.disk).committedTxns v)) := by
  have hlog := (walRedo_phase hn).log
  have horder : undoRecords (walAnalyze v.disk).uncommittedTxns
      (walRedo (walAnalyze v.disk).committedTxns v).disk
      = undoRecords (walAnalyze v.disk).uncommittedTxns v.disk := by
    rw [undoRecords_eq, undoRecords_eq]
    exact filterMap_congr fun i hi => hlog.writeOf _ (mem_range.mp hi)
  have hout : walUndo (walAnalyze v.disk).uncommittedTxns
      (walRedo (walAnalyze v.disk).committedTxns v)
      = (undoOrder v.disk).foldl undoEntry (walRedo (walAnalyze v.disk).committedTxns v) := by
    simp only [walUndo, undoOrder, horder]
  rw [hout]
  refine undoEntries_phase _ _ ?_ hlog
  intro r hr
  obtain ⟨hm, hw, ht⟩ := mem_undoOrder.mp hr
  exact ⟨hn r hm hw, fun a ha => ⟨r, hm, hw, .inr ht, ha⟩⟩

/-- The bytes after recovery: two overrides. -/
theorem walRecover_bytes (hn : NamesData v.disk) (w : WalManager) :
    toBytes (walRecover true v w).1.disk
      = applyAll oldPatch (applyAll newPatch (toBytes v.disk)
          (writesOf (walAnalyze v.disk).committedTxns v.disk)) (undoOrder v.disk) := by
  rw [← (walRedo_phase hn).bytes, ← (walUndo_phase hn).bytes]
  simp only [walRecover, if_true]

/-- The frame of recovery, also when the undo array cannot be allocated: the log stays, and at no
    point does a byte change that no winner or loser covers. -/
theorem walRecover_frame (m : Bool) (hn : NamesData v.disk) (w : WalManager) :
    SameLog v.disk (walRecover m v w).1.disk ∧
      Grows (Replayed v.disk) v (walRecover m v w).1 := by
  have hredo := walRedo_phase hn
  have hundo := walUndo_phase hn
  cases m with
  | false =>
    simp only [walRecover, Bool.false_eq_true, if_false]
    exact ⟨hredo.log, hredo.grows⟩
  | true =>
    simp only [walRecover, if_true]
    exact ⟨hundo.log, hredo.grows.trans hundo.grows⟩

/-- What recovery replays is outside the log. -/
theorem Replayed.dataSector (hn : NamesData d) (h : Replayed d a) : DataSector a.1 := by
  obtain ⟨r, hr, hw, -, hc⟩ := h
  rw [hc.1]
  exact hn r hr hw

/-- Stopped anywhere, recovery has not touched the log or its metadata. -/
theorem Grows.sameLog (hn : NamesData d) {v' : Device} (hv : v.disk = d)
    (h : Grows (Replayed d) v v') :
    ∃ ws, v'.writes = v.writes ++ ws ∧ v'.disk = replayWrites v.disk ws ∧
      ∀ k, SameLog d (replayWrites v.disk (ws.take k)) := by
  obtain ⟨ws, hw, hd, hf⟩ := h
  refine ⟨ws, hw, hd, ?_⟩
  intro k s hs
  funext i
  have := hf k (s, i) (fun hr => hs (hr.dataSector hn))
  rw [hv] at this ⊢
  exact this

/-- Records in their slots are told apart by their LSNs. -/
theorem InPlace.lsn_inj (h : InPlace d) {q : WalRecord}
    (hr : r ∈ storedLog d) (hq : q ∈ storedLog d) (he : r.lsn = q.lsn) : r = q := by
  obtain ⟨i, hi, hsi⟩ := mem_storedLog.mp hr
  obtain ⟨j, hj, hsj⟩ := mem_storedLog.mp hq
  have hpi := h i r hi hsi
  have hpj := h j q hj hsj
  have hij : i = j := by
    rw [he, hpj] at hpi
    exact (Nat.add_left_cancel hpi).symm
  rw [hij, hsj] at hsi
  exact (Option.some.inj hsi).symm

theorem writesOf_pairwise (h : InPlace d) (txns : List Nat) :
    (writesOf txns d).Pairwise (fun r q => logSector r.lsn < logSector q.lsn) := by
  refine List.Pairwise.filterMap (R := fun i j => i < j ∧ j < walLogSectors) (writeOf txns d) ?_ ?_
  · rintro i j ⟨hij, hj⟩ r hr q hq
    rw [h i r (Nat.lt_trans hij hj) (writeOf_eq_some.mp hr).1, h j q hj (writeOf_eq_some.mp hq).1]
    exact Nat.add_lt_add_left hij _
  · refine List.Pairwise.imp_of_mem ?_ pairwise_lt_range
    intro i j _ hj hij
    exact ⟨hij, mem_range.mp hj⟩

theorem undoOrder_pairwise (h : InPlace d) : (undoOrder d).Pairwise (fun r q => q.lsn < r.lsn) := by
  obtain ⟨hperm, hsort⟩ := exchangeSort_spec _
    (undoRecords (walAnalyze d).uncommittedTxns d) (Nat.le_refl _)
  have hne : (undoRecords (walAnalyze d).uncommittedTxns d).Pairwise
      (fun r q => r.lsn ≠ q.lsn) := by
    rw [undoRecords_eq]
    refine List.Pairwise.imp ?_ (writesOf_pairwise h _)
    intro r q hlt he
    rw [he] at hlt
    exact Nat.lt_irrefl _ hlt
  have hne' := (hperm.pairwise_iff (R := fun r q : WalRecord => r.lsn ≠ q.lsn)
    (fun he => Ne.symm he)).mpr hne
  refine List.Pairwise.imp ?_ (hsort.and hne')
  intro r q hrq
  exact Nat.lt_of_le_of_ne hrq.1 (Ne.symm hrq.2)

/-- A byte losers cover gets the old byte of the oldest of them. -/
theorem recover_loser (hn : NamesData v.disk) (hp : InPlace v.disk) (w : WalManager) {x : UInt8}
    (hr : r ∈ storedLog v.disk) (hw : r.type = .write) (hl : LoserIn v.disk r.txnId)
    (hx : oldPatch r a = some x)
    (hmin : ∀ q ∈ storedLog v.disk, q.type = .write → LoserIn v.disk q.txnId →
      Covers q a → r.lsn ≤ q.lsn) :
    toBytes (walRecover true v w).1.disk a = x := by
  rw [walRecover_bytes hn w]
  refine applyAll_of_last (undoOrder_pairwise hp) (mem_undoOrder.mpr ⟨hr, hw, hl⟩) hx ?_
  intro q hq hc hlt
  obtain ⟨hm, hqw, hql⟩ := mem_undoOrder.mp hq
  exact Nat.not_lt.mpr (hmin q hm hqw hql (oldPatch_isSome.mp hc)) hlt

/-- A byte no loser covers gets the new byte of the winner in the last slot. -/
theorem recover_winner (hn : NamesData v.disk) (hp : InPlace v.disk) (w : WalManager) {x : UInt8}
    (hnone : ∀ q ∈ storedLog v.disk, q.type = .write → LoserIn v.disk q.txnId →
      ¬ Covers q a)
    (hr : r ∈ storedLog v.disk) (hw : r.type = .write) (hc : WinnerIn v.disk r.txnId)
    (hx : newPatch r a = some x)
    (hmax : ∀ q ∈ storedLog v.disk, q.type = .write → WinnerIn v.disk q.txnId →
      Covers q a → logSector q.lsn ≤ logSector r.lsn) :
    toBytes (walRecover true v w).1.disk a = x := by
  rw [walRecover_bytes hn w, applyAll_of_uncovered]
  · refine applyAll_of_last (writesOf_pairwise hp _) (mem_writesOf.mpr ⟨hr, hw,
      (mem_committedTxns ..).mpr hc⟩) hx ?_
    intro q hq hqc hlt
    obtain ⟨hm, hqw, hqt⟩ := mem_writesOf.mp hq
    exact Nat.not_lt.mpr
      (hmax q hm hqw ((mem_committedTxns ..).mp hqt) (newPatch_isSome.mp hqc)) hlt
  · intro q hq
    obtain ⟨hm, hqw, hql⟩ := mem_undoOrder.mp hq
    exact Option.not_isSome_iff_eq_none.mp fun hc =>
      hnone q hm hqw hql (oldPatch_isSome.mp hc)

/-- Every other byte is left as it was. -/
theorem recover_untouched (hn : NamesData v.disk) (w : WalManager) (hnot : ¬ Replayed v.disk a) :
    toBytes (walRecover true v w).1.disk a = toBytes v.disk a := by
  obtain ⟨ws, -, hd, hf⟩ := (walRecover_frame true hn w).2
  have h := hf ws.length a hnot
  rw [take_length, ← hd] at h
  exact h

end MavRecover
