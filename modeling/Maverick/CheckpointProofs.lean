import Maverick.AbortProofs

/-! # Checkpoints — how far back replay reaches

`wal_checkpoint` writes back every dirty sector and logs a `WAL_CHECKPOINT`, but `wal_recover` never
looks for that record: it replays whatever the ring still holds. A byte that only records older
than the checkpoint cover is written again, with what the last of them in the order of replay says.
It is left alone exactly if the device holds that byte already. -/

namespace MavCheckpoint

open MavRun MavBlock MavRecord MavLog MavRecover MavCache MavMount MavSystem MavRules MavCrash
open MavAbort

variable {d : Disk} {n : Nat} {a : Addr}

/-- A record younger than the checkpoint with LSN `n` covers the byte. -/
def Younger (n : Nat) (d : Disk) (a : Addr) : Prop :=
  ∃ r ∈ storedLog d, r.type = .write ∧ n < r.lsn ∧ Covers r a

/-- Recovery changes only bytes with a record younger than the checkpoint. -/
def Bounded (n : Nat) (d : Disk) : Prop :=
  ∀ a, DataSector a.1 → ¬ Younger n d a → recovered d a = toBytes d a

/-- A `WAL_WRITE` on the byte by one of the transactions `T`. -/
structure WriteBy (T : Nat → Prop) (d : Disk) (a : Addr) (r : WalRecord) : Prop where
  stored : r ∈ storedLog d
  type : r.type = .write
  txn : T r.txnId
  covers : Covers r a

/-- The last record undo applies to the byte: the oldest of a loser. -/
def LastUndone (d : Disk) (a : Addr) (r : WalRecord) : Prop :=
  WriteBy (LoserIn d) d a r ∧ ∀ q, WriteBy (LoserIn d) d a q → r.lsn ≤ q.lsn

/-- The last record redo applies to the byte: the one of a winner in the highest slot. -/
def LastRedone (d : Disk) (a : Addr) (r : WalRecord) : Prop :=
  WriteBy (WinnerIn d) d a r ∧
    ∀ q, WriteBy (WinnerIn d) d a q → logSector q.lsn ≤ logSector r.lsn

/-- Where no record is younger than the checkpoint, replay ends with the byte the device holds. -/
def StaleAgree (n : Nat) (d : Disk) : Prop :=
  ∀ a, ¬ Younger n d a →
    (∀ r, LastUndone d a r → oldPatch r a = some (toBytes d a)) ∧
    ((∀ q, ¬ WriteBy (LoserIn d) d a q) →
      ∀ r, LastRedone d a r → newPatch r a = some (toBytes d a))

variable {r : WalRecord}

theorem WriteBy.dataSector {T : Nat → Prop} (h : WriteBy T d a r)
    (hn : NamesData d) : DataSector a.1 := by
  rw [h.covers.1]
  exact hn r h.stored h.type

/-- Among the records on a byte there is one with the least key. -/
theorem WriteBy.exists_least {T : Nat → Prop} (h : WriteBy T d a r) (key : WalRecord → Nat) :
    ∃ r, WriteBy T d a r ∧ ∀ q, WriteBy T d a q → key r ≤ key q := by
  obtain ⟨r, hr, hmin⟩ := (InvImage.wf key Nat.lt_wfRel.wf).has_min {r | WriteBy T d a r} ⟨r, h⟩
  exact ⟨r, hr, fun q hq => Nat.not_lt.mp (hmin q hq)⟩

theorem WriteBy.exists_lastRedone (h : WriteBy (WinnerIn d) d a r) : ∃ r, LastRedone d a r := by
  obtain ⟨r, hr, hmin⟩ := h.exists_least fun r => 66 - logSector r.lsn
  refine ⟨r, hr, fun q hq => ?_⟩
  have hslot : ∀ lsn, logSector lsn < 66 := fun lsn =>
    Nat.add_lt_add_left (Nat.mod_lt _ (by decide : 0 < 64)) 2
  have h1 := hmin q hq
  have h2 := hslot q.lsn
  exact (Nat.sub_le_sub_iff_left (Nat.le_of_lt h2)).mp h1

theorem LastUndone.recovered (h : LastUndone d a r) (hn : NamesData d)
    (hp : InPlace d) : oldPatch r a = some (recovered d a) := by
  obtain ⟨x, hx⟩ := Option.isSome_iff_exists.mp (oldPatch_isSome.mpr h.1.covers)
  have hrec := recover_loser (v := ⟨d, []⟩) hn hp (freshManager 1 0 1) h.1.stored h.1.type h.1.txn
    hx fun q hq hw hl hc => h.2 q ⟨hq, hw, hl, hc⟩
  rw [hx]
  exact congrArg some hrec.symm

theorem LastRedone.recovered (h : LastRedone d a r) (hn : NamesData d)
    (hp : InPlace d) (hnone : ∀ q, ¬ WriteBy (LoserIn d) d a q) :
    newPatch r a = some (recovered d a) := by
  obtain ⟨x, hx⟩ := Option.isSome_iff_exists.mp (newPatch_isSome.mpr h.1.covers)
  have hrec := recover_winner (v := ⟨d, []⟩) hn hp (freshManager 1 0 1)
    (fun q hq hw hl hc => hnone q ⟨hq, hw, hl, hc⟩) h.1.stored h.1.type h.1.txn hx
    fun q hq hw hl hc => h.2 q ⟨hq, hw, hl, hc⟩
  rw [hx]
  exact congrArg some hrec.symm

/-- **REPLAY** of a device is bounded by a checkpoint exactly if the stale records agree with it. -/
theorem bounded_iff (hn : NamesData d) (hp : InPlace d) : Bounded n d ↔ StaleAgree n d := by
  constructor
  · intro h a ha
    refine ⟨fun r hr => ?_, fun hnone r hr => ?_⟩
    · rw [hr.recovered hn hp, h a (hr.1.dataSector hn) ha]
    · rw [hr.recovered hn hp hnone, h a (hr.1.dataSector hn) ha]
  intro h a _ ha
  obtain ⟨hundo, hredo⟩ := h a ha
  by_cases hL : ∃ q, WriteBy (LoserIn d) d a q
  · obtain ⟨q, hq⟩ := hL
    obtain ⟨r, hr⟩ : ∃ r, LastUndone d a r := hq.exists_least WalRecord.lsn
    exact Option.some.inj ((hr.recovered hn hp).symm.trans (hundo r hr))
  have hnone : ∀ q, ¬ WriteBy (LoserIn d) d a q := fun q hq => hL ⟨q, hq⟩
  by_cases hW : ∃ q, WriteBy (WinnerIn d) d a q
  · obtain ⟨q, hq⟩ := hW
    obtain ⟨r, hr⟩ := hq.exists_lastRedone
    exact Option.some.inj ((hr.recovered hn hp hnone).symm.trans (hredo hnone r hr))
  · refine recover_untouched (v := ⟨d, []⟩) hn (freshManager 1 0 1) ?_
    rintro ⟨r, hr, hw, hwin | hlose, hc⟩
    · exact hW ⟨r, hr, hw, hwin, hc⟩
    · exact hL ⟨r, hr, hw, hlose, hc⟩

/-- **CHECKPOINTS**: in every run of calls, at every point at which memory may be lost, and for every
    LSN, those of the checkpoints completed so far among them. -/
theorem checkpoint_bounds_replay_iff (c : BufferCache) {w : WalManager} (hw : Idle w)
    (hlog : LogInv c.disk (mounted c w).core) {ops : List Op}
    (hops : Guarded sysStep (fun s op => Regular s.core op) (mounted c w) ops)
    (hfit : ∀ e ∈ ((mounted c w).run ops).events, Fitting e) :
    (∀ e ∈ ((mounted c w).run ops).events, ∀ n,
      (Bounded n e.diskAfter ↔ StaleAgree n e.diskAfter)) ∧
    ∀ n, (Bounded n ((mounted c w).run ops).bc.disk ↔
      StaleAgree n ((mounted c w).run ops).bc.disk) := by
  obtain ⟨hev, hend⟩ := entries_run c hw ⟨hlog, fun _ _ => trivial⟩ hops hfit
  exact ⟨fun e he n => bounded_iff (hev e he).2 (hev e he).1.1,
    fun n => bounded_iff hend.log.namesData hend.log.inPlace⟩

/-- **A LAP BOUNDS REPLAY**: once 64 records have been stored after LSN `n`, recovery changes no byte
    that only records up to `n` cover, whatever transactions were active then. -/
theorem bounded_of_lapped (c : BufferCache) {w : WalManager} (hw : Idle w)
    (hlog : LogInv c.disk (mounted c w).core) {ops : List Op}
    (hops : Guarded sysStep (fun s op => Regular s.core op) (mounted c w) ops)
    (hfit : ∀ e ∈ ((mounted c w).run ops).events, Fitting e)
    (hlap : n + 64 ≤ ((mounted c w).run ops).core.storedLsn) :
    Bounded n ((mounted c w).run ops).bc.disk := by
  have h := (entries_run c hw ⟨hlog, fun _ _ => trivial⟩ hops hfit).2.log
  generalize ((mounted c w).run ops).bc.disk = d at h ⊢
  refine (bounded_iff h.namesData h.inPlace).mpr fun a ha => ?_
  have hyoung : ∀ {T : Nat → Prop} {r : WalRecord}, ¬ WriteBy T d a r := by
    intro T r hr
    have := (h.ring r hr.stored).2.2
    exact ha ⟨r, hr.stored, hr.type, by omega, hr.covers⟩
  exact ⟨fun r hr => absurd hr.1 hyoung, fun _ r hr => absurd hr.1 hyoung⟩

theorem bounded_of_lapped_longTxn :
    Bounded 8 ((mounted blankCache (freshManager 1 0 1)).run longTxn).bc.disk := by
  have hidle : Idle (freshManager 1 0 1) := MavWriteAhead.idle_freshManager 0 1 (by decide)
  exact bounded_of_lapped blankCache hidle (mounted_logInv _ hidle storedLog_blankDisk)
    longTxn_regular (by decide +kernel) (by decide +kernel)

/-! ## A byte written outside any transaction -/

/-- Transaction 1 writes 7 and commits; after a checkpoint the byte is set to 9
    without a transaction and flushed. -/
def outsideByte : List Op :=
  [.begin true, .write ⟨1, 70, 0, [7]⟩, .commit 1, .checkpoint, .plainWrite 70 0 [9], .cacheFlush]

/-- The only `WAL_WRITE` is the one of transaction 1, with LSN 2. -/
def OutsideRecord (r : WalRecord) : Prop := r.type = .write → r.lsn = 2 ∧ r.txnId = 1

instance : DecidablePred OutsideRecord := fun r =>
  inferInstanceAs (Decidable (r.type = .write → r.lsn = 2 ∧ r.txnId = 1))

theorem outsideByte_regular :
    Guarded sysStep (fun s op => Regular s.core op) blankSys outsideByte := by
  decide +kernel

theorem outsideByte_entries :
    Entries OutsideRecord (blankSys.run outsideByte).bc.disk (blankSys.run outsideByte).core := by
  have hidle : Idle (freshManager 1 0 1) := MavWriteAhead.idle_freshManager 0 1 (by decide)
  have hstore : ∀ e ∈ (blankSys.run outsideByte).events, Storing OutsideRecord e := by
    decide +kernel
  exact (entries_run blankCache hidle (entries_blank _ hidle storedLog_blankDisk)
    outsideByte_regular hstore).2

/-- The byte on the device is 9, no record is younger than the checkpoint, and
    recovery sets it back to 7. -/
theorem replay_passes_checkpoint :
    Guarded sysStep (fun s op => Regular s.core op) blankSys outsideByte ∧
    ∃ n ∈ (blankSys.run outsideByte).core.quietLsns,
      ¬ Younger n (blankSys.run outsideByte).bc.disk (70, 0) ∧
      toBytes (blankSys.run outsideByte).bc.disk (70, 0) = 9 ∧
      recovered (blankSys.run outsideByte).bc.disk (70, 0) = 7 := by
  refine ⟨outsideByte_regular, 4, by decide +kernel, ?_⟩
  have hE := outsideByte_entries
  generalize hs : blankSys.run outsideByte = s at hE
  -- both records were stored by the commit
  have hstored : ∀ r ∈ s.core.wal.logBuffer, Fits r ∧ r.lsn ≤ s.core.storedLsn →
      r ∈ storedLog s.bc.disk :=
    fun r hr h => Stored.mem ⟨h.1, hE.log.copies r hr h.2⟩
  obtain ⟨r, hr, hrs, hw, hx⟩ : ∃ r ∈ s.core.wal.logBuffer, (Fits r ∧ r.lsn ≤ s.core.storedLsn) ∧
      r.type = .write ∧ newPatch r (70, 0) = some 7 := by
    rw [← hs]
    decide +kernel
  obtain ⟨q, hq, hqs, hid, hc, hpos⟩ : ∃ q ∈ s.core.wal.logBuffer,
      (Fits q ∧ q.lsn ≤ s.core.storedLsn) ∧ q.txnId = 1 ∧ q.type = .commit ∧ q.lsn ≠ 0 := by
    rw [← hs]
    decide +kernel
  have hmem := hstored r hr hrs
  have hnoted : q ∈ notedLog s.bc.disk := mem_notedLog.mpr ⟨hstored q hq hqs, hpos⟩
  have hnone : ∀ p, ¬ WriteBy (LoserIn s.bc.disk) s.bc.disk (70, 0) p := fun p hp =>
    (hp.txn.2.2 q hnoted (hid.trans (hE.all p hp.stored hp.type).2.symm)).1 hc
  have hlast : LastRedone s.bc.disk (70, 0) r := by
    refine ⟨⟨hmem, hw, ?_, newPatch_isSome.mp (by rw [hx]; rfl)⟩, fun p hp => ?_⟩
    · rw [(hE.all r hmem hw).2]
      exact ⟨by decide, q, hnoted, hid, hc⟩
    · rw [(hE.all p hp.stored hp.type).1, (hE.all r hmem hw).1]
  refine ⟨?_, by rw [← hs]; decide +kernel, ?_⟩
  · rintro ⟨p, hp, hpw, hlt, -⟩
    rw [(hE.all p hp hpw).1] at hlt
    exact absurd hlt (by decide)
  · have hrec := hlast.recovered hE.log.namesData hE.log.inPlace hnone
    exact (Option.some.inj (hx.symm.trans hrec)).symm

/-- The criterion at that run. -/
theorem checkpoint_bounds_replay_outsideByte :
    4 ∈ (blankSys.run outsideByte).core.quietLsns ∧
      (Bounded 4 (blankSys.run outsideByte).bc.disk ↔
        StaleAgree 4 (blankSys.run outsideByte).bc.disk) := by
  have hidle : Idle (freshManager 1 0 1) := MavWriteAhead.idle_freshManager 0 1 (by decide)
  have hfit : ∀ e ∈ (blankSys.run outsideByte).events, Fitting e := by decide +kernel
  have hquiet : 4 ∈ (blankSys.run outsideByte).core.quietLsns := by decide +kernel
  unfold blankSys at hfit hquiet ⊢
  exact ⟨hquiet, (checkpoint_bounds_replay_iff blankCache hidle
    (mounted_logInv _ hidle storedLog_blankDisk) outsideByte_regular hfit).2 4⟩

end MavCheckpoint
