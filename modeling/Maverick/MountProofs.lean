import Maverick.RecoverProofs

/-! # Mounting and shutting down the log

Sector 66 tells the next mount whether the last session ended in `wal_shutdown`: `wal_init(false)`
runs recovery when the magic is right and `clean_shutdown` is not 1. The flag is cleared by
`wal_init` and set by `wal_init_metadata` and `wal_shutdown`.

Two sessions never clear it so that the next mount sees it. The one that formats writes
`clean_shutdown = 1` and leaves it; the one that finds a wrong magic writes good metadata and then
the wrong one back over it. A crash in either is not detected. `recovery_runs_iff` says for every
history of sessions, wherever each one stopped, exactly when the next mount does what it should. -/

namespace MavMount

open MavBlock MavField MavRecord MavLog MavOverride MavRecover List

/-! ## The metadata sector -/

def walMetadataMagic : Nat := 0xDEADBEEF

/-- `meta.magic`. -/
def metaMagic (b : Block) : Nat := getLe b 0 4

/-- `meta.clean_shutdown`. -/
def metaClean (b : Block) : Nat := getLe b 4 4

/-- `meta.last_lsn`. -/
def metaLastLsn (b : Block) : Nat := getLe b 8 8

/-- `meta.last_txn_id`. -/
def metaLastTxnId (b : Block) : Nat := getLe b 16 4

/-- A metadata sector with these fields, over the padding of `b`. -/
def putMetadata (b : Block) (clean lastLsn lastTxnId : Nat) : Block :=
  putLe (putLe (putLe (putLe b 0 4 walMetadataMagic) 4 4 clean) 8 8 lastLsn) 16 4 lastTxnId

/-- What `wal_init_metadata` writes. -/
def formatMetadata : Block := putMetadata (fun _ => 0) 1 0 0

/-- The metadata read before, with `clean_shutdown = 0`. -/
def dirtyMetadata (b : Block) : Block := putLe b 4 4 0

/-- What `wal_shutdown` writes. -/
def shutdownMetadata (b : Block) (w : WalManager) : Block :=
  putMetadata b 1 (w.nextLsn - 1) (w.nextTxnId - 1)

def walInitMetadata (v : Device) : Device := v.write walMetadataSector formatMetadata

/-! ## `wal_init` and `wal_shutdown` -/

/-- The manager as `wal_init` leaves it, for the counters it chose. -/
def freshManager (nextLsn flushedLsn nextTxnId : Nat) : WalManager where
  nextLsn := nextLsn
  flushedLsn := flushedLsn
  nextTxnId := nextTxnId
  logBuffer := []
  activeTxns := []
  checkpointLsn := 0
  checkpointing := false
  checkpointPending := false

/-- The outcome of `wal_init`; `recovered` records whether `wal_recover` ran. -/
structure Mount where
  device : Device
  wal : WalManager
  recovered : Bool

/-- `wal_init`. `mallocOk` is passed on to `wal_recover`. -/
def walInit (format mallocOk : Bool) (v : Device) : Mount :=
  if format then ⟨v, freshManager 1 0 1, false⟩
  else
    let b := v.disk walMetadataSector
    if metaMagic b ≠ walMetadataMagic then
      let v := walInitMetadata v
      ⟨v.write walMetadataSector (dirtyMetadata b), freshManager 1 0 1, false⟩
    else if metaClean b ≠ 1 then
      let out := walRecover mallocOk v (freshManager 1 0 1)
      ⟨out.1.write walMetadataSector (dirtyMetadata b), out.2, true⟩
    else
      let w := if 0 < metaLastLsn b
        then freshManager (metaLastLsn b + 1) (metaLastLsn b) (metaLastTxnId b + 1)
        else freshManager 1 0 (metaLastTxnId b + 1)
      ⟨v.write walMetadataSector (dirtyMetadata b), w, false⟩

/-- Write records to their log sectors. -/
def storeAll (v : Device) (rs : List WalRecord) : Device :=
  rs.foldl (fun v r => v.write (logSector r.lsn) (bytesOf r)) v

def walShutdown (v : Device) (w : WalManager) : Device :=
  let v := storeAll v (walFlush w (w.nextLsn - 1)).1
  v.write walMetadataSector (shutdownMetadata (v.disk walMetadataSector) w)

/-! ## Fields of what is written -/

theorem metaMagic_putMetadata (b : Block) (c l t : Nat) :
    metaMagic (putMetadata b c l t) = walMetadataMagic := by
  simp (disch := omega) only [metaMagic, putMetadata, getLe_putLe_disjoint]
  exact getLe_putLe_of_lt _ (by omega) (by decide)

theorem metaClean_putMetadata (b : Block) {c : Nat} (l t : Nat) (hc : c < 256 ^ 4) :
    metaClean (putMetadata b c l t) = c := by
  simp (disch := omega) only [metaClean, putMetadata, getLe_putLe_disjoint]
  exact getLe_putLe_of_lt _ (by omega) hc

theorem metaMagic_dirtyMetadata (b : Block) : metaMagic (dirtyMetadata b) = metaMagic b :=
  getLe_putLe_disjoint (by omega)

theorem metaClean_dirtyMetadata (b : Block) : metaClean (dirtyMetadata b) = 0 :=
  getLe_putLe_of_lt _ (by omega) (by decide)

/-! ## When recovery runs -/

/-- The metadata says that the log is there. -/
def MetaValid (d : Disk) : Prop := metaMagic (d walMetadataSector) = walMetadataMagic
deriving Decidable

/-- The metadata says that the last session did not shut down. -/
def MetaDirty (d : Disk) : Prop := metaClean (d walMetadataSector) ≠ 1
deriving Decidable

theorem walInit_recovered (m : Bool) (v : Device) :
    (walInit false m v).recovered = true ↔ MetaValid v.disk ∧ MetaDirty v.disk := by
  unfold walInit MetaValid MetaDirty
  rw [if_neg Bool.false_ne_true]
  by_cases hm : metaMagic (v.disk walMetadataSector) ≠ walMetadataMagic
  · simp only [if_pos hm]
    exact ⟨fun h => Bool.noConfusion h, fun h => absurd h.1 hm⟩
  · by_cases hc : metaClean (v.disk walMetadataSector) ≠ 1
    · simp only [if_neg hm, if_pos hc]
      exact ⟨fun _ => ⟨Decidable.not_not.mp hm, hc⟩, fun _ => trivial⟩
    · simp only [if_neg hm, if_neg hc]
      exact ⟨fun h => Bool.noConfusion h, fun h => absurd h.2 hc⟩

/-- The log does not depend on its metadata. -/
theorem storedLog_write_metadata (d : Disk) (b : Block) :
    storedLog (blockWrite d walMetadataSector b) = storedLog d := by
  refine filterMap_congr ?_
  intro i hi
  have hne : walLogStartSector + i ≠ walMetadataSector := by
    have h64 : i < 64 := mem_range.mp hi
    show 2 + i ≠ 66
    omega
  unfold slotRecord
  rw [blockWrite_other hne]

variable {d d' : Disk}

theorem namesData_congr (h : storedLog d' = storedLog d) (hn : NamesData d) : NamesData d' := by
  intro r hr
  rw [h] at hr
  exact hn r hr

/-- The writes of `wal_init(false)`: some that leave the log and its metadata
    alone, or the one that restores good metadata, and then the dirty mark. -/
theorem walInit_writes (m : Bool) (hn : NamesData d) : ∃ ws, (walInit false m ⟨d, []⟩).device.writes
        = ws ++ [(walMetadataSector, dirtyMetadata (d walMetadataSector))] ∧
      (walInit false m ⟨d, []⟩).device.disk = replayWrites d (ws ++
        [(walMetadataSector, dirtyMetadata (d walMetadataSector))]) ∧
      ((MetaValid d ∧ ∀ k, SameLog d (replayWrites d (ws.take k))) ∨
        (¬ MetaValid d ∧ ws = [(walMetadataSector, formatMetadata)])) := by
  unfold walInit
  by_cases hm : metaMagic (d walMetadataSector) ≠ walMetadataMagic
  · simp only [if_pos hm]
    exact ⟨[(walMetadataSector, formatMetadata)], rfl, rfl, .inr ⟨hm, rfl⟩⟩
  have hv : MetaValid d := Decidable.not_not.mp hm
  by_cases hc : metaClean (d walMetadataSector) ≠ 1
  · simp only [if_neg hm, if_pos hc]
    obtain ⟨ws, hw, hd, hs⟩ := Grows.sameLog hn (v := ⟨d, []⟩) rfl
      (walRecover_frame m (v := ⟨d, []⟩) hn (freshManager 1 0 1)).2
    refine ⟨ws, ?_, ?_, .inl ⟨hv, hs⟩⟩
    · show (walRecover m ⟨d, []⟩ (freshManager 1 0 1)).1.writes ++ _ = _
      rw [hw]
      rfl
    · show blockWrite (walRecover m ⟨d, []⟩ (freshManager 1 0 1)).1.disk _ _ = _
      rw [hd, replayWrites_append]
      rfl
  · simp only [if_neg hm, if_neg hc]
    refine ⟨[], rfl, rfl, .inl ⟨hv, ?_⟩⟩
    intro k
    rw [take_nil]
    exact fun s _ => rfl

/-! ## Histories of sessions -/

/-- What a session does apart from its own metadata writes: anything that
    leaves the metadata sector alone and logs writes to data sectors only. -/
def Quiet (d d' : Disk) : Prop :=
  d' walMetadataSector = d walMetadataSector ∧ NamesData d'

/-- Where the last session stopped. -/
inductive LastSession where
  /-- formatting, before `wal_init_metadata` -/
  | formatEarly
  /-- in the formatting session, after `wal_init_metadata` -/
  | formatLate
  /-- in `wal_init(false)`, after `k` of its device writes -/
  | mountEarly (mallocOk : Bool) (k : Nat)
  /-- in a mounted session, after `wal_init(false)` -/
  | mountLate
  /-- after `wal_shutdown` -/
  | shutdown

/-- `History d0 d e`: a device can go through a history whose last session started on `d0`, stopped
    as `e` says and left `d`. The first session formats an arbitrary device. -/
inductive History : Disk → Disk → LastSession → Prop where
  | formatEarly {d d1 : Disk} : Quiet d d1 → History d d1 .formatEarly
  | formatLate {d d1 d2 : Disk} : Quiet d d1 →
      Quiet (walInitMetadata ⟨d1, []⟩).disk d2 → History d d2 .formatLate
  | formatShutdown {d d1 d2 : Disk} (w : WalManager) : Quiet d d1 →
      Quiet (walInitMetadata ⟨d1, []⟩).disk d2 →
      NamesData (walShutdown ⟨d2, []⟩ w).disk →
      History d (walShutdown ⟨d2, []⟩ w).disk .shutdown
  | mountEarly {d0 d : Disk} {e : LastSession} (m : Bool) (k : Nat) : History d0 d e →
      History d (replayWrites d ((walInit false m ⟨d, []⟩).device.writes.take k))
        (.mountEarly m k)
  | mountLate {d0 d d1 : Disk} {e : LastSession} (m : Bool) : History d0 d e →
      Quiet (walInit false m ⟨d, []⟩).device.disk d1 → History d d1 .mountLate
  | mountShutdown {d0 d d1 : Disk} {e : LastSession} (m : Bool) (w : WalManager) :
      History d0 d e → Quiet (walInit false m ⟨d, []⟩).device.disk d1 →
      NamesData (walShutdown ⟨d1, []⟩ w).disk →
      History d (walShutdown ⟨d1, []⟩ w).disk .shutdown

/-- The condition: the metadata the last session started on, and how far it
    came, let the next mount see the crash. -/
def Visible (d0 : Disk) : LastSession → Prop
  | .formatEarly => MetaValid d0 ∧ MetaDirty d0
  | .formatLate => False
  | .mountEarly m k => MetaValid d0 ∧
      (MetaDirty d0 ∨ (walInit false m ⟨d0, []⟩).device.writes.length ≤ k)
  | .mountLate => MetaValid d0
  | .shutdown => True

theorem metaValid_congr (h : d' walMetadataSector = d walMetadataSector) :
    (MetaValid d' ↔ MetaValid d) ∧ (MetaDirty d' ↔ MetaDirty d) := by
  unfold MetaValid MetaDirty
  rw [h]
  exact ⟨Iff.rfl, Iff.rfl⟩

theorem sameLog_metadata (h : SameLog d d') :
    d' walMetadataSector = d walMetadataSector := h _ (by decide)

theorem replayWrites_metadata (d : Disk) (b : Block) :
    replayWrites d [(walMetadataSector, b)] walMetadataSector = b :=
  blockWrite_same d walMetadataSector b

/-- Start-up stopped after `k` writes: the metadata, and the log unchanged. -/
theorem startup_stopped (m : Bool) (hn : NamesData d) (k : Nat) :
    NamesData (replayWrites d ((walInit false m ⟨d, []⟩).device.writes.take k)) ∧
    ((MetaValid (replayWrites d ((walInit false m ⟨d, []⟩).device.writes.take k)) ∧
      MetaDirty (replayWrites d ((walInit false m ⟨d, []⟩).device.writes.take k))) ↔
      MetaValid d ∧ (MetaDirty d ∨ (walInit false m ⟨d, []⟩).device.writes.length ≤ k)) := by
  obtain ⟨ws, hw, -, hcase⟩ := walInit_writes m hn
  rw [hw, length_append]
  show _ ∧ (_ ↔ _ ∧ (_ ∨ ws.length + 1 ≤ k))
  rcases Nat.lt_or_ge ws.length k with hk | hk
  · -- every write was made: the metadata is the one found, marked dirty
    have htake : (ws ++ [(walMetadataSector, dirtyMetadata (d walMetadataSector))]).take k
        = ws ++ [(walMetadataSector, dirtyMetadata (d walMetadataSector))] := by
      refine take_of_length_le ?_
      rw [length_append]
      exact hk
    rw [htake, replayWrites_append]
    constructor
    · refine namesData_congr (storedLog_write_metadata ..) ?_
      rcases hcase with ⟨-, hs⟩ | ⟨-, rfl⟩
      · have := hs ws.length
        rw [take_length] at this
        exact namesData_congr this.storedLog hn
      · exact namesData_congr (storedLog_write_metadata ..) hn
    · unfold MetaValid MetaDirty
      rw [replayWrites_metadata, metaMagic_dirtyMetadata, metaClean_dirtyMetadata]
      exact ⟨fun h => ⟨h.1, .inr hk⟩, fun h => ⟨h.1, by decide⟩⟩
  · rw [take_append_of_le_length hk]
    rcases hcase with ⟨hv, hs⟩ | ⟨hnv, rfl⟩
    · refine ⟨namesData_congr (hs k).storedLog hn, ?_⟩
      obtain ⟨hval, hdirty⟩ := metaValid_congr (sameLog_metadata (hs k))
      rw [hval, hdirty]
      constructor
      · rintro ⟨h1, h2⟩
        exact ⟨h1, .inl h2⟩
      · rintro ⟨h1, h2 | h2⟩
        · exact ⟨h1, h2⟩
        · omega
    -- the magic was wrong: after the first write the metadata looks clean
    cases k with
    | zero => exact ⟨hn, fun h => absurd h.1 hnv, fun h => absurd h.1 hnv⟩
    | succ k =>
      rw [take_succ_cons, take_nil]
      refine ⟨namesData_congr (storedLog_write_metadata ..) hn, ?_, fun h => absurd h.1 hnv⟩
      rintro ⟨-, h⟩
      exfalso
      refine h ?_
      exact metaClean_putMetadata _ 0 0 (by decide)

/-- After all of start-up the log is there and dirty exactly when its magic was right. -/
theorem startup_done (m : Bool) (hn : NamesData d) :
    (MetaValid (walInit false m ⟨d, []⟩).device.disk ∧
      MetaDirty (walInit false m ⟨d, []⟩).device.disk) ↔ MetaValid d := by
  obtain ⟨ws, hw, hd, -⟩ := walInit_writes m hn
  have h := (startup_stopped m hn (walInit false m ⟨d, []⟩).device.writes.length).2
  rw [take_length] at h
  rw [hd, ← hw, h]
  exact ⟨fun h => h.1, fun h => ⟨h, .inr (Nat.le_refl _)⟩⟩

theorem walShutdown_metadata (v : Device) (w : WalManager) :
    ¬ MetaDirty (walShutdown v w).disk := by
  refine fun h => h ?_
  exact metaClean_putMetadata _ _ _ (by decide)

/-- No history logs a write outside the data sectors. -/
theorem History.namesData {d0 : Disk} {e : LastSession} (h : History d0 d e) : NamesData d := by
  induction h with
  | formatEarly hq => exact hq.2
  | formatLate _ hq => exact hq.2
  | formatShutdown w _ _ hn => exact hn
  | mountEarly m k _ ih => exact (startup_stopped m ih k).1
  | mountLate m _ hq _ => exact hq.2
  | mountShutdown m w _ _ hn _ => exact hn

theorem crashed_iff {p : Prop} {e : LastSession} (he : e ≠ .shutdown) :
    (p ↔ e ≠ .shutdown) ↔ p :=
  ⟨fun h => h.mpr he, fun hp => ⟨fun _ => he, fun _ => hp⟩⟩

/-- **CRASH DETECTION**: after every history, `wal_init(false)` runs recovery
    exactly when the last session did not end in `wal_shutdown`, if and only if
    that session's crash is visible in the metadata. -/
theorem recovery_runs_iff (d0 d : Disk) (e : LastSession) (h : History d0 d e) (m : Bool) :
    ((walInit false m ⟨d, []⟩).recovered = true ↔ e ≠ .shutdown) ↔ Visible d0 e := by
  rw [walInit_recovered]
  cases h with
  | formatEarly hq =>
    obtain ⟨hval, hdirty⟩ := metaValid_congr hq.1
    rw [hval, hdirty]
    exact crashed_iff nofun
  | @formatLate _ d1 _ _ hq =>
    have hclean : ¬ MetaDirty d := by
      rw [(metaValid_congr hq.1).2]
      refine fun h => h ?_
      exact metaClean_putMetadata _ 0 0 (by decide)
    exact ⟨fun h => hclean (h.mpr LastSession.noConfusion).2, fun h => h.elim⟩
  | mountEarly m' k hprev =>
    rw [(startup_stopped m' hprev.namesData k).2]
    exact crashed_iff nofun
  | mountLate m' hprev hq =>
    obtain ⟨hval, hdirty⟩ := metaValid_congr hq.1
    rw [hval, hdirty, startup_done m' hprev.namesData]
    exact crashed_iff nofun
  | formatShutdown w _ _ _ | mountShutdown _ w _ _ _ =>
    exact ⟨fun _ => trivial, fun _ =>
      ⟨fun h => absurd h.2 (walShutdown_metadata _ w), fun h => absurd rfl h⟩⟩

/-! ## Two sessions whose crash is missed, one whose crash is seen -/

theorem startup_namesData (m : Bool) (hn : NamesData d) :
    NamesData (walInit false m ⟨d, []⟩).device.disk := by
  obtain ⟨ws, hw, hd, -⟩ := walInit_writes m hn
  have h := (startup_stopped m hn (walInit false m ⟨d, []⟩).device.writes.length).1
  rw [take_length, hw, ← hd] at h
  exact h

/-- A device of zeros. -/
def blankDisk : Disk := fun _ _ => 0

theorem storedLog_blankDisk : storedLog blankDisk = [] := by
  refine filterMap_eq_nil_iff.mpr ?_
  intro i _
  exact if_neg not_checksumOk_zero

theorem namesData_blankDisk : NamesData blankDisk := by
  intro r hr
  rw [storedLog_blankDisk] at hr
  exact nomatch hr

theorem quiet_blankDisk : Quiet blankDisk blankDisk := ⟨rfl, namesData_blankDisk⟩

theorem quiet_formatted : Quiet (walInitMetadata ⟨blankDisk, []⟩).disk
    (walInitMetadata ⟨blankDisk, []⟩).disk :=
  ⟨rfl, namesData_congr (storedLog_write_metadata ..) namesData_blankDisk⟩

/-- A formatted device after a shutdown with nothing logged. -/
def shutDownDisk : Disk :=
  (walShutdown ⟨(walInitMetadata ⟨blankDisk, []⟩).disk, []⟩ (freshManager 1 0 1)).disk

theorem history_shutDownDisk : History blankDisk shutDownDisk .shutdown :=
  History.formatShutdown (freshManager 1 0 1) quiet_blankDisk quiet_formatted
    (namesData_congr (storedLog_write_metadata ..) quiet_formatted.2)

theorem metaValid_shutDownDisk : MetaValid shutDownDisk := by
  exact metaMagic_putMetadata ..

/-- Format, shut down, mount, crash: the next mount recovers. -/
theorem recovery_runs_mounted :
    ∃ d, History shutDownDisk d .mountLate ∧ (walInit false true ⟨d, []⟩).recovered = true := by
  have hmount := History.mountLate true history_shutDownDisk
    ⟨rfl, startup_namesData true history_shutDownDisk.namesData⟩
  exact ⟨_, hmount, ((recovery_runs_iff shutDownDisk _ .mountLate hmount true).mpr
    metaValid_shutDownDisk).mpr LastSession.noConfusion⟩

/-- A crash in the formatting session is missed, and so is one in a session
    that found a wrong magic. -/
theorem recovery_missed :
    (∃ d, History blankDisk d .formatLate ∧ (walInit false true ⟨d, []⟩).recovered = false) ∧
    (∃ d, History blankDisk d .mountLate ∧ (walInit false true ⟨d, []⟩).recovered = false) := by
  constructor
  · refine ⟨_, History.formatLate quiet_blankDisk quiet_formatted, Bool.eq_false_iff.mpr ?_⟩
    intro hr
    refine ((walInit_recovered ..).mp hr).2 ?_
    exact metaClean_putMetadata _ 0 0 (by decide)
  · refine ⟨_, History.mountLate true (History.formatEarly quiet_blankDisk)
      ⟨rfl, startup_namesData true namesData_blankDisk⟩, Bool.eq_false_iff.mpr ?_⟩
    intro hr
    have hdirty := (walInit_recovered true _).mp hr
    exact absurd ((startup_done true namesData_blankDisk).mp hdirty) (by decide)

/-! ## Recovery cut off and started again -/

/-- Recovery is cut off after `c.2` of its device writes; `c.1` says whether the undo array could be
    allocated. -/
def cutOff (w : WalManager) (d : Disk) (c : Bool × Nat) : Disk :=
  replayWrites d ((walRecover c.1 ⟨d, []⟩ w).1.writes.take c.2)

/-- The devices differ in bytes that recovery replays and nowhere else. -/
def Resumes (d d' : Disk) : Prop := ∀ a, ¬ Replayed d a → toBytes d' a = toBytes d a

/-- The log is none of them. -/
theorem Resumes.sameLog (h : Resumes d d') (hn : NamesData d) : SameLog d d' :=
  fun s hs => funext fun i => h (s, i) fun hr => hs (hr.dataSector hn)

theorem Resumes.cutOff (h : Resumes d d') (hn : NamesData d) (w : WalManager) (c : Bool × Nat) :
    Resumes d (cutOff w d' c) := by
  intro a ha
  have hlog := (h.sameLog hn).storedLog
  obtain ⟨ws, hws, -, hkeep⟩ :=
    (walRecover_frame c.1 (v := ⟨d', []⟩) (namesData_congr hlog hn) w).2
  rw [MavMount.cutOff, hws]
  refine (hkeep c.2 a ?_).trans (h a ha)
  simpa only [Replayed, WinnerIn, LoserIn, notedLog, hlog] using ha

theorem walAnalyze_congr (h : SameLog d d') : walAnalyze d' = walAnalyze d := by
  rw [walAnalyze_eq, walAnalyze_eq, notedLog, notedLog, h.storedLog]

theorem Resumes.bytes (h : Resumes d d') (hn : NamesData d) (w : WalManager) :
    toBytes (walRecover true ⟨d', []⟩ w).1.disk = toBytes (walRecover true ⟨d, []⟩ w).1.disk := by
  have hlog := h.sameLog hn
  have hwrites : ∀ txns, writesOf txns d' = writesOf txns d := fun txns =>
    filterMap_congr fun _ hi => hlog.writeOf txns (mem_range.mp hi)
  have hundo : undoOrder d' = undoOrder d := by
    rw [undoOrder, undoOrder, undoRecords_eq, undoRecords_eq, walAnalyze_congr hlog, hwrites]
  rw [walRecover_bytes (v := ⟨d', []⟩) (namesData_congr hlog.storedLog hn),
    walRecover_bytes (v := ⟨d, []⟩) hn, hundo, walAnalyze_congr hlog, hwrites]
  funext a
  -- a replayed byte is decided by the log, any other is as it was
  by_cases ha : Replayed d a
  · obtain ⟨r, hr, hw, hwin | hlose, hc⟩ := ha
    · refine applyAll_congr_at (.inl (applyAll_congr_at (.inr ⟨r, ?_, newPatch_isSome.mpr hc⟩)))
      exact mem_writesOf.mpr ⟨hr, hw, (mem_committedTxns ..).mpr hwin⟩
    · exact applyAll_congr_at (.inr ⟨r, mem_undoOrder.mpr ⟨hr, hw, hlose⟩, oldPatch_isSome.mpr hc⟩)
  · exact applyAll_congr_at (.inl (applyAll_congr_at (.inl (h a ha))))

/-- **RECOVERY CAN BE STARTED AGAIN**: cut off any number of times, each time after any of its
    device writes, `wal_recover` ends with the bytes and the counters of a recovery that was never
    cut off. -/
theorem recovery_restartable (d : Disk) (hn : NamesData d) (w : WalManager)
    (cuts : List (Bool × Nat)) {d' : Disk} (hd : cuts.foldl (cutOff w) d = d') :
    toBytes (walRecover true ⟨d', []⟩ w).1.disk = toBytes (walRecover true ⟨d, []⟩ w).1.disk ∧
      (walRecover true ⟨d', []⟩ w).2 = (walRecover true ⟨d, []⟩ w).2 := by
  have h : Resumes d d' := hd ▸ foldlRecOn cuts (cutOff w) (motive := Resumes d) (fun _ _ => rfl)
    fun d' h c _ => h.cutOff hn w c
  refine ⟨h.bytes hn w, ?_⟩
  rw [walRecover, walRecover, walAnalyze_congr (h.sameLog hn)]

end MavMount
