import Maverick.CrashProofs
import Maverick.WriteAheadProofs

/-! # Crash consistency of whole runs

The rules of `WalRules` hold of the crash invariant, so that it holds in every run from a mount.
`crash_consistent` reads off what the claim of `wal.h` comes to: at every point at which memory may
be lost, recovery makes of the data sectors the initial bytes with the writes of the committed
transactions, and nothing else.

The conditions are needed: `crash_steals` is a run of three calls that leaves a byte of an open
transaction on disk with nothing to undo it. -/

namespace MavCrash

open MavBlock MavRecord MavLog MavRecover MavCache MavMount MavSystem MavOverride MavUndoRedo List
open MavRules MavRun

/-! ## The calls of a run -/

/-- Calls as the file system makes them: byte ranges inside data sectors,
    writes of a transaction that is active, and memory for an abort. -/
def Regular (k : Core) (op : Op) : Prop :=
  op.Legal ∧
    match op with
    | .write w => (findTxn k.wal w.txnId).isSome
    | .abort _ mallocLsns mallocRec => mallocLsns = true ∧ mallocRec = true
    | _ => True

/-- Two writes have a byte in common. -/
def Overlap (w w' : TxnWrite) : Prop := ∃ x, (w.patch x).isSome ∧ (w'.patch x).isSome

/-- Regular calls that write under transactions only, no two active ones to the same byte. -/
def Proper (k : Core) (op : Op) : Prop :=
  Regular k op ∧
    match op with
    | .write w => ∀ w' ∈ k.txnWrites, w'.txnId ≠ w.txnId → ¬ Overlap w w'
    | .plainWrite .. => False
    | _ => True

/-! ## The records of a run

What holds of every record that is stored holds of the log. -/

/-- The records of the log are in order and all satisfy `F`. -/
structure Entries (F : WalRecord → Prop) (d : Disk) (k : Core) : Prop where
  log : LogInv d k
  all : ∀ r ∈ storedLog d, F r

/-- What the device alone tells of it. -/
def Filed (F : WalRecord → Prop) (d : Disk) : Prop := InPlace d ∧ ∀ r ∈ storedLog d, F r

/-- The device is one that recovery can read. -/
def Readable (F : WalRecord → Prop) (d : Disk) (_ : Core) : Prop := Filed F d ∧ NamesData d

/-- The records stored for the first time satisfy `F`. -/
def Storing (F : WalRecord → Prop) (e : Event) : Prop :=
  match e.target with
  | .data _ _ => True
  | .record p => e.core.storedLsn < p.lsn → Fits p ∧ F p

/-- The phases need little: the transaction of a write in progress is active. -/
def entriesPhase (F : WalRecord → Prop) : Phase → Disk → Disk → Core → Prop
  | .logging w _, d, _, k => Entries F d k ∧ DataSector w.sector ∧
      RangeOk w.offset w.data.length ∧ w.txnId ∈ k.wal.activeTxns.map WalTxn.txnId
  | _, d, _, k => Entries F d k

section Entries

variable {F : WalRecord → Prop} {d v : Disk} {k : Core}

theorem Entries.of_log {k' : Core} (h : Entries F d k) (hlog : LogInv d k') : Entries F d k' :=
  ⟨hlog, h.all⟩

theorem entries_stable (F : WalRecord → Prop) :
    Stable (Storing F) (Readable F) fun d _ k => Entries F d k where
  log h := h.log
  good h := ⟨⟨h.log.inPlace, h.all⟩, h.log.namesData⟩
  store := by
    intro d v k p ps h hp hC
    obtain ⟨hf, hF⟩ := hC (h.log.head_lt hp)
    refine ⟨h.log.store hp hf, ?_⟩
    intro r hr
    rcases (h.log.mem_store hp hf).mp hr with ⟨hr, -⟩ | rfl
    · exact h.all r hr
    · exact hF
  back h hs _ := ⟨h.log.writeBack hs _, by rw [storedLog_write_data _ hs]; exact h.all⟩
  view h _ := h
  flushed _ h := h.of_log (h.log.of_same rfl rfl rfl rfl rfl)
  reset h hp := h.of_log (h.log.reset hp)

theorem entriesPhase_stable (F : WalRecord → Prop) (ph : Phase) :
    Stable (Storing F) (Readable F) (entriesPhase F ph) := by
  have hst := entries_stable F
  cases ph with
  | logging w recs =>
    exact stable_and hst fun _ _ txns => DataSector w.sector ∧
      RangeOk w.offset w.data.length ∧ w.txnId ∈ txns.map WalTxn.txnId
  | idle | plain t ofs data | undoing t => exact hst

/-- Appending a mark of transaction `t`. -/
theorem Entries.push_mark (h : Entries F d k) (hr : Ready k) (type : RecordType) {t : Nat}
    (hw : type ≠ .write) (hlt : t < k.wal.nextTxnId)
    (hpos : type = .commit ∨ type = .abort → 1 ≤ t) :
    Entries F d (Core.push k (markRecord type t)) :=
  h.of_log (h.log.copy hr.room rfl (fun hw' => absurd hw' hw) hlt
    (fun hor => hpos (hor.resolve_left hw)))

theorem writeOk_chunk {w : TxnWrite} {old : List UInt8} {r : WalRecord} (hc : ChunkOf w old r)
    (hd : DataSector w.sector) (hr : RangeOk w.offset w.data.length) (lsn : Nat) :
    WriteOk { r with lsn := lsn } := by
  obtain ⟨n, hofs, hlen, -⟩ := hc.part
  obtain ⟨hpos, hmax⟩ := hc.size
  refine ⟨?_, ?_, hmax⟩
  · rw [hc.sector]
    exact hd
  · show RangeOk r.offset r.length
    unfold RangeOk at hr ⊢
    omega

theorem entries_rules (F : WalRecord → Prop) :
    WalRules (Storing F) (Readable F) (fun _ k op => Regular k op) (entriesPhase F) where
  stable := entriesPhase_stable F
  condId _ h := h
  goodId _ h := h
  legal h := h.1
  active h := h.2
  memory h := h.2
  flags _ _ h := h.of_log (h.log.of_same rfl rfl rfl rfl rfl)
  begin h hr := h.of_log (h.log.begun hr.room)
  logStart h _ hG := ⟨h, hG.1.1, hG.1.2, findTxn_isSome.mp hG.2⟩
  logChunk := by
    rintro d v k w recs r ⟨h, hd, hr, hact⟩ hready hc
    obtain ⟨y, hy, hyt⟩ := mem_map.mp hact
    obtain ⟨hpos, hlt, -⟩ := h.log.txns y hy
    refine ⟨h.of_log (h.log.copy hready.room rfl (fun _ => writeOk_chunk hc hd hr _) ?_ ?_), hd, hr, ?_⟩
    · rw [hc.txnId, ← hyt]
      exact hlt
    · intro _
      rw [hc.txnId, ← hyt]
      exact hpos
    · rw [show (Core.push k r).wal.activeTxns = k.wal.activeTxns from (copyRecord_rest ..).1]
      exact hact
  lastLsn t n h := ⟨h.1.of_log (h.1.log.setLastLsn t n), h.2.1, h.2.2.1, by
    rw [setLastLsn_ids]; exact h.2.2.2⟩
  logEnd h _ _ := h.1.of_log (h.1.log.of_same rfl rfl rfl rfl rfl)
  plainStart h _ _ := h
  plainEnd h := h.of_log (h.log.of_same rfl rfl rfl rfl rfl)
  commitMark := by
    intro d v k x h hr hx
    obtain ⟨hpos, hlt, -⟩ := h.log.txns x hx
    exact h.push_mark hr .commit nofun hlt (fun _ => hpos)
  commitReturns := by
    intro d v k t h _ _
    exact h.of_log (h.log.remove t rfl rfl)
  checkpoint := by
    intro d v k h hr
    exact h.push_mark hr .checkpoint nofun h.log.idPos (fun hor => by simp at hor)
  checkpointed h _ _ _ := h.of_log (h.log.of_same rfl rfl rfl rfl rfl)
  undoStart h _ _ _ := h
  undoStep h _ := h.of_log (h.log.of_same rfl rfl rfl rfl rfl)
  undoEnd := by
    intro d v k x h hr _ hx _ _
    obtain ⟨hpos, hlt, -⟩ := h.log.txns x hx
    have hpush := h.push_mark hr .abort nofun hlt (fun _ => hpos)
    exact hpush.of_log (hpush.log.remove x.txnId rfl rfl)

end Entries

/-! ## The crash invariant in the phases of a call -/

/-- The invariant in each phase. No run of proper calls writes past the log. -/
def soundPhase (taint : Set Addr) : Phase → Disk → Disk → Core → Prop
  | .idle, d, v, k => Sound taint ∅ [] d v k
  | .logging w recs, d, v, k => Sound taint (bytesOfWrite w) recs d v k ∧ Writing w d k
  | .plain .., _, _, _ => False
  | .undoing t, d, v, k => Sound taint (bytesOfTxn d t) [] d v k ∧ Undoing t k

section Rules

variable {taint : Set Addr} {d v : Disk} {k : Core}

theorem soundPhase_stable (taint : Set Addr) (ph : Phase) :
    Stable Sheltered (Recovers taint) (soundPhase taint ph) := by
  cases ph with
  | idle => exact sound_stable taint ∅ []
  | logging w recs => exact writing_stable taint w recs
  | undoing t => exact undoing_stable taint t
  | plain t ofs data =>
    exact
      { log := fun h => h.elim
        good := fun h => h.elim
        store := fun h _ _ => h.elim
        back := fun h _ _ => h.elim
        view := fun h _ => h.elim
        flushed := fun _ h => h.elim
        reset := fun h _ => h.elim }

theorem Sound.logStart (h : Sound taint ∅ [] d v k) (hs : Settled k) {w : TxnWrite}
    (hG : Proper k (.write w)) :
    Sound taint (bytesOfWrite w) [] d v k ∧ Writing w d k := by
  obtain ⟨y, hy, hyt⟩ := mem_map.mp (findTxn_isSome.mp hG.1.2)
  refine ⟨h.enlarge _ hs.noCommit, hG.1.1.1, hG.1.1.2, ?_, ⟨hs.idle, hs.noCommit⟩, ?_⟩
  · exact (activeIds_of_none hs.idle).mpr ⟨y, hy, hyt⟩
  · -- a record of another active transaction comes from a write of it
    intro x hx r hr ha hrx
    obtain ⟨w', hw', hx'⟩ := h.made r hr ha x (Set.notMem_empty x) hrx
    obtain ⟨hw', ht'⟩ := mem_filter.mp hw'
    have ht'' : w'.txnId = r.txnId := of_decide_eq_true ht'
    by_contra hne
    exact hG.2 w' hw' (by rw [ht'']; exact hne) ⟨x, hx, hx'⟩

theorem activeIds_setLastLsn (k : Core) (t n : Nat) :
    activeIds { k with wal := setLastLsn k.wal t n } = activeIds k := by
  have hmem : ∀ (l : List WalTxn) (u : Nat),
      (∃ x ∈ l, x.txnId = u) ↔ u ∈ l.map WalTxn.txnId := fun l u => mem_map.symm
  ext u
  show ((∃ x ∈ (setLastLsn k.wal t n).activeTxns, x.txnId = u) ∧ _) ↔ _
  rw [hmem, setLastLsn_ids, ← hmem]
  rfl

theorem Sheltered.setNextTxnId {t : Target} (h : Sheltered ⟨d, k, t⟩) (n : Nat) :
    Sheltered ⟨d, { k with wal := { k.wal with nextTxnId := n } }, t⟩ := by
  cases t with
  | data s b => exact h
  | record p =>
    intro hlt
    obtain ⟨hf, hdrop, hcommit⟩ := h hlt
    refine ⟨hf, fun r hr hw => ?_, hcommit⟩
    have hok := hdrop r hr hw
    exact { hok with }

theorem sound_rules (taint : Set Addr) :
    WalRules Sheltered (Recovers taint) (fun _ k op => Proper k op) (soundPhase taint) where
  stable := soundPhase_stable taint
  condId n h := h.setNextTxnId n
  goodId _ h := h
  legal h := h.1.1
  active h := h.1.2
  memory h := h.1.2
  flags _ _ h := { h with log := h.log.of_same rfl rfl rfl rfl rfl }
  begin h hr := h.begins hr
  logStart h hs hG := h.logStart hs hG
  logChunk h hr hc := ⟨h.1.push_chunk h.2 hr hc, h.2.push h.1.log hc⟩
  lastLsn t n h := ⟨h.1.of_wal (h.1.log.setLastLsn t n) rfl (activeIds_setLastLsn _ t n) rfl,
    h.2.congr rfl rfl (activeIds_setLastLsn _ t n) rfl⟩
  logEnd h hchunk hcover := h.1.endWrite h.2 hchunk hcover _
  plainStart _ _ hG := hG.2
  plainEnd h := h.elim
  commitMark h hr hx := h.commitMark hr hx
  commitReturns h hc hp := h.commitReturns hc hp
  checkpoint h hr := h.checkpoint hr
  checkpointed h _ _ _ := { h with log := h.log.of_same rfl rfl rfl rfl rfl }
  undoStart h hs hp hx := h.undoStart hs hp hx
  undoStep h hkeep := ⟨h.1.undoStep h.2 _ hkeep, h.2.drained, h.2.calm, h.2.act⟩
  undoEnd h hr _ _ hclean hres := h.1.undoEnd h.2 hr hclean hres

end Rules

/-! ## Where a run starts -/

/-- A mount on whose disk recovery has nothing left to do, outside `taint`: the log is in order, its
    committed records show the bytes on disk and its losers' first old bytes are those on disk. -/
structure Start (taint : Set Addr) (c : BufferCache) (w : WalManager) : Prop where
  idle : Idle w
  log : LogInv c.disk (mounted c w).core
  crash : walSig.CrashInv 64 logSector (logState taint ∅ c.disk c.disk (mounted c w).core)

section Start

variable {taint : Set Addr} {c : BufferCache} {w : WalManager}

theorem Start.sound (h : Start taint c w) :
    Sound taint ∅ [] c.disk c.disk (mounted c w).core := by
  obtain ⟨hview, hdisk⟩ := h.crash.restart (dataBytes c.disk) fun x _ => rfl
  have hpend : (mounted c w).core.pending = [] := by
    show w.logBuffer.filter _ = []
    rw [h.idle.buffer]
    rfl
  have hact : activeIds (mounted c w).core = ∅ := by
    refine Set.eq_empty_iff_forall_notMem.mpr ?_
    rintro t ⟨⟨x, hx, -⟩, -⟩
    have hx' : x ∈ w.activeTxns := hx
    rw [h.idle.txns] at hx'
    exact nomatch hx'
  have hstate : logState taint ∅ c.disk c.disk (mounted c w).core
      = { logState taint ∅ c.disk c.disk (mounted c w).core with
          pending := [], active := ∅, disk := dataBytes c.disk, view := dataBytes c.disk,
          busy := ∅ } := by
    show LogState.mk _ _ _ _ _ _ _ _ _ = _
    rw [hpend, hact]
    rfl
  rw [← hstate] at hview hdisk
  have hnone : ∀ t, t ∉ activeIds (mounted c w).core := by
    intro t
    rw [hact]
    exact Set.notMem_empty t
  refine ⟨h.log, hview, hdisk, nofun, nofun,
    fun r _ ha => absurd ha (hnone _), fun t ht => absurd ht (hnone t), ?_,
    nofun⟩
  rw [hpend]
  exact nofun

/-- An empty log is a start. -/
theorem start_of_blank (taint : Set Addr) (c : BufferCache) {w : WalManager} (hw : Idle w)
    (hblank : storedLog c.disk = []) : Start taint c w := by
  have hnone : ∀ r, r ∉ (logState taint ∅ c.disk c.disk (mounted c w).core).stored := by
    intro r hr
    have hr' : r ∈ storedLog c.disk := hr
    rw [hblank] at hr'
    exact nomatch hr'
  exact ⟨hw, mounted_logInv c hw hblank,
    fun r hr => absurd hr (hnone r), fun r hr => absurd hr (hnone r),
    fun e he => absurd he (hnone e), fun _ _ r hr => absurd hr.1 (hnone r),
    fun _ r hr => absurd hr (hnone r), fun _ _ r hr => absurd hr (hnone r),
    fun _ _ => Or.inl rfl⟩

theorem Start.driven (h : Start taint c w) :
    Driven Sheltered (Recovers taint) (soundPhase taint .idle) (mounted c w) :=
  driven_mounted c h.idle (soundPhase_stable taint .idle).ofData h.sound

end Start

/-! ## One transaction on an empty log -/

/-- A record of transaction `t` in the first lap of the ring. -/
def FirstLap (t : Nat) (r : WalRecord) : Prop := 1 ≤ r.lsn ∧ r.lsn ≤ 64 ∧ r.txnId = t
deriving Decidable

instance (F : WalRecord → Prop) [DecidablePred F] : (e : Event) → Decidable (Storing F e)
  | ⟨_, _, .data _ _⟩ | ⟨_, _, .record _⟩ => by unfold Storing; infer_instance

/-- Nothing is overwritten, and no sector goes to disk before its records. -/
def Gentle (e : Event) : Prop :=
  match e.target with
  | .data s _ => ∀ r ∈ e.core.pending, r.type = .write → r.sector ≠ s
  | .record p => e.core.storedLsn < p.lsn →
      (slotRecord e.disk ((p.lsn - 1) % walLogSectors)).isNone

instance : (e : Event) → Decidable (Gentle e)
  | ⟨_, _, .data _ _⟩ | ⟨_, _, .record _⟩ => by unfold Gentle; infer_instance

theorem FirstLap.commitOk {d : Disk} {p : WalRecord} (h : Filed (FirstLap p.txnId) d)
    (hp : p ∈ storedLog d) (hc : p.type = .commit) : CommitOk d p := by
  constructor
  · intro r hr q hq _ _ x _ _ _ _ hlt
    obtain ⟨hr1, hr2, -⟩ := h.2 r hr
    obtain ⟨hq1, hq2, -⟩ := h.2 q hq
    show 2 + (r.lsn - 1) % 64 < 2 + (q.lsn - 1) % 64
    omega
  · intro r hr q _ _ _ x _ _ _ hlose
    obtain ⟨hp1, -⟩ := h.2 p hp
    have hnoted : p ∈ notedLog d := mem_filter.mpr ⟨hp, decide_eq_true (by omega)⟩
    exact (hlose.2.2 p hnoted (h.2 r hr).2.2.symm).1 hc

theorem sheltered_firstLap {t : Nat} {e : Event} (hS : Storing (FirstLap t) e) (hG : Gentle e)
    (hF : Filed (FirstLap t) e.diskAfter) : Sheltered e := by
  obtain ⟨d, k, target⟩ := e
  cases target with
  | data s b => exact hG
  | record p =>
    intro hlt
    obtain ⟨hf, hlap⟩ := hS hlt
    refine ⟨hf, ?_, fun hc => ?_⟩
    · intro r hr
      have hnone : slotRecord d ((p.lsn - 1) % walLogSectors) = none :=
        Option.isNone_iff_eq_none.mp (hG hlt)
      rw [show slotRecord d ((p.lsn - 1) % walLogSectors) = none from hnone] at hr
      exact nomatch hr
    · refine FirstLap.commitOk (by rw [hlap.2.2]; exact hF) ?_ hc
      exact mem_storedLog.mpr ⟨(p.lsn - 1) % walLogSectors, Nat.mod_lt _ (by decide),
        slotRecord_store_same hf rfl⟩

/-- The records of a run of regular calls. -/
theorem entries_run (c : BufferCache) {w : WalManager} (hw : Idle w) {F : WalRecord → Prop}
    (h : Entries F c.disk (mounted c w).core) {ops : List Op}
    (hops : Guarded sysStep (fun s op => Regular s.core op) (mounted c w) ops)
    (hS : ∀ e ∈ ((mounted c w).run ops).events, Storing F e) :
    (∀ e ∈ ((mounted c w).run ops).events, Filed F e.diskAfter ∧ NamesData e.diskAfter) ∧
      Entries F ((mounted c w).run ops).bc.disk ((mounted c w).run ops).core := by
  have hstart : Driven (Storing F) (Readable F) (entriesPhase F .idle) (mounted c w) :=
    driven_mounted c hw (entriesPhase_stable F .idle).ofData h
  obtain ⟨-, hp, hev⟩ := ((entries_rules F).run hstart hops).safe hS
  exact ⟨hev, hp⟩

theorem entries_blank (F : WalRecord → Prop) {c : BufferCache} {w : WalManager} (hw : Idle w)
    (hblank : storedLog c.disk = []) : Entries F c.disk (mounted c w).core := by
  refine ⟨mounted_logInv c hw hblank, ?_⟩
  rw [hblank]
  exact nofun

/-! ## Every run, every crash point -/

/-- The run as the caller sees it: every call proper in the state it is made. -/
def ProperRun (s : Sys) (ops : List Op) : Prop :=
  Guarded sysStep (fun s op => Proper s.core op) s ops

/-- What recovery is to leave: the initial bytes with the writes `ws`. -/
def Restores (d : Disk) (k : Core) (ws : List TxnWrite) : Prop :=
  ∀ x, DataSector x.1 → recovered d x = applyAll TxnWrite.patch k.initial ws x

/-- Crash consistency at a point of a run: recovery restores exactly the writes of the transactions
    whose `wal_txn_commit` has returned. Between the moment a `WAL_COMMIT` is in the log and the
    return of its call, the writes of that one transaction are restored as well. -/
def Consistent (d : Disk) (k : Core) : Prop :=
  (k.committing = none → Restores d k k.committedWrites) ∧
    ∀ t, k.committing = some t → Restores d k (k.committedWrites ++ k.writesBy t)

theorem Recovers.consistent {d : Disk} {k : Core} (h : Recovers ∅ d k) : Consistent d k := by
  have hall : ∀ x, DataSector x.1 → recovered d x = k.durable x :=
    fun x hx => h x hx fun hex => hex.1
  unfold Core.durable Core.durableWrites at hall
  constructor
  · intro hc
    rw [hc] at hall
    exact hall
  · intro t hc
    rw [hc] at hall
    exact hall

/-- **CRASH CONSISTENCY**: in every run of proper calls from a mount with
    nothing to recover, whose device writes are sheltered, no `ASSERT` of the
    cache is reached, and a crash after any device write, or at the end of the
    run, is recovered from. -/
theorem crash_consistent (c : BufferCache) (w : WalManager) (ops : List Op)
    (hstart : Start ∅ c w) (hops : ProperRun (mounted c w) ops)
    (hC : ∀ e ∈ ((mounted c w).run ops).events, Sheltered e) :
    ((mounted c w).run ops).panicked = false ∧
      (∀ e ∈ ((mounted c w).run ops).events, Consistent e.diskAfter e.coreAfter) ∧
      Consistent ((mounted c w).run ops).bc.disk ((mounted c w).run ops).core := by
  obtain ⟨hg, hp, hev⟩ := ((sound_rules ∅).run hstart.driven hops).safe hC
  exact ⟨hg.calm, fun e he => (hev e he).consistent, (Sound.recovers hp).consistent⟩

theorem guarded_cons {G : Sys → Op → Prop} {s : Sys} {op : Op} {ops : List Op} (h : G s op)
    (hs : Guarded sysStep G (s.step op) ops) : Guarded sysStep G s (op :: ops) := by
  refine ⟨h, ?_⟩
  intro s' hstep
  rw [← Option.some.inj hstep]
  exact hs

/-- A transaction that writes a byte and commits before anything is flushed. -/
def committedByte : List Op := [.begin true, .write MavWriteAhead.oneByte, .commit 1, .cacheFlush]

theorem committedByte_proper :
    ProperRun (mounted blankCache (freshManager 1 0 1)) committedByte := by
  refine guarded_cons ⟨⟨trivial, trivial⟩, trivial⟩ (guarded_cons ⟨⟨?_, ?_⟩, ?_⟩
    (guarded_cons ⟨⟨trivial, trivial⟩, trivial⟩ (guarded_cons ⟨⟨trivial, trivial⟩, trivial⟩
      trivial)))
  · decide
  · decide +kernel
  · exact nofun

theorem committedByte_sheltered :
    ∀ e ∈ ((mounted blankCache (freshManager 1 0 1)).run committedByte).events, Sheltered e := by
  have hstore : ∀ e ∈ ((mounted blankCache (freshManager 1 0 1)).run committedByte).events,
      Storing (FirstLap 1) e := by decide +kernel
  have hgentle : ∀ e ∈ ((mounted blankCache (freshManager 1 0 1)).run committedByte).events,
      Gentle e := by decide +kernel
  have hidle := MavWriteAhead.idle_freshManager 0 1 (by decide)
  have hfiled := (entries_run blankCache hidle (entries_blank _ hidle storedLog_blankDisk)
    (guarded_imp (fun _ _ h => h.1) committedByte_proper) hstore).1
  exact fun e he => sheltered_firstLap (hstore e he) (hgentle e he) (hfiled e he).1

theorem crash_consistent_committedByte :
    Consistent ((mounted blankCache (freshManager 1 0 1)).run committedByte).bc.disk
      ((mounted blankCache (freshManager 1 0 1)).run committedByte).core :=
  (crash_consistent blankCache (freshManager 1 0 1) committedByte
    (start_of_blank ∅ blankCache (MavWriteAhead.idle_freshManager 0 1 (by decide))
      storedLog_blankDisk) committedByte_proper committedByte_sheltered).2.2

/-- A transaction whose byte is flushed while it is open. -/
def stolenByte : List Op := [.begin true, .write MavWriteAhead.oneByte, .cacheFlush]

theorem stolenByte_proper :
    ProperRun (mounted blankCache (freshManager 1 0 1)) stolenByte := by
  refine guarded_cons ⟨⟨trivial, trivial⟩, trivial⟩ (guarded_cons ⟨⟨?_, ?_⟩, ?_⟩
    (guarded_cons ⟨⟨trivial, trivial⟩, trivial⟩ trivial))
  · decide
  · decide +kernel
  · exact nofun

/-- No record of it reaches the log. -/
theorem stolenByte_storedLog :
    storedLog ((mounted blankCache (freshManager 1 0 1)).run stolenByte).bc.disk = [] := by
  have hstore : ∀ e ∈ ((mounted blankCache (freshManager 1 0 1)).run stolenByte).events,
      Storing (fun _ => False) e := by decide +kernel
  have hidle := MavWriteAhead.idle_freshManager 0 1 (by decide)
  have hfiled := (entries_run blankCache hidle (entries_blank _ hidle storedLog_blankDisk)
    (guarded_imp (fun _ _ h => h.1) stolenByte_proper) hstore).2
  exact eq_nil_iff_forall_not_mem.mpr hfiled.all

/-- The byte of the open transaction is on disk, and recovery leaves it there. -/
theorem crash_steals :
    ProperRun (mounted blankCache (freshManager 1 0 1)) stolenByte ∧
      ¬ Consistent ((mounted blankCache (freshManager 1 0 1)).run stolenByte).bc.disk
        ((mounted blankCache (freshManager 1 0 1)).run stolenByte).core := by
  refine ⟨stolenByte_proper, fun h => ?_⟩
  have hlog := stolenByte_storedLog
  generalize hs : (mounted blankCache (freshManager 1 0 1)).run stolenByte = s at h hlog
  have hdisk : s.bc.disk 70 0 = 7 := by rw [← hs]; decide +kernel
  have hcom : s.core.committing = none := by rw [← hs]; decide +kernel
  have hwrites : s.core.committedWrites = [] :=
    isEmpty_iff.mp (by rw [← hs]; decide +kernel)
  have hinit : s.core.initial (70, 0) = 0 := by rw [← hs]; decide +kernel
  have hnone : ∀ r, r ∉ storedLog s.bc.disk := by rw [hlog]; exact nofun
  have hrec : recovered s.bc.disk (70, 0) = s.bc.disk 70 0 :=
    recover_untouched (v := ⟨s.bc.disk, []⟩) (fun r hr => absurd hr (hnone r))
      (freshManager 1 0 1) (fun ⟨r, hr, _⟩ => hnone r hr)
  have hzero := h.1 hcom (70, 0) (by decide)
  rw [hwrites, hrec, hdisk] at hzero
  exact absurd (hzero.trans hinit) (by decide)

end MavCrash
