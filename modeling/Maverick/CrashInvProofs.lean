import Maverick.MountProofs
import Maverick.UndoRedoProofs
import Maverick.WalCallProofs

/-! # Crash invariant — the log of the system as an undo/redo log

The log sectors, the buffer and the data bytes of a running system are read as a state of the
undo/redo library. `Sound` is the library's invariant there, together with what ties the records of
an active transaction to the writes its caller made.

Every `block_write` keeps it under the condition `Sheltered`: data go to disk behind their records,
no record that recovery still needs is overwritten, and at a commit the ring holds the records on
the committed bytes in order, with no loser among them. What follows from it at any moment is
`Recovers`: recovery makes of the device exactly the durable bytes. -/

namespace MavCrash

open MavBlock MavRecord MavLog MavRecover MavCache MavMount MavSystem MavOverride MavUndoRedo List

/-! ## The system as an undo/redo log -/

def kindOf : RecordType → Kind
  | .write => .write
  | .commit => .commit
  | .abort => .abort
  | .invalid | .begin | .checkpoint => .mark

/-- How the records of `wal.c` are read. -/
def walSig : LogSig WalRecord Addr UInt8 where
  lsn := WalRecord.lsn
  txn := WalRecord.txnId
  kind r := kindOf r.type
  old := oldPatch
  new := newPatch

variable {t : RecordType} {r : WalRecord} {x : Addr}

@[simp] theorem kindOf_write : kindOf t = .write ↔ t = .write := by
  cases t <;> simp [kindOf]

@[simp] theorem kindOf_commit : kindOf t = .commit ↔ t = .commit := by
  cases t <;> simp [kindOf]

@[simp] theorem kindOf_abort : kindOf t = .abort ↔ t = .abort := by
  cases t <;> simp [kindOf]

theorem walSig_covers : walSig.Covers r x ↔ r.type = .write ∧ Covers r x :=
  and_congr kindOf_write newPatch_isSome

theorem walSig_ends : walSig.Ends r ↔ r.type = .commit ∨ r.type = .abort :=
  or_congr kindOf_commit kindOf_abort

/-- The transactions that are active; one whose commit record is in the log is
    not, even while its `wal_txn_commit` runs. -/
def activeIds (k : Core) : Set Nat :=
  {t | (∃ x ∈ k.wal.activeTxns, x.txnId = t) ∧ k.committing ≠ some t}

/-- The bytes of `taint` that no durable write has settled. -/
def exempt (taint : Set Addr) (k : Core) : Set Addr :=
  {x | x ∈ taint ∧ ∀ w ∈ k.durableWrites, w.patch x = none}

/-- The device `d`, the view `v` of the cache and the manager as a state of the library. -/
def logState (taint busy : Set Addr) (d v : Disk) (k : Core) :
    LogState WalRecord Addr UInt8 where
  stored := {r | r ∈ storedLog d}
  pending := k.pending
  top := k.storedLsn
  active := activeIds k
  disk := dataBytes d
  view := dataBytes v
  durable := k.durable
  exempt := exempt taint k
  busy := busy

/-- A record of the log, stored or waiting. -/
def Logged (d : Disk) (k : Core) (r : WalRecord) : Prop := r ∈ storedLog d ∨ r ∈ k.pending

theorem won_iff {d : Disk} {k : Core} (h : LogInv d k) {taint busy : Set Addr}
    {v : Disk} {t : Nat} : walSig.Won (logState taint busy d v k) t ↔ WinnerIn d t := by
  constructor
  · rintro ⟨e, he, rfl, hk⟩
    have hc := kindOf_commit.mp hk
    have hpos := (h.txnIds e (.inl he)).2 (.inr (.inl hc))
    refine ⟨?_, e, h.mem_notedLog_iff.mpr he, rfl, hc⟩
    exact Nat.pos_iff_ne_zero.mp hpos
  · rintro ⟨-, e, he, ht, hc⟩
    exact ⟨e, h.mem_notedLog_iff.mp he, ht, kindOf_commit.mpr hc⟩

theorem loser_iff {d : Disk} {k : Core} (h : LogInv d k) {taint busy : Set Addr}
    {v : Disk} (hr : r ∈ storedLog d) (hw : r.type = .write) :
    ¬ walSig.Ended (logState taint busy d v k) r.txnId ↔ LoserIn d r.txnId := by
  constructor
  · intro hne
    have hpos := (h.txnIds r (.inl hr)).2 (.inl hw)
    refine ⟨Nat.pos_iff_ne_zero.mp hpos, ⟨r, h.mem_notedLog_iff.mpr hr, rfl⟩, ?_⟩
    intro e he ht
    refine ⟨fun hc => hne ?_, fun ha => hne ?_⟩
    · exact ⟨e, h.mem_notedLog_iff.mp he, ht, walSig_ends.mpr (.inl hc)⟩
    · exact ⟨e, h.mem_notedLog_iff.mp he, ht, walSig_ends.mpr (.inr ha)⟩
  · rintro ⟨-, -, hall⟩ ⟨e, he, ht, hends⟩
    obtain ⟨hc, ha⟩ := hall e (h.mem_notedLog_iff.mpr he) ht
    exact (walSig_ends.mp hends).elim hc ha

/-! ## The condition on device writes -/

/-- What the record about to be overwritten may be, if it is a `WAL_WRITE` of another LSN: none of
    an active transaction; of a winner only if its bytes are on disk or a younger record takes care
    of them; of a loser only if no younger record of it is on the same byte, or `p` ends it. -/
structure DropOk (d : Disk) (k : Core) (p r : WalRecord) : Prop where
  active : r.txnId ∉ activeIds k
  winner : WinnerIn d r.txnId → ∀ x, Covers r x → newPatch r x = some (dataBytes d x) ∨
    ∃ q ∈ storedLog d, r.lsn < q.lsn ∧ q.type = .write ∧ Covers q x ∧
      (WinnerIn d q.txnId ∨ q.txnId ∈ activeIds k)
  loser : LoserIn d r.txnId → ¬ ((p.type = .commit ∨ p.type = .abort) ∧ p.txnId = r.txnId) →
    ∀ q ∈ storedLog d, q.type = .write → q.txnId = r.txnId → r.lsn < q.lsn →
      ∀ x, Covers q x → ¬ Covers r x

/-- The log a commit `p` leaves, on the bytes of its transaction: younger
    committed records sit in later slots, and no loser has a record there. -/
structure CommitOk (d : Disk) (p : WalRecord) : Prop where
  order : ∀ r ∈ storedLog d, ∀ q ∈ storedLog d, r.type = .write → q.type = .write →
    ∀ x, Covers r x → Covers q x → q.txnId = p.txnId → WinnerIn d r.txnId →
      r.lsn < q.lsn → logSector r.lsn < logSector q.lsn
  stale : ∀ r ∈ storedLog d, ∀ q ∈ storedLog d, r.type = .write → q.type = .write →
    ∀ x, Covers r x → Covers q x → q.txnId = p.txnId → ¬ LoserIn d r.txnId

/-- The condition on a device write. A data sector goes to disk only when no
    `WAL_WRITE` in the buffer names it. A record stored for the first time has
    numbers that fit their fields, overwrites nothing recovery needs, and if it
    is a commit leaves the log in order on its bytes. -/
def Sheltered (e : Event) : Prop :=
  match e.target with
  | .data s _ => ∀ r ∈ e.core.pending, r.type = .write → r.sector ≠ s
  | .record p => e.core.storedLsn < p.lsn → Fits p ∧
      (∀ r ∈ slotRecord e.disk ((p.lsn - 1) % walLogSectors), r.type = .write →
        DropOk e.disk e.core p r) ∧
      (p.type = .commit → CommitOk e.diskAfter p)

/-! ## What recovery is to restore -/

/-- The data bytes `wal_recover` leaves on a device, when its allocation succeeds. -/
def recovered (d : Disk) : Addr → UInt8 :=
  toBytes (walRecover true ⟨d, []⟩ (freshManager 1 0 1)).1.disk

/-- Recovery makes the durable bytes of the device, outside the exempt ones. -/
def Recovers (taint : Set Addr) (d : Disk) (k : Core) : Prop :=
  ∀ x, DataSector x.1 → x ∉ exempt taint k → recovered d x = k.durable x

/-! ## The invariant -/

/-- The invariant of a running system. `busy` are bytes whose view is being changed by the call in
    progress, and `recs` the records this call has made; both are empty between calls.
    - `ids`: the writes are of transactions that have begun;
    - `known`: every write of an active transaction has its records;
    - `made`: every record of an active transaction comes from one of its writes;
    - `value`: the writes of an active transaction are what the view shows;
    - `commits`: at most one commit waits, and only while none is on its way;
    - `young`: the records just made are the last of their transaction. -/
structure Sound (taint busy : Set Addr) (recs : List WalRecord) (d v : Disk) (k : Core) :
    Prop where
  log : LogInv d k
  view : walSig.ViewInv 64 logSector (logState taint busy d v k)
  disk : walSig.DiskInv (logState taint busy d v k)
  ids : ∀ w ∈ k.txnWrites, w.txnId < k.wal.nextTxnId
  known : ∀ w ∈ k.txnWrites, w.txnId ∈ activeIds k → ∀ x, (w.patch x).isSome →
    ∃ r, Logged d k r ∧ r.txnId = w.txnId ∧ walSig.Covers r x
  made : ∀ r, Logged d k r → r.txnId ∈ activeIds k → ∀ x, x ∉ busy → walSig.Covers r x →
    ∃ w ∈ k.writesBy r.txnId, (w.patch x).isSome
  value : ∀ t ∈ activeIds k, ∀ x, x ∉ busy → (∃ w ∈ k.writesBy t, (w.patch x).isSome) →
    ∀ f, applyAll TxnWrite.patch f (k.writesBy t) x = dataBytes v x
  commits : ∀ p ∈ k.pending, p.type = .commit → busy = ∅ ∧ recs = [] ∧ k.committing = none ∧
    ∀ q ∈ k.pending, q.type = .commit → q = p
  young : ∀ r ∈ recs, r.txnId ∈ activeIds k ∧ r.type = .write ∧ Logged d k r ∧
    ∀ q, Logged d k q → q.txnId = r.txnId → q ∈ recs ∨ q.lsn < r.lsn

section Device

variable {taint busy : Set Addr} {recs : List WalRecord} {d v : Disk} {k : Core}
  {p : WalRecord} {ps : List WalRecord}

/-- The device with a record in its slot. -/
abbrev storeRecord (d : Disk) (p : WalRecord) : Disk :=
  blockWrite d (logSector p.lsn) (bytesOf p)

theorem dataBytes_store (d : Disk) (p : WalRecord) :
    dataBytes (storeRecord d p) = dataBytes d := by
  refine dataBytes_congr ?_
  intro s hs
  refine blockWrite_other ?_
  rintro rfl
  exact not_dataSector_logSector p.lsn hs

/-- The record one lap older than the next one is in the slot it goes to. -/
theorem slot_of_lap (h : LogInv d k) (hr : r ∈ storedLog d) (hlap : r.lsn + 64 = p.lsn) :
    slotRecord d ((p.lsn - 1) % walLogSectors) = some r := by
  obtain ⟨i, hi, hslot⟩ := mem_storedLog.mp hr
  have hplace := h.inPlace i r hi hslot
  have hpos := (h.ring r hr).1
  have hplace' : (r.lsn - 1) % 64 = i := Nat.add_left_cancel hplace
  have hi' : (p.lsn - 1) % walLogSectors = i := by
    show (p.lsn - 1) % 64 = i
    omega
  rw [hi']
  exact hslot

theorem safeDrop (h : LogInv d k) (taint busy : Set Addr) (v : Disk) (hdrop : ∀ r ∈ slotRecord d ((p.lsn - 1) % walLogSectors),
    r.type = .write → DropOk d k p r) :
    walSig.SafeDrop 64 (logState taint busy d v k) p := by
  have hslot : ∀ r ∈ storedLog d, r.lsn + 64 = p.lsn → r.type = .write → DropOk d k p r :=
    fun r hr hlap hw => hdrop r (slot_of_lap h hr hlap) hw
  refine ⟨?_, ?_, ?_⟩
  · intro r hr hlap hk
    exact (hslot r hr hlap (kindOf_write.mp hk)).active
  · intro r hr hlap hwon x _ hrx
    obtain ⟨hw, hc⟩ := walSig_covers.mp hrx
    rcases (hslot r hr hlap hw).winner ((won_iff h).mp hwon) x hc with hd | ⟨q, hq, hlt, hqw, hqc, hor⟩
    · exact .inl hd
    · refine .inr ⟨q, hq, hlt, walSig_covers.mpr ⟨hqw, hqc⟩, ?_⟩
      exact hor.imp (won_iff h).mpr id
  · intro r hr hlap hne hpend x q hq hqt hlt hqx hrx
    obtain ⟨hw, hc⟩ := walSig_covers.mp hrx
    obtain ⟨hqw, hqc⟩ := walSig_covers.mp hqx
    refine (hslot r hr hlap hw).loser ((loser_iff h hr hw).mp hne) ?_ q hq hqw hqt hlt x hqc hc
    rintro ⟨hends, ht⟩
    exact hpend ⟨walSig_ends.mpr hends, ht⟩

/-! ## Storing a record -/

/-- The stored records after the head of the queue is stored. -/
theorem stored_after (h : LogInv d k) (hp : k.pending = p :: ps) (hf : Fits p)
    (taint busy : Set Addr) (v : Disk) :
    {r | r ∈ storedLog (storeRecord d p)}
      = (walSig.store 64 (logState taint busy d v k) p ps).stored := by
  ext r
  exact h.mem_store hp hf

theorem after_committing (hlt : k.storedLsn < p.lsn) :
    (k.after (.record p)).committing = if p.type = .commit then some p.txnId
      else k.committing := by
  show (if p.type = .commit ∧ k.storedLsn < p.lsn then _ else _) = _
  by_cases hc : p.type = .commit
  · rw [if_pos ⟨hc, hlt⟩, if_pos hc]
  · rw [if_neg fun h => hc h.1, if_neg hc]

theorem logState_store_mark (h : LogInv d k) (hp : k.pending = p :: ps) (hf : Fits p)
    (hk : p.type ≠ .commit) (taint busy : Set Addr) (v : Disk) :
    logState taint busy (storeRecord d p) v (k.after (.record p))
      = walSig.store 64 (logState taint busy d v k) p ps := by
  have hcore : k.after (.record p) = { k with storedLsn := p.lsn } := by
    rw [after_record_mark fun hc => hk hc.1, if_pos (h.head_lt hp)]
  have hpend := h.pending_store hp
  rw [hcore] at hpend ⊢
  show LogState.mk _ _ _ _ _ _ _ _ _ = _
  rw [stored_after h hp hf taint busy v, dataBytes_store, hpend]
  rfl

theorem activeIds_of_none (hc : k.committing = none) {t : Nat} :
    t ∈ activeIds k ↔ ∃ x ∈ k.wal.activeTxns, x.txnId = t := by
  refine ⟨fun h => h.1, fun h => ⟨h, ?_⟩⟩
  rw [hc]
  exact nofun

/-- Storing a record makes no new ones. -/
theorem logged_of_store (h : LogInv d k) (hp : k.pending = p :: ps) (hf : Fits p)
    (hr : Logged (storeRecord d p) (k.after (.record p)) r) : Logged d k r := by
  unfold Logged at hr ⊢
  rw [h.mem_store hp hf, h.pending_store hp] at hr
  rw [hp]
  rcases hr with (⟨hr, -⟩ | rfl) | hr
  · exact .inl hr
  · exact .inr (mem_cons_self ..)
  · exact .inr (mem_cons_of_mem _ hr)

/-- The writes of active transactions stay in the log. -/
theorem logged_store (h : LogInv d k) (hp : k.pending = p :: ps) (hf : Fits p)
    (hsafe : walSig.SafeDrop 64 (logState taint busy d v k) p)
    (hr : Logged d k r) (hw : r.type = .write) (ha : r.txnId ∈ activeIds k) :
    Logged (storeRecord d p) (k.after (.record p)) r := by
  unfold Logged
  rw [h.mem_store hp hf, h.pending_store hp]
  rcases hr with hr | hr
  · refine .inl (.inl ⟨hr, ?_⟩)
    intro hlap
    exact hsafe.active r hr hlap (kindOf_write.mpr hw) ha
  · rw [hp] at hr
    rcases mem_cons.mp hr with rfl | hr
    · exact .inl (.inr rfl)
    · exact .inr hr

/-- What ties records to writes, in a state where no other transaction is active, the writes of the
    active ones are still in the log and what is new there covers busy bytes only. -/
theorem Sound.keeps {recs' : List WalRecord} {d' : Disk} {k' : Core}
    (h : Sound taint busy recs d v k) (hlog : LogInv d' k')
    (hview : walSig.ViewInv 64 logSector (logState taint busy d' v k'))
    (hdisk : walSig.DiskInv (logState taint busy d' v k'))
    (hw : k'.txnWrites = k.txnWrites) (hid : k'.wal.nextTxnId = k.wal.nextTxnId)
    (hact : ∀ t ∈ activeIds k', t ∈ activeIds k)
    (hkept : ∀ r, Logged d k r → r.type = .write → r.txnId ∈ activeIds k → Logged d' k' r)
    (hnew : ∀ r, Logged d' k' r → Logged d k r ∨ ∀ x, walSig.Covers r x → x ∈ busy)
    (hcommits : ∀ p ∈ k'.pending, p.type = .commit → busy = ∅ ∧ recs' = [] ∧
      k'.committing = none ∧ ∀ q ∈ k'.pending, q.type = .commit → q = p)
    (hyoung : ∀ r ∈ recs', r.txnId ∈ activeIds k' ∧ r.type = .write ∧ Logged d' k' r ∧
      ∀ q, Logged d' k' q → q.txnId = r.txnId → q ∈ recs' ∨ q.lsn < r.lsn) :
    Sound taint busy recs' d' v k' := by
  have hby : ∀ t, k'.writesBy t = k.writesBy t := fun t => by
    unfold Core.writesBy
    rw [hw]
  refine ⟨hlog, hview, hdisk, by rw [hw, hid]; exact h.ids, ?_, ?_, ?_, hcommits, hyoung⟩
  · rw [hw]
    intro w hw ha x hx
    obtain ⟨r, hr, ht, hrx⟩ := h.known w hw (hact _ ha) x hx
    exact ⟨r, hkept r hr (walSig_covers.mp hrx).1 (by rw [ht]; exact hact _ ha), ht, hrx⟩
  · intro r hr ha x hx hrx
    rw [hby]
    rcases hnew r hr with hr | hall
    · exact h.made r hr (hact _ ha) x hx hrx
    · exact absurd (hall x hrx) hx
  · intro t ht
    rw [hby]
    exact h.value t (hact t ht)

/-- The state of the library after a commit is stored. -/
theorem logState_store_commit (h : LogInv d k) (hp : k.pending = p :: ps) (hf : Fits p)
    (hk : p.type = .commit) (hn : k.committing = none) (taint busy : Set Addr) (v : Disk) :
    logState taint busy (storeRecord d p) v (k.after (.record p))
      = { walSig.store 64 (logState taint busy d v k) p ps with
          active := activeIds k \ {p.txnId}
          durable := (k.after (.record p)).durable
          exempt := exempt taint (k.after (.record p)) } := by
  have hact : activeIds (k.after (.record p)) = activeIds k \ {p.txnId} := by
    ext t
    unfold activeIds
    rw [after_committing (h.head_lt hp), if_pos hk, hn]
    constructor
    · rintro ⟨hx, hne⟩
      exact ⟨⟨hx, nofun⟩, fun ht => hne (congrArg some ht.symm)⟩
    · rintro ⟨⟨hx, -⟩, hne⟩
      exact ⟨hx, fun he => hne (Option.some.inj he).symm⟩
  show LogState.mk _ _ _ _ _ _ _ _ _ = _
  rw [stored_after h hp hf taint busy v, dataBytes_store, h.pending_store hp, hact,
    h.storedLsn_store hp]
  rfl

/-- The durable writes after a commit is stored. -/
theorem durableWrites_commit (h : LogInv d k) (hp : k.pending = p :: ps)
    (hk : p.type = .commit) (hn : k.committing = none) :
    (k.after (.record p)).durableWrites = k.durableWrites ++ k.writesBy p.txnId := by
  have hc : (k.after (.record p)).committing = some p.txnId := by
    rw [after_committing (h.head_lt hp), if_pos hk]
  unfold Core.durableWrites
  rw [hc, hn]
  rfl

end Device

section Store

variable {taint busy : Set Addr} {recs : List WalRecord} {d v : Disk} {k : Core}
  {p : WalRecord} {ps : List WalRecord}
  (h : Sound taint busy recs d v k) (hp : k.pending = p :: ps) (hf : Fits p)
  (hsafe : walSig.SafeDrop 64 (logState taint busy d v k) p) (hk : p.type = .commit)

include h hp hf hsafe

/-- The part of the invariant that ties records to writes, after a store that
    leaves active no transaction that was not. -/
theorem Sound.store_rest
    (hact : ∀ t ∈ activeIds (k.after (.record p)), t ∈ activeIds k)
    (hrecs : ∀ r ∈ recs, r.txnId ∈ activeIds (k.after (.record p)))
    (hview : walSig.ViewInv 64 logSector
      (logState taint busy (storeRecord d p) v (k.after (.record p))))
    (hdisk : walSig.DiskInv (logState taint busy (storeRecord d p) v (k.after (.record p)))) :
    Sound taint busy recs (storeRecord d p) v (k.after (.record p)) := by
  have hlsn := (h.log.pending_head hp).1
  have hmem : p ∈ k.pending := by rw [hp]; exact mem_cons_self ..
  have hps : ∀ q ∈ ps, q ∈ k.pending := by
    intro q hq
    rw [hp]
    exact mem_cons_of_mem _ hq
  refine h.keeps (h.log.store hp hf) hview hdisk rfl rfl hact
    (fun r hr => logged_store h.log hp hf hsafe hr)
    (fun r hr => .inl (logged_of_store h.log hp hf hr)) ?_ ?_
  · intro q hq hqc
    rw [h.log.pending_store hp] at hq
    obtain ⟨hb, hr, hn, huniq⟩ := h.commits q (hps q hq) hqc
    -- the stored record is no commit: it would be this one
    have hpc : p.type ≠ .commit := by
      intro hpc
      have hl := (h.view.toShape.head hp).2
      have hin : q.lsn ∈ ps.map WalRecord.lsn := mem_map.mpr ⟨q, hq, rfl⟩
      have hl' : ps.map WalRecord.lsn = List.range' (k.storedLsn + 1 + 1) ps.length := hl
      rw [hl', mem_range'_1, ← huniq p hmem hpc] at hin
      omega
    refine ⟨hb, hr, ?_, ?_⟩
    · rw [after_committing (by omega), if_neg hpc]
      exact hn
    · intro q' hq' hqc'
      rw [h.log.pending_store hp] at hq'
      exact huniq q' (hps q' hq') hqc'
  · intro r hr
    obtain ⟨ha, hw, hrl, hall⟩ := h.young r hr
    refine ⟨hrecs r hr, hw, logged_store h.log hp hf hsafe hrl hw ha, ?_⟩
    intro q hq hqt
    exact hall q (logged_of_store h.log hp hf hq) hqt

theorem Sound.store_mark (hk : p.type ≠ .commit) :
    Sound taint busy recs (storeRecord d p) v (k.after (.record p)) := by
  have hact : activeIds (k.after (.record p)) = activeIds k := by
    unfold activeIds
    rw [after_committing (h.log.head_lt hp), if_neg hk]
    rfl
  have hstate := logState_store_mark h.log hp hf hk taint busy v
  have hview := h.view.store_mark hp (by decide) (fun hc => hk (kindOf_commit.mp hc))
  rw [hsafe.lost_eq, Set.union_empty] at hview
  refine h.store_rest hp hf hsafe (by rw [hact]; exact fun t ht => ht) ?_ ?_ ?_
  · intro r hr
    rw [hact]
    exact (h.young r hr).1
  · rw [hstate]
    exact hview
  · rw [hstate]
    exact h.disk.store_mark hp h.view hsafe

omit hf hsafe

/-! ## Storing a commit

When the commit of a transaction is stored, all its records are in the log: what they say is what
its writes made of the view, and this is durable from now on. -/

include hk in
theorem commit_idle : busy = ∅ ∧ k.committing = none ∧ p.txnId ∈ activeIds k := by
  have hmem : p ∈ k.pending := by rw [hp]; exact mem_cons_self ..
  obtain ⟨hb, -, hn, -⟩ := h.commits p hmem hk
  exact ⟨hb, hn, h.view.pendingCommit p hmem (kindOf_commit.mpr hk)⟩

include hf in
theorem mem_store_iff (r : WalRecord) :
    r ∈ (walSig.store 64 (logState taint busy d v k) p ps).stored ↔
      r ∈ storedLog (storeRecord d p) := by
  rw [← stored_after h.log hp hf taint busy v]
  exact Iff.rfl

include hsafe hk in
/-- Every record of the transaction is stored, and stays. -/
theorem commit_kept (hr : Logged d k r) (hrx : walSig.Covers r x) (ht : r.txnId = p.txnId) :
    r ∈ (walSig.store 64 (logState taint busy d v k) p ps).stored := by
  have hends : walSig.Ends p := walSig_ends.mpr (.inl hk)
  refine (h.view.toShape.commit_stored hp hends hr ht).resolve_right ?_
  rintro ⟨hst, hlap⟩
  refine hsafe.active r hst hlap hrx.1 ?_
  rw [show walSig.txn r = p.txnId from ht]
  exact (commit_idle h hp hk).2.2

include hsafe hk in
/-- A byte no record of the transaction covers was not written by it. -/
theorem commit_unwritten
    (hno : ¬ walSig.Wrote (walSig.store 64 (logState taint busy d v k) p ps) p.txnId x) :
    ∀ w ∈ k.writesBy p.txnId, w.patch x = none := by
  intro w hw
  obtain ⟨hw, ht⟩ := mem_filter.mp hw
  have ht' : w.txnId = p.txnId := of_decide_eq_true ht
  refine Option.not_isSome_iff_eq_none.mp fun hx => ?_
  obtain ⟨r, hr, hrt, hrx⟩ := h.known w hw (by rw [ht']; exact (commit_idle h hp hk).2.2) x hx
  exact hno ⟨r, commit_kept h hp hsafe hk hr hrx (hrt.trans ht'), hrt.trans ht', hrx⟩

include hsafe hk in
theorem commit_exempt (hx : x ∉ exempt taint (k.after (.record p))) : x ∉ exempt taint k ∨
      walSig.Wrote (walSig.store 64 (logState taint busy d v k) p ps) p.txnId x := by
  by_cases hno : walSig.Wrote (walSig.store 64 (logState taint busy d v k) p ps) p.txnId x
  · exact .inr hno
  · refine .inl ?_
    rintro ⟨hxt, hall⟩
    refine hx ⟨hxt, ?_⟩
    rw [durableWrites_commit h.log hp hk (commit_idle h hp hk).2.1]
    exact forall_mem_append.mpr ⟨hall, commit_unwritten h hp hsafe hk hno⟩

include hsafe hk in
theorem commit_keeps
    (hno : ¬ walSig.Wrote (walSig.store 64 (logState taint busy d v k) p ps) p.txnId x) :
    (k.after (.record p)).durable x = k.durable x := by
  unfold Core.durable
  rw [durableWrites_commit h.log hp hk (commit_idle h hp hk).2.1, applyAll_append]
  exact applyAll_of_uncovered _ _ (commit_unwritten h hp hsafe hk hno)

include hsafe hk in
/-- The youngest record of the transaction on a byte has its durable value. -/
theorem commit_sets (hr : r ∈ (walSig.store 64 (logState taint busy d v k) p ps).stored)
    (ht : r.txnId = p.txnId) (hrx : walSig.Covers r x)
    (hmax : ∀ q ∈ (walSig.store 64 (logState taint busy d v k) p ps).stored,
      q.txnId = p.txnId → walSig.Covers q x → q.lsn ≤ r.lsn) :
    newPatch r x = some ((k.after (.record p)).durable x) := by
  obtain ⟨hb, hn, hta⟩ := commit_idle h hp hk
  have hrl : Logged d k r := LogSig.inLog_of_store (L := walSig) hp (.inl hr)
  have hlast : walSig.Last (logState taint busy d v k) r x := by
    refine ⟨hrl, hrx, ?_⟩
    intro q hq hqx hqt
    exact hmax q (commit_kept h hp hsafe hk hq hqx (hqt.trans ht)) (hqt.trans ht) hqx
  have hxb : x ∉ busy := by rw [hb]; exact Set.notMem_empty x
  have hra : r.txnId ∈ activeIds k := by rw [ht]; exact hta
  have hex := h.made r hrl hra x hxb hrx
  rw [ht] at hex
  have hdur : (k.after (.record p)).durable x = dataBytes v x := by
    unfold Core.durable
    rw [durableWrites_commit h.log hp hk hn, applyAll_append]
    exact h.value p.txnId hta x hxb hex _
  rw [hdur]
  exact h.view.last x hxb r hlast hra

include hf hsafe hk in
/-- Storing the commit of a transaction whose records are all there makes its writes durable. -/
theorem Sound.store_commit (hok : CommitOk (storeRecord d p) p) :
    Sound taint busy recs (storeRecord d p) v (k.after (.record p)) := by
  obtain ⟨hb, hn, hta⟩ := commit_idle h hp hk
  have hmem := mem_store_iff h hp hf
  have hlog := h.log.store hp hf
  have hstate := logState_store_commit h.log hp hf hk hn taint busy v
  have hended : ∀ t,
      walSig.Ended (logState taint busy (storeRecord d p) v (k.after (.record p))) t →
      walSig.Ended (walSig.store 64 (logState taint busy d v k) p ps) t := by
    rw [hstate]
    exact fun t ht => ht
  have hwon : ∀ t, walSig.Won (walSig.store 64 (logState taint busy d v k) p ps) t →
      WinnerIn (storeRecord d p) t := by
    intro t ht
    refine (won_iff (v := v) hlog).mp (?_ : walSig.Won (logState taint busy _ v _) t)
    rw [hstate]
    exact ht
  have hview := h.view.store_commit hp (by decide) (kindOf_commit.mpr hk) hb
    (k.after (.record p)).durable (exempt taint (k.after (.record p)))
    (by
      intro x hx
      rw [hsafe.lost_eq]
      exact (commit_exempt h hp hsafe hk hx).imp (fun he => ⟨he, Set.notMem_empty x⟩) id)
    (fun x _ hno => commit_keeps h hp hsafe hk hno)
    (fun x r hr ht hrx hmax => commit_sets h hp hsafe hk hr ht hrx hmax)
    (by
      intro x r hr q hq hrx hqx hqt hor hlt
      obtain ⟨hrw, hrc⟩ := walSig_covers.mp hrx
      obtain ⟨hqw, hqc⟩ := walSig_covers.mp hqx
      refine hok.order r ((hmem r).mp hr) q ((hmem q).mp hq) hrw hqw x hrc hqc hqt (hwon _ ?_) hlt
      rcases hor with ht | hw
      · exact ⟨p, .inr rfl, ht.symm, kindOf_commit.mpr hk⟩
      · exact h.view.toShape.won_store hp (LogSig.inLog_of_store (L := walSig) hp (.inl hr)) hrx hw)
  have hdisk := h.disk.store_commit hp h.view (kindOf_commit.mpr hk) hsafe
    (k.after (.record p)).durable (exempt taint (k.after (.record p)))
    (fun x hx => commit_exempt h hp hsafe hk hx)
    (fun x _ hno => commit_keeps h hp hsafe hk hno)
    (by
      intro x r hr q hq hrt hne hqt hqx hrx
      obtain ⟨hrw, hrc⟩ := walSig_covers.mp hrx
      obtain ⟨hqw, hqc⟩ := walSig_covers.mp hqx
      refine hok.stale r ((hmem r).mp hr) q ((hmem q).mp hq) hrw hqw x hrc hqc hqt
        ((loser_iff (v := v) hlog ((hmem r).mp hr) hrw).mp
          (?_ : ¬ walSig.Ended (logState taint busy _ v _) _))
      intro hend
      rcases LogSig.ended_of_store (hended _ hend) with hend | ⟨-, ht⟩
      · exact hne hend
      · exact hrt ht.symm)
  have hrecs : recs = [] :=
    (h.commits p (by rw [hp]; exact mem_cons_self ..) hk).2.1
  have hact : activeIds (k.after (.record p)) = activeIds k \ {p.txnId} :=
    congrArg LogState.active hstate
  refine h.store_rest hp hf hsafe ?_ ?_ ?_ ?_
  · rw [hact]
    exact fun t ht => ht.1
  · rw [hrecs]
    exact nofun
  · rw [hstate]
    exact hview
  · rw [hstate]
    exact hdisk

end Store

/-! ## The other device writes -/

section Stable

variable {taint busy : Set Addr} {recs : List WalRecord} {d v : Disk} {k : Core}

theorem dataBytes_writeBack {s : Sector} (hs : DataSector s) (x : Addr) :
    dataBytes (blockWrite d s (v s)) x = if x.1 = s then dataBytes v x else dataBytes d x := by
  unfold dataBytes
  by_cases hx : x.1 = s
  · rw [if_pos hx, hx, if_pos hs, if_pos hs, blockWrite_same]
  · rw [if_neg hx, blockWrite_other hx]

theorem Sound.writeBack (h : Sound taint busy recs d v k) {s : Sector} (hs : DataSector s)
    (hC : ∀ r ∈ k.pending, r.type = .write → r.sector ≠ s) :
    Sound taint busy recs (blockWrite d s (v s)) v (k.after (.data s (v s))) := by
  have hlog := storedLog_write_data d hs (v s)
  have hstate : logState taint busy (blockWrite d s (v s)) v (k.after (.data s (v s)))
      = { logState taint busy d v k with disk := dataBytes (blockWrite d s (v s)) } := by
    unfold logState
    rw [hlog]
    rfl
  have hlogged : ∀ r, Logged (blockWrite d s (v s)) (k.after (.data s (v s))) r ↔ Logged d k r := by
    intro r
    unfold Logged
    rw [hlog]
    exact Iff.rfl
  refine h.keeps (h.log.writeBack hs (v s)) ?_ ?_ rfl rfl (fun _ ht => ht)
    (fun r hr _ _ => (hlogged r).mpr hr) (fun r hr => .inl ((hlogged r).mp hr)) h.commits ?_
  · rw [hstate]
    exact h.view.setDisk _
  · rw [hstate]
    refine h.disk.writeBack h.view _ ?_
    intro x
    rw [dataBytes_writeBack hs]
    split
    · rename_i hx
      refine .inr ⟨rfl, fun r hr hrx => ?_⟩
      obtain ⟨hw, hc⟩ := walSig_covers.mp hrx
      exact hC r hr hw (hc.1.symm.trans hx)
    · exact .inl rfl
  · intro r hr
    obtain ⟨ha, hw, hrl, hall⟩ := h.young r hr
    exact ⟨ha, hw, (hlogged r).mpr hrl, fun q hq => hall q ((hlogged q).mp hq)⟩

/-- The invariant reads only part of the manager. -/
theorem Sound.of_wal {w : WalManager} (h : Sound taint busy recs d v k)
    (hlog : LogInv d { k with wal := w })
    (hpend : ({ k with wal := w } : Core).pending = k.pending)
    (hact : activeIds { k with wal := w } = activeIds k)
    (hid : w.nextTxnId = k.wal.nextTxnId) : Sound taint busy recs d v { k with wal := w } := by
  have hstate : logState taint busy d v { k with wal := w } = logState taint busy d v k := by
    unfold logState
    rw [hpend, hact]
    rfl
  have hlogged : ∀ r, Logged d { k with wal := w } r ↔ Logged d k r := by
    intro r
    unfold Logged
    rw [hpend]
  refine h.keeps hlog (by rw [hstate]; exact h.view) (by rw [hstate]; exact h.disk) rfl hid
    (by rw [hact]; exact fun _ ht => ht) (fun r hr _ _ => (hlogged r).mpr hr)
    (fun r hr => .inl ((hlogged r).mp hr)) (by rw [hpend]; exact h.commits) ?_
  rw [hact]
  intro r hr
  obtain ⟨ha, hw, hrl, hall⟩ := h.young r hr
  exact ⟨ha, hw, (hlogged r).mpr hrl, fun q hq => hall q ((hlogged q).mp hq)⟩

theorem Sound.of_view {v' : Disk} (h : Sound taint busy recs d v k)
    (hv : ∀ s, DataSector s → v' s = v s) : Sound taint busy recs d v' k := by
  have hb := dataBytes_congr hv
  have hstate : logState taint busy d v' k = logState taint busy d v k := by
    unfold logState
    rw [hb]
  refine { h with
    view := by rw [hstate]; exact h.view, disk := by rw [hstate]; exact h.disk, value := ?_ }
  rw [hb]
  exact h.value

/-! ## What recovery finds -/

/-- **RECOVERY** restores the durable bytes. -/
theorem Sound.recovers (h : Sound taint busy recs d v k) : Recovers taint d k := by
  intro x hx hxe
  have hn : NamesData (Device.mk d []).disk := h.log.namesData
  have hin : InPlace (Device.mk d []).disk := h.log.inPlace
  have hcrash := h.view.crash h.disk
  rcases hcrash.recovered_value hxe with ⟨r, hr, hrx, hne, hold, hmin⟩ |
    ⟨hended, r, hr, hrx, hwon, hnew, hmax⟩ | ⟨hall, hdisk⟩
  · obtain ⟨hw, hc⟩ := walSig_covers.mp hrx
    refine recover_loser hn hin _ hr hw ((loser_iff h.log hr hw).mp hne) hold ?_
    intro q hq hqw hql hqc
    exact hmin q hq (walSig_covers.mpr ⟨hqw, hqc⟩) ((loser_iff h.log hq hqw).mpr hql)
  · obtain ⟨hw, hc⟩ := walSig_covers.mp hrx
    refine recover_winner hn hin _ ?_ hr hw ((won_iff h.log).mp hwon) hnew ?_
    · intro q hq hqw hql hqc
      exact (loser_iff h.log hq hqw).mpr hql (hended q hq (walSig_covers.mpr ⟨hqw, hqc⟩))
    · intro q hq hqw hqn hqc
      exact hmax q hq (walSig_covers.mpr ⟨hqw, hqc⟩) ((won_iff h.log).mpr hqn)
  · refine (recover_untouched hn _ ?_).trans ?_
    · rintro ⟨q, hq, hqw, hor, hqc⟩
      obtain ⟨hend, hnw⟩ := hall q hq (walSig_covers.mpr ⟨hqw, hqc⟩)
      rcases hor with hwin | hlose
      · exact hnw ((won_iff h.log).mpr hwin)
      · exact (loser_iff h.log hq hqw).mpr hlose hend
    · have hd : dataBytes d x = toBytes d x := if_pos hx
      exact hd.symm.trans hdisk

theorem sound_stable (taint busy : Set Addr) (recs : List WalRecord) :
    Stable Sheltered (Recovers taint) (Sound taint busy recs) where
  log h := h.log
  good h := h.recovers
  store := by
    intro d v k p ps h hp hC
    obtain ⟨hf, hdrop, hcommit⟩ := hC (h.log.head_lt hp)
    have hsafe := safeDrop h.log taint busy v hdrop
    by_cases hk : p.type = .commit
    · exact h.store_commit hp hf hsafe hk (hcommit hk)
    · exact h.store_mark hp hf hsafe hk
  back h hs hC := h.writeBack hs hC
  view h hv := h.of_view hv
  flushed _ h := { h with log := h.log.of_same rfl rfl rfl rfl rfl }
  reset h hp := h.of_wal (h.log.reset hp) (by rw [hp]; rfl) rfl rfl

end Stable

end MavCrash
