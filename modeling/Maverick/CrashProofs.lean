import Maverick.CrashInvProofs
import Maverick.WalRulesProofs

/-! # Crash consistency — every run, every crash point

"After a crash, recovery restores a consistent state": the data sectors hold the initial bytes with
exactly the writes of the committed transactions. The code does not keep this promise in all runs:
sectors are written back before their records, the ring overwrites records that are still needed,
redo follows the slots of the ring and not the LSNs, and a loser that recovery has undone once is
undone again over later commits.

`crash_consistent` is the promise for every run whose device writes avoid these four, at every point
at which memory may be lost. -/

namespace MavCrash

open MavBlock MavRecord MavLog MavRecover MavCache MavMount MavSystem MavOverride MavUndoRedo List
open MavRules MavRun

/-! ## Appending marks -/

variable {r : WalRecord} {x : Addr}

section Push

variable {taint busy : Set Addr} {recs : List WalRecord} {d v : Disk} {k : Core}

theorem pending_push (h : LogInv d k) (r : WalRecord) :
    (Core.push k r).pending = k.pending ++ [{ r with lsn := k.wal.nextLsn }] :=
  pending_copy h.top

theorem activeIds_push (k : Core) (r : WalRecord) :
    activeIds (Core.push k r) = activeIds k := by
  unfold activeIds
  rw [show (Core.push k r).wal.activeTxns = k.wal.activeTxns from (copyRecord_rest ..).1]
  rfl

theorem logState_push (h : LogInv d k) (r : WalRecord) (taint busy : Set Addr) (v : Disk) :
    logState taint busy d v (Core.push k r) = { logState taint busy d v k with
      pending := k.pending ++ [{ r with lsn := k.wal.nextLsn }] } := by
  show LogState.mk _ _ _ _ _ _ _ _ _ = _
  rw [pending_push h, activeIds_push]
  rfl

theorem logged_push (h : LogInv d k) {q : WalRecord} :
    Logged d (Core.push k r) q ↔ Logged d k q ∨ q = { r with lsn := k.wal.nextLsn } := by
  unfold Logged
  rw [pending_push h, mem_append, mem_singleton, or_assoc]

theorem LogInv.active_id (h : LogInv d k) {t : Nat} (ht : t ∈ activeIds k) :
    0 < t ∧ t < k.wal.nextTxnId := by
  obtain ⟨x, hx, rfl⟩ := ht.1
  obtain ⟨hpos, hlt, -⟩ := h.txns x hx
  exact ⟨hpos, hlt⟩

/-- The next LSN, as the library counts it. -/
theorem next_lsn (h : LogInv d k) (taint busy : Set Addr) (v : Disk) :
    k.wal.nextLsn = (logState taint busy d v k).top
      + (logState taint busy d v k).pending.length + 1 :=
  h.pending_lsns.2.symm

/-- An active transaction has no end in the log while no commit waits. -/
theorem Sound.not_ended (h : Sound taint busy recs d v k) {t : Nat} (ha : t ∈ activeIds k)
    (hno : ∀ p ∈ k.pending, p.type ≠ .commit) (e : WalRecord)
    (he : (logState taint busy d v k).InLog e) (hends : walSig.Ends e) : walSig.txn e ≠ t := by
  rintro rfl
  rcases he with he | he
  · exact h.view.activeOpen _ ha ⟨e, he, rfl, hends⟩
  · rcases walSig_ends.mp hends with hc | hab
    · exact hno e he hc
    · exact h.view.pendingAbort e he (kindOf_abort.mpr hab) ha

/-- Appending a record that is no write. -/
theorem Sound.push_mark (h : Sound taint busy [] d v k) (hw : r.type ≠ .write)
    (hlog : LogInv d (Core.push k r))
    (hopen : ∀ e, (logState taint busy d v k).InLog e → walSig.Ends e → e.txnId ≠ r.txnId)
    (hcom : r.type = .commit → busy = ∅ ∧ r.txnId ∈ activeIds k ∧ k.committing = none ∧
      ∀ p ∈ k.pending, p.type ≠ .commit)
    (hab : r.type = .abort → r.txnId ∉ activeIds k) :
    Sound taint busy [] d v (Core.push k r) := by
  have hkw : walSig.kind { r with lsn := k.wal.nextLsn } ≠ .write :=
    fun hk => hw (kindOf_write.mp hk)
  have hstate := logState_push h.log r taint busy v
  refine h.keeps hlog ?_ ?_ rfl (copyRecord_rest ..).2.1 (by rw [activeIds_push]; exact fun _ ht => ht)
    (fun q hq _ _ => (logged_push h.log).mpr (.inl hq)) ?_ ?_ nofun
  · rw [hstate]
    exact h.view.append_mark hkw (next_lsn h.log taint busy v) hopen
      (fun hk => (hcom (kindOf_commit.mp hk)).2.1) (fun hk => hab (kindOf_abort.mp hk))
  · rw [hstate]
    exact h.disk.append_mark hkw
  · intro q hq
    refine ((logged_push h.log).mp hq).imp id ?_
    rintro rfl x hx
    exact absurd hx.1 hkw
  · rw [pending_push h.log]
    intro p hp hpc
    rcases mem_append.mp hp with hp | hp
    · obtain ⟨hb, hr, hn, huniq⟩ := h.commits p hp hpc
      refine ⟨hb, hr, hn, fun q hq hqc => ?_⟩
      rcases mem_append.mp hq with hq | hq
      · exact huniq q hq hqc
      · rw [mem_singleton.mp hq] at hqc
        exact absurd hpc ((hcom hqc).2.2.2 p hp)
    · rw [mem_singleton.mp hp] at hpc
      obtain ⟨hb, -, hn, hnone⟩ := hcom hpc
      refine ⟨hb, rfl, hn, fun q hq hqc => ?_⟩
      rcases mem_append.mp hq with hq | hq
      · exact absurd hqc (hnone q hq)
      · rw [mem_singleton.mp hp, mem_singleton.mp hq]

theorem Sound.checkpoint (h : Sound taint ∅ [] d v k) (hr : Ready k) :
    Sound taint ∅ [] d v (Core.push k (markRecord .checkpoint 0)) := by
  refine h.push_mark nofun ?_ ?_ nofun nofun
  · exact h.log.copy hr.room rfl nofun h.log.idPos (fun hor => by simp [markRecord] at hor)
  · -- every transaction that ends has a positive number
    intro e he hends ht
    have hin : InLog d k e := he.imp id fun hp => (mem_filter.mp hp).1
    have := (h.log.txnIds e hin).2 (.inr (walSig_ends.mp hends))
    have ht' : e.txnId = 0 := ht
    omega

theorem Sound.commitMark (h : Sound taint ∅ [] d v k) (hr : Ready k) {x : WalTxn}
    (hx : x ∈ k.wal.activeTxns) :
    Sound taint ∅ [] d v (Core.push k (markRecord .commit x.txnId)) := by
  have ha : x.txnId ∈ activeIds k := (activeIds_of_none hr.settled.idle).mpr ⟨x, hx, rfl⟩
  obtain ⟨hpos, hlt⟩ := LogInv.active_id h.log ha
  refine h.push_mark nofun ?_ (h.not_ended ha hr.settled.noCommit)
    (fun _ => ⟨rfl, ha, hr.settled.idle, hr.settled.noCommit⟩) nofun
  exact h.log.copy hr.room rfl nofun hlt (fun _ => hpos)

/-- The writes of another transaction, when those of `t` leave the list. -/
theorem writesBy_filter {k' : Core} {t u : Nat}
    (h : k'.txnWrites = k.txnWrites.filter fun w => w.txnId ≠ t) (hne : u ≠ t) :
    k'.writesBy u = k.writesBy u := by
  unfold Core.writesBy
  rw [h, filter_filter]
  refine filter_congr ?_
  intro w _
  by_cases hw : w.txnId = u
  · simp [hw, hne]
  · simp [hw]

/-- The end of `wal_txn_commit`: the writes move from the transaction to the committed ones. -/
theorem Sound.commitReturns (h : Sound taint ∅ [] d v k) {t : Nat}
    (hc : k.committing = some t) (hpend : k.pending = []) :
    Sound taint ∅ [] d v (k.commitReturns t) := by
  have hact : activeIds (k.commitReturns t) = activeIds k := by
    ext u
    unfold activeIds
    rw [hc]
    constructor
    · rintro ⟨⟨x, hx, rfl⟩, -⟩
      obtain ⟨hx, hne⟩ := mem_filter.mp hx
      exact ⟨⟨x, hx, rfl⟩, fun he => of_decide_eq_true hne (Option.some.inj he).symm⟩
    · rintro ⟨⟨x, hx, rfl⟩, hne⟩
      refine ⟨⟨x, mem_filter.mpr ⟨hx, decide_eq_true fun he => hne ?_⟩, rfl⟩, nofun⟩
      rw [he]
  have hdur : (k.commitReturns t).durableWrites = k.durableWrites := by
    unfold Core.durableWrites
    rw [hc]
    rfl
  have hstate : logState taint ∅ d v (k.commitReturns t) = logState taint ∅ d v k := by
    show LogState.mk _ _ _ _ _ _ _ _ _ = LogState.mk _ _ _ _ _ _ _ _ _
    unfold Core.durable exempt
    rw [hact, hdur]
    rfl
  have hby : ∀ u ∈ activeIds k, (k.commitReturns t).writesBy u = k.writesBy u :=
    fun u hu => writesBy_filter rfl fun he => hu.2 (by rw [hc, he])
  have hpend' : (k.commitReturns t).pending = [] := hpend
  refine ⟨h.log.remove t rfl rfl, by rw [hstate]; exact h.view, by rw [hstate]; exact h.disk,
    fun w hw => h.ids w (mem_filter.mp hw).1, ?_, ?_, ?_, ?_, nofun⟩
  · rw [hact]
    intro w hw
    exact h.known w (mem_filter.mp hw).1
  · rw [hact]
    intro r hr ha
    rw [hby _ ha]
    exact h.made r hr ha
  · rw [hact]
    intro u hu
    rw [hby u hu]
    exact h.value u hu
  · rw [hpend']
    exact nofun

end Push

/-! ## Begin -/

section Begin

variable {taint : Set Addr} {d v : Disk} {k : Core}

theorem activeIds_opened (hc : k.committing = none) :
    activeIds k.opened = activeIds k ∪ {k.wal.nextTxnId} := by
  ext t
  rw [activeIds_of_none (k := k.opened) hc]
  constructor
  · rintro ⟨x, hx, rfl⟩
    rcases mem_append.mp hx with hx | hx
    · exact .inl ((activeIds_of_none hc).mpr ⟨x, hx, rfl⟩)
    · rw [mem_singleton.mp hx]
      exact .inr rfl
  · rintro (ht | rfl)
    · obtain ⟨x, hx, rfl⟩ := (activeIds_of_none hc).mp ht
      exact ⟨x, mem_append_left _ hx, rfl⟩
    · exact ⟨_, mem_append_right _ (mem_singleton.mpr rfl), rfl⟩

section

variable (h : Sound taint ∅ [] d v k)

include h

theorem Sound.txnId_lt {r : WalRecord} (hr : Logged d k r) : r.txnId < k.wal.nextTxnId :=
  (h.log.txnIds r (hr.imp id fun hp => (mem_filter.mp hp).1)).1

/-- The new transaction has no records and no writes. -/
theorem Sound.opened (hc : k.committing = none) : Sound taint ∅ [] d v k.opened := by
  have hact := activeIds_opened hc
  have hstate : logState taint ∅ d v k.opened = { logState taint ∅ d v k with
      active := activeIds k ∪ {k.wal.nextTxnId} } := by
    show LogState.mk _ _ _ _ _ _ _ _ _ = _
    rw [hact]
    rfl
  have hnone : ∀ w ∈ k.txnWrites, w.txnId ≠ k.wal.nextTxnId :=
    fun w hw => Nat.ne_of_lt (h.ids w hw)
  refine ⟨h.log.opened, ?_, ?_, fun w hw => Nat.lt_succ_of_lt (h.ids w hw), ?_, ?_, ?_, h.commits,
    nofun⟩
  · rw [hstate]
    exact h.view.begin fun r hr => Nat.ne_of_lt (h.txnId_lt hr)
  · rw [hstate]
    exact h.disk.begin _
  · rw [hact]
    intro w hw ha
    exact h.known w hw (ha.resolve_right (hnone w hw))
  · rw [hact]
    intro r hr ha
    exact h.made r hr (ha.resolve_right (Nat.ne_of_lt (h.txnId_lt hr)))
  · rw [hact]
    intro t ht x hx hex f
    refine h.value t (ht.resolve_right ?_) x hx hex f
    rintro rfl
    obtain ⟨w, hw, -⟩ := hex
    obtain ⟨hw, hwt⟩ := mem_filter.mp hw
    exact hnone w hw (of_decide_eq_true hwt)

theorem Sound.begins (hr : Ready k) : Sound taint ∅ [] d v { k with wal := begun k.wal } := by
  have hlog := h.log.begun hr.room
  rw [begun_opened] at hlog ⊢
  refine (h.opened hr.settled.idle).push_mark nofun hlog ?_ nofun nofun
  intro e he _
  exact Nat.ne_of_lt (h.txnId_lt he)

end

end Begin

/-! ## Logged writes -/

/-- The bytes of a write. -/
def bytesOfWrite (w : TxnWrite) : Set Addr := {x | (w.patch x).isSome}

/-- While the records of `w` are made: its transaction is active and the only
    active one with records on its bytes, and no commit waits. -/
structure Writing (w : TxnWrite) (d : Disk) (k : Core) : Prop where
  data : DataSector w.sector
  range : RangeOk w.offset w.data.length
  act : w.txnId ∈ activeIds k
  calm : k.committing = none ∧ ∀ p ∈ k.pending, p.type ≠ .commit
  alone : ∀ x, (w.patch x).isSome → ∀ r, Logged d k r → r.txnId ∈ activeIds k →
    walSig.Covers r x → r.txnId = w.txnId

section Writing

variable {taint busy : Set Addr} {recs : List WalRecord} {d v : Disk} {k : Core}
  {w : TxnWrite} {p : WalRecord} {ps : List WalRecord}

theorem Writing.store (h : Writing w d k) (hlog : LogInv d k) (hp : k.pending = p :: ps)
    (hf : Fits p) :
    Writing w (blockWrite d (logSector p.lsn) (bytesOf p)) (k.after (.record p)) := by
  have hpc : p.type ≠ .commit := h.calm.2 p (by rw [hp]; exact mem_cons_self ..)
  have hcom : (k.after (.record p)).committing = k.committing := by
    rw [after_committing (hlog.head_lt hp), if_neg hpc]
  have hact : activeIds (k.after (.record p)) = activeIds k := by
    unfold activeIds
    rw [hcom]
    rfl
  refine ⟨h.data, h.range, by rw [hact]; exact h.act, ⟨by rw [hcom]; exact h.calm.1, ?_⟩, ?_⟩
  · rw [hlog.pending_store hp]
    intro q hq
    exact h.calm.2 q (by rw [hp]; exact mem_cons_of_mem _ hq)
  · rw [hact]
    intro x hx r hr
    exact h.alone x hx r (logged_of_store hlog hp hf hr)

/-- Nothing else the device sees matters to a write in progress. -/
theorem Writing.congr {d' : Disk} {k' : Core} (h : Writing w d k)
    (hlog : storedLog d' = storedLog d) (hpend : k'.pending = k.pending)
    (hact : activeIds k' = activeIds k) (hcom : k'.committing = k.committing) :
    Writing w d' k' := by
  refine ⟨h.data, h.range, by rw [hact]; exact h.act, by rw [hcom, hpend]; exact h.calm, ?_⟩
  rw [hact]
  intro x hx r hr
  refine h.alone x hx r ?_
  unfold Logged at hr
  rw [hlog, hpend] at hr
  exact hr

theorem writing_stable (taint : Set Addr) (w : TxnWrite) (recs : List WalRecord) :
    Stable Sheltered (Recovers taint) fun d v k =>
      Sound taint (bytesOfWrite w) recs d v k ∧ Writing w d k where
  log h := h.1.log
  good h := h.1.recovers
  store := by
    intro d v k p ps h hp hC
    have hf := (hC (h.1.log.head_lt hp)).1
    exact ⟨(sound_stable taint _ recs).store h.1 hp hC, h.2.store h.1.log hp hf⟩
  back := by
    intro d v k s h hs hC
    exact ⟨h.1.writeBack hs hC, h.2.congr (storedLog_write_data d hs _) rfl rfl rfl⟩
  view h hv := ⟨h.1.of_view hv, h.2⟩
  flushed n h := ⟨(sound_stable taint _ recs).flushed n h.1, h.2.congr rfl rfl rfl rfl⟩
  reset h hp := ⟨(sound_stable taint _ recs).reset h.1 hp, h.2.congr rfl (by rw [hp]; rfl) rfl rfl⟩

/-- More bytes may be busy while no commit waits. -/
theorem Sound.enlarge (h : Sound taint ∅ [] d v k) (busy : Set Addr)
    (hno : ∀ p ∈ k.pending, p.type ≠ .commit) : Sound taint busy [] d v k := by
  refine ⟨h.log, ?_, ?_, h.ids, h.known, ?_, ?_, fun p hp hc => absurd hc (hno p hp), nofun⟩
  · exact h.view.setView (dataBytes v) busy (fun _ _ _ => rfl)
      (fun x _ r hr ha => h.view.last x (Set.notMem_empty x) r hr ha)
  · exact h.disk.setView (dataBytes v) busy
  · intro r hr ha x _
    exact h.made r hr ha x (Set.notMem_empty x)
  · intro t ht x _
    exact h.value t ht x (Set.notMem_empty x)

end Writing

section Chunk

variable {taint : Set Addr} {recs : List WalRecord} {d v : Disk} {k : Core}
  {w : TxnWrite}

/-- The bytes read from a range, as a patch of it. -/
theorem rangePatch_bytesAt {s : Sector} {ofs len : Nat}
    (hx : x.1 = s ∧ ofs ≤ x.2.val ∧ x.2.val < ofs + len) :
    rangePatch s ofs (bytesAt (v s) ofs len) x = some (v x.1 x.2) := by
  rw [rangePatch_inside (by rw [length_bytesAt]; exact hx), hx.1]
  refine congrArg some ?_
  rw [getD_bytesAt (by omega) (by omega)]
  exact congrArg (v s) (Fin.ext (by show ofs + (x.2.val - ofs) = x.2.val; omega))

/-- The old bytes of a record of the write are those of the view. -/
theorem chunk_old (hdata : DataSector w.sector)
    (hc : ChunkOf w (bytesAt (v w.sector) w.offset w.data.length) r)
    (hx : Covers r x) : oldPatch r x = some (dataBytes v x) ∧ (w.patch x).isSome := by
  obtain ⟨-, hold, hsome⟩ := hc.patches (length_bytesAt ..) hx
  have hin := (rangePatch_isSome ..).mp hsome
  have hd : DataSector x.1 := by rw [hin.1]; exact hdata
  refine ⟨?_, hsome⟩
  rw [hold, rangePatch_bytesAt hin]
  exact congrArg some (if_pos hd).symm

/-- One record of the write. -/
theorem Sound.push_chunk (h : Sound taint (bytesOfWrite w) recs d v k) (hw : Writing w d k)
    (hr : Ready k) (hc : ChunkOf w (bytesAt (v w.sector) w.offset w.data.length) r) :
    Sound taint (bytesOfWrite w) (recs ++ [{ r with lsn := k.wal.nextLsn }]) d v
      (Core.push k r) := by
  have hstate := logState_push h.log r taint (bytesOfWrite w) v
  have hlogged := fun q => logged_push h.log (r := r) (q := q)
  have hpend := pending_push h.log r
  have hcov : ∀ x, walSig.Covers { r with lsn := k.wal.nextLsn } x →
      oldPatch r x = some (dataBytes v x) ∧ (w.patch x).isSome :=
    fun x hx => chunk_old hw.data hc (walSig_covers.mp hx).2
  have hkind : walSig.kind { r with lsn := k.wal.nextLsn } = .write := kindOf_write.mpr hc.type
  have ht : walSig.txn { r with lsn := k.wal.nextLsn } = w.txnId := hc.txnId
  have hlsn : walSig.lsn { r with lsn := k.wal.nextLsn } = _ :=
    next_lsn h.log taint (bytesOfWrite w) v
  have hdisj : ∀ x q, (logState taint (bytesOfWrite w) d v k).InLog q →
      walSig.Covers { r with lsn := k.wal.nextLsn } x → walSig.Covers q x →
      walSig.txn q ∈ activeIds k → walSig.txn q = walSig.txn { r with lsn := k.wal.nextLsn } := by
    intro x q hq hx hqx hqa
    rw [ht]
    exact hw.alone x (hcov x hx).2 q hq hqa hqx
  have hbusy : bytesOfWrite w ∪ {x | walSig.Covers { r with lsn := k.wal.nextLsn } x}
      = bytesOfWrite w := Set.union_eq_self_of_subset_right fun x hx => (hcov x hx).2
  have hact : r.txnId ∈ activeIds k := by
    rw [hc.txnId]
    exact hw.act
  obtain ⟨hpos, hlt⟩ := LogInv.active_id h.log hact
  refine h.keeps ?_ ?_ ?_ rfl (copyRecord_rest ..).2.1 (by rw [activeIds_push]; exact fun _ ht => ht)
    (fun q hq _ _ => (hlogged q).mpr (.inl hq)) ?_ ?_ ?_
  · exact h.log.copy hr.room rfl (fun _ => (ChunkOf.stamp hc _).writeOk hw.data hw.range) hlt
      (fun _ => hpos)
  · rw [hstate]
    have hview := h.view.append_write hlsn (fun x hx => (hcov x hx).1) hdisj hkind
      (by rw [ht]; exact h.not_ended hw.act hw.calm.2) (by rw [ht]; exact hw.act)
    rw [show (logState taint (bytesOfWrite w) d v k).busy ∪ _ = bytesOfWrite w from hbusy] at hview
    exact hview
  · rw [hstate]
    exact h.disk.append_write h.view hlsn (fun x hx => (hcov x hx).1) hdisj _
  · intro q hq
    refine ((hlogged q).mp hq).imp id ?_
    rintro rfl x hx
    exact (hcov x hx).2
  · rw [hpend]
    exact forall_mem_append.mpr ⟨fun q hq hqc => absurd hqc (hw.calm.2 q hq),
      forall_mem_singleton.mpr fun hqc => absurd (hc.type.symm.trans hqc) nofun⟩
  · rw [activeIds_push]
    intro q hq
    rcases mem_append.mp hq with hq | hq
    · obtain ⟨ha, hqw, hql, hall⟩ := h.young q hq
      refine ⟨ha, hqw, (hlogged q).mpr (.inl hql), ?_⟩
      intro q' hq' hqt'
      rcases (hlogged q').mp hq' with hq' | rfl
      · exact (hall q' hq' hqt').imp (mem_append_left _) id
      · exact .inl (mem_append_right _ (mem_singleton.mpr rfl))
    · rw [mem_singleton.mp hq]
      refine ⟨hact, hc.type, (hlogged _).mpr (.inr rfl), ?_⟩
      intro q' hq' _
      rcases (hlogged q').mp hq' with hq' | rfl
      · exact .inr (h.log.lsn_lt (hq'.imp id fun hp => (mem_filter.mp hp).1))
      · exact .inl (mem_append_right _ (mem_singleton.mpr rfl))

theorem Writing.push (h : Writing w d k) (hlog : LogInv d k)
    (hc : ChunkOf w (bytesAt (v w.sector) w.offset w.data.length) r) :
    Writing w d (Core.push k r) := by
  refine ⟨h.data, h.range, by rw [activeIds_push]; exact h.act, ⟨h.calm.1, ?_⟩, ?_⟩
  · rw [pending_push hlog]
    exact forall_mem_append.mpr
      ⟨h.calm.2, forall_mem_singleton.mpr fun hrc => absurd (hc.type.symm.trans hrc) nofun⟩
  · rw [activeIds_push]
    intro x hx q hq ha hqx
    rcases (logged_push hlog).mp hq with hq | rfl
    · exact h.alone x hx q hq ha hqx
    · exact hc.txnId

/-- The cache follows: the bytes of the write are in the view, and the write is
    one of its transaction. -/
theorem Sound.endWrite (h : Sound taint (bytesOfWrite w) recs d v k) (hw : Writing w d k)
    (hchunk : ∀ r ∈ recs, ∃ old, old.length = w.data.length ∧ ChunkOf w old r)
    (hcover : ∀ x, (w.patch x).isSome → ∃ r ∈ recs, Covers r x)
    (tag : Addr → Option WalRecord) :
    Sound taint ∅ [] d (writeView v w.sector w.offset w.data)
      { k with txnWrites := k.txnWrites ++ [w], viewTag := tag } := by
  have hview : ∀ x, dataBytes (writeView v w.sector w.offset w.data) x
      = (w.patch x).getD (dataBytes v x) := dataBytes_writeView v hw.data
  have hkeep : ∀ x, ¬ (w.patch x).isSome →
      dataBytes (writeView v w.sector w.offset w.data) x = dataBytes v x := by
    intro x hx
    rw [hview, Option.not_isSome_iff_eq_none.mp hx]
    rfl
  -- every byte of the write has one of the records just made
  have hrec : ∀ x, (w.patch x).isSome → ∃ r ∈ recs, walSig.Covers r x ∧ Logged d k r ∧
      r.txnId = w.txnId := by
    intro x hx
    obtain ⟨r, hr, hrx⟩ := hcover x hx
    obtain ⟨-, hrw, hrl, -⟩ := h.young r hr
    obtain ⟨old, -, hc⟩ := hchunk r hr
    exact ⟨r, hr, walSig_covers.mpr ⟨hrw, hrx⟩, hrl, hc.txnId⟩
  have hby : ∀ t, ({ k with txnWrites := k.txnWrites ++ [w], viewTag := tag } : Core).writesBy t
      = k.writesBy t ++ [w].filter fun w => w.txnId = t := fun t => filter_append ..
  have hstate : logState taint ∅ d (writeView v w.sector w.offset w.data)
      { k with txnWrites := k.txnWrites ++ [w], viewTag := tag }
      = { logState taint (bytesOfWrite w) d v k with
          view := dataBytes (writeView v w.sector w.offset w.data), busy := ∅ } := by
    have hdur : ({ k with txnWrites := k.txnWrites ++ [w], viewTag := tag } : Core).durableWrites
        = k.durableWrites := by
      unfold Core.durableWrites
      rw [hw.calm.1]
    show LogState.mk _ _ _ _ _ _ _ _ _ = LogState.mk _ _ _ _ _ _ _ _ _
    unfold Core.durable exempt
    rw [hdur]
    rfl
  refine ⟨h.log.of_same rfl rfl rfl rfl rfl, ?_, ?_, ?_, ?_, ?_, ?_,
    fun p hp hc => absurd hc (hw.calm.2 p hp), nofun⟩
  · rw [hstate]
    refine h.view.setView _ _ ?_ ?_
    · intro x _ hno
      refine hkeep x fun hx => ?_
      obtain ⟨r, -, hrx, hrl, hrt⟩ := hrec x hx
      exact hno r hrl hrx (by rw [show walSig.txn r = w.txnId from hrt]; exact hw.act)
    intro x _ r hr ha
    by_cases hx : (w.patch x).isSome
    · -- the youngest record of the transaction on the byte is one just made
      obtain ⟨r0, hr0, hrx0, hrl0, hrt0⟩ := hrec x hx
      have hrt : r.txnId = w.txnId := hw.alone x hx r hr.1 ha hr.2.1
      have hle := hr.2.2 r0 hrl0 hrx0 (hrt0.trans hrt.symm)
      rcases (h.young r0 hr0).2.2.2 r hr.1 (hrt.trans hrt0.symm) with hin | hlt
      · obtain ⟨old, hlen, hc⟩ := hchunk r hin
        have hnew := (hc.patches hlen (walSig_covers.mp hr.2.1).2).1
        obtain ⟨b, hb⟩ := Option.isSome_iff_exists.mp hx
        rw [hview, hb]
        exact hnew.trans hb
      · exact absurd hle (Nat.not_le.mpr hlt)
    · rw [hkeep x hx]
      exact h.view.last x hx r hr ha
  · rw [hstate]
    exact h.disk.setView _ _
  · exact forall_mem_append.mpr ⟨h.ids, forall_mem_singleton.mpr (LogInv.active_id h.log hw.act).2⟩
  · intro w' hw' ha x hx
    rcases mem_append.mp hw' with hw' | hw'
    · exact h.known w' hw' ha x hx
    · rw [mem_singleton.mp hw'] at hx ⊢
      obtain ⟨r, -, hrx, hrl, hrt⟩ := hrec x hx
      exact ⟨r, hrl, hrt, hrx⟩
  · intro r hr ha x _ hrx
    rw [hby]
    by_cases hx : (w.patch x).isSome
    · have hrt := hw.alone x hx r hr ha hrx
      refine ⟨w, mem_append_right _ ?_, hx⟩
      rw [mem_filter]
      exact ⟨mem_singleton.mpr rfl, decide_eq_true hrt.symm⟩
    · obtain ⟨w', hw', hx'⟩ := h.made r hr ha x hx hrx
      exact ⟨w', mem_append_left _ hw', hx'⟩
  · intro t ht x _ hex f
    rw [hby] at hex ⊢
    rw [applyAll_append]
    by_cases hx : (w.patch x).isSome
    · -- only one active transaction writes the byte
      have htw : t = w.txnId := by
        obtain ⟨w', hw', hx'⟩ := hex
        rcases mem_append.mp hw' with hw' | hw'
        · obtain ⟨hw', ht'⟩ := mem_filter.mp hw'
          have ht'' : w'.txnId = t := of_decide_eq_true ht'
          obtain ⟨r, hrl, hrt, hrx⟩ := h.known w' hw' (by rw [ht'']; exact ht) x hx'
          rw [← ht'', ← hrt]
          exact hw.alone x hx r hrl (by rw [hrt, ht'']; exact ht) hrx
        · obtain ⟨hw', ht'⟩ := mem_filter.mp hw'
          rw [mem_singleton.mp hw'] at ht'
          exact (of_decide_eq_true ht').symm
      obtain ⟨b, hb⟩ := Option.isSome_iff_exists.mp hx
      have hone : [w].filter (fun w => w.txnId = t) = [w] :=
        filter_cons_of_pos (decide_eq_true htw.symm)
      rw [hview, hone, hb]
      exact applyPatch_some hb
    · have hskip : ∀ g, applyAll TxnWrite.patch g ([w].filter fun w => w.txnId = t) x = g x := by
        intro g
        refine applyAll_of_uncovered _ _ ?_
        intro w' hw'
        rw [mem_singleton.mp (mem_filter.mp hw').1]
        exact Option.not_isSome_iff_eq_none.mp hx
      rw [hskip, hkeep x hx]
      refine h.value t ht x hx ?_ f
      obtain ⟨w', hw', hx'⟩ := hex
      rcases mem_append.mp hw' with hw' | hw'
      · exact ⟨w', hw', hx'⟩
      · rw [mem_singleton.mp (mem_filter.mp hw').1] at hx'
        exact absurd hx' hx

end Chunk

/-! ## Aborts -/

/-- The bytes with a stored record of transaction `t`. -/
def bytesOfTxn (d : Disk) (t : Nat) : Set Addr := {x | ∃ r, WriteOf d t r ∧ Covers r x}

/-- While transaction `t` is undone: nothing waits, and it is still active. -/
structure Undoing (t : Nat) (k : Core) : Prop where
  drained : k.pending = []
  calm : k.committing = none
  act : t ∈ activeIds k

section Abort

variable {taint : Set Addr} {d v : Disk} {k : Core} {t : Nat}

theorem bytesOfTxn_congr {d' : Disk} (h : storedLog d' = storedLog d) (t : Nat) :
    bytesOfTxn d' t = bytesOfTxn d t := by
  unfold bytesOfTxn WriteOf
  rw [h]

theorem undoing_stable (taint : Set Addr) (t : Nat) :
    Stable Sheltered (Recovers taint) fun d v k =>
      Sound taint (bytesOfTxn d t) [] d v k ∧ Undoing t k where
  log h := h.1.log
  good h := h.1.recovers
  store := by
    -- nothing is left to store
    intro d v k p ps h hp
    rw [h.2.drained] at hp
    exact nomatch hp
  back := by
    intro d v k s h hs hC
    refine ⟨?_, ⟨h.2.drained, h.2.calm, h.2.act⟩⟩
    rw [bytesOfTxn_congr (storedLog_write_data d hs _) t]
    exact h.1.writeBack hs hC
  view h hv := ⟨h.1.of_view hv, h.2⟩
  flushed n h := ⟨(sound_stable taint _ []).flushed n h.1, ⟨h.2.drained, h.2.calm, h.2.act⟩⟩
  reset h hp := ⟨(sound_stable taint _ []).reset h.1 hp, ⟨rfl, h.2.calm, h.2.act⟩⟩

theorem Sound.undoStart (h : Sound taint ∅ [] d v k) (hs : Settled k) (hpend : k.pending = [])
    {x : WalTxn} (hx : x ∈ k.wal.activeTxns) :
    Sound taint (bytesOfTxn d x.txnId) [] d v k ∧ Undoing x.txnId k :=
  ⟨h.enlarge _ hs.noCommit, hpend, hs.idle, (activeIds_of_none hs.idle).mpr ⟨x, hx, rfl⟩⟩

/-- While `t` is undone, its records are those stored. -/
theorem Undoing.writeOf (hu : Undoing t k) (hr : Logged d k r)
    (hrx : walSig.Covers r x) (ht : r.txnId = t) : WriteOf d t r ∧ Covers r x := by
  obtain ⟨hw, hc⟩ := walSig_covers.mp hrx
  rcases hr with hr | hr
  · exact ⟨⟨hr, hw, ht⟩, hc⟩
  · rw [hu.drained] at hr
    exact nomatch hr

section

variable (h : Sound taint (bytesOfTxn d t) [] d v k) (hu : Undoing t k)

include h hu

/-- Of the active transactions only `t` has records on its bytes. -/
theorem Sound.only_undone (hx : x ∈ bytesOfTxn d t) (hr : Logged d k r)
    (ha : r.txnId ∈ activeIds k) (hrx : walSig.Covers r x) : r.txnId = t := by
  obtain ⟨q, ⟨hq, hqw, hqt⟩, hqc⟩ := hx
  exact (h.view.active_unique (.inl hq) hr (walSig_covers.mpr ⟨hqw, hqc⟩) hrx
    (by rw [show walSig.txn q = t from hqt]; exact hu.act) ha).trans hqt

/-- One undone write: the view changes on bytes of the transaction only. -/
theorem Sound.undoStep {v' : Disk} (tag : Addr → Option WalRecord)
    (hkeep : ∀ x, (∀ r, WriteOf d t r → ¬ Covers r x) → dataBytes v' x = dataBytes v x) :
    Sound taint (bytesOfTxn d t) [] d v' { k with viewTag := tag } := by
  have hkeep' : ∀ x, x ∉ bytesOfTxn d t → dataBytes v' x = dataBytes v x :=
    fun x hx => hkeep x fun r hr hc => hx ⟨r, hr, hc⟩
  refine ⟨h.log.of_same rfl rfl rfl rfl rfl, ?_, h.disk.setView _ _, h.ids, h.known, h.made, ?_,
    h.commits, nofun⟩
  · refine h.view.setView (dataBytes v') (bytesOfTxn d t) ?_ ?_
    · intro x _ hno
      refine hkeep' x ?_
      rintro ⟨r, ⟨hr, hw, ht⟩, hc⟩
      exact hno r (.inl hr) (walSig_covers.mpr ⟨hw, hc⟩)
        (by rw [show walSig.txn r = t from ht]; exact hu.act)
    · intro x hx r hr ha
      rw [hkeep' x hx]
      exact h.view.last x hx r hr ha
  · intro u hu' x hx hex f
    rw [hkeep' x hx]
    exact h.value u hu' x hx hex f

/-- A byte of the undone transaction is back at its durable value. -/
theorem Sound.back_at_durable (hres : Restored d v t) (hx : x ∉ exempt taint k)
    (hr : Logged d k r) (hrx : walSig.Covers r x) (ht : r.txnId = t) :
    dataBytes v x = k.durable x := by
  obtain ⟨r0, ⟨hr0, hrx0, ht0⟩, hmin⟩ := LogSig.exists_min_lsn (L := walSig)
    (P := fun q => Logged d k q ∧ walSig.Covers q x ∧ q.txnId = t) ⟨r, hr, hrx, ht⟩
  have hfirst : walSig.First (logState taint (bytesOfTxn d t) d v k) r0 x :=
    ⟨hr0, hrx0, fun q hq hqx hqt => hmin q ⟨hq, hqx, hqt.trans ht0⟩⟩
  obtain ⟨hwo, hc⟩ := hu.writeOf hr0 hrx0 ht0
  have hold := hres x r0 hwo hc fun q hq hqc =>
    hmin q ⟨.inl hq.1, walSig_covers.mpr ⟨hq.2.1, hqc⟩, hq.2.2⟩
  have hdur := h.view.first x hx r0 hfirst (by rw [show walSig.txn r0 = t from ht0]; exact hu.act)
  exact Option.some.inj (hold.symm.trans hdur)

end

theorem activeIds_abortReturns (hc : k.committing = none) (t : Nat) :
    activeIds (k.abortReturns t true) = activeIds k \ {t} := by
  ext u
  rw [activeIds_of_none (k := k.abortReturns t true) hc]
  constructor
  · rintro ⟨x, hx, rfl⟩
    obtain ⟨hx, hne⟩ := mem_filter.mp hx
    exact ⟨(activeIds_of_none hc).mpr ⟨x, hx, rfl⟩, of_decide_eq_true hne⟩
  · rintro ⟨hu, hne⟩
    obtain ⟨x, hx, rfl⟩ := (activeIds_of_none hc).mp hu
    exact ⟨x, mem_filter.mpr ⟨hx, decide_eq_true hne⟩, rfl⟩

/-- The undone transaction leaves the table. -/
theorem Sound.rollBack (h : Sound taint (bytesOfTxn d t) [] d v k) (hu : Undoing t k)
    (hclean : Clean d v) (hres : Restored d v t) :
    Sound taint ∅ [] d v (k.abortReturns t true) := by
  have hact := activeIds_abortReturns hu.calm t
  have hdw : (k.abortReturns t true).durableWrites = k.durableWrites := by
    unfold Core.durableWrites
    rw [show (k.abortReturns t true).committing = none from hu.calm, hu.calm]
    rfl
  have hby : ∀ u ∈ activeIds k \ {t}, (k.abortReturns t true).writesBy u = k.writesBy u :=
    fun u hu' => writesBy_filter rfl hu'.2
  have hstate : logState taint ∅ d v (k.abortReturns t true)
      = { logState taint (bytesOfTxn d t) d v k with
          active := activeIds k \ {t}, busy := ∅ } := by
    show LogState.mk _ _ _ _ _ _ _ _ _ = LogState.mk _ _ _ _ _ _ _ _ _
    unfold Core.durable exempt
    rw [hdw, hact]
    rfl
  have hdisk : dataBytes d = dataBytes v := dataBytes_congr hclean
  -- no active transaction has a record on a byte of the undone one
  have hgone : ∀ x ∈ bytesOfTxn d t, ∀ r, Logged d k r → walSig.Covers r x →
      r.txnId ∉ activeIds k \ {t} := by
    intro x hx r hr hrx ha
    exact ha.2 (h.only_undone hu hx hr ha.1 hrx)
  refine ⟨h.log.remove t rfl rfl, ?_, ?_, fun w hw => h.ids w (mem_filter.mp hw).1,
    ?_, ?_, ?_, ?_, nofun⟩
  · rw [hstate]
    have hback := h.view.rolledBack (t := t) (by
        intro p hp
        rw [show (logState taint (bytesOfTxn d t) d v k).pending = [] from hu.drained] at hp
        exact nomatch hp)
      (fun x hx r hr hrx ht => h.back_at_durable hu hres hx hr hrx ht)
    refine hback.setView (dataBytes v) ∅ (fun _ _ _ => rfl) ?_
    intro x _ r hr ha
    by_cases hx : x ∈ bytesOfTxn d t
    · exact absurd ha (hgone x hx r hr.1 hr.2.1)
    · exact hback.last x hx r hr ha
  · rw [hstate]
    refine (h.disk.rolledBack (t := t) ?_).setView (dataBytes v) ∅
    intro x hx r hr hrx ht
    show dataBytes d x = k.durable x
    rw [hdisk]
    exact h.back_at_durable hu hres hx (.inl hr) hrx ht
  · rw [hact]
    intro w hw ha
    exact h.known w (mem_filter.mp hw).1 ha.1
  · rw [hact]
    intro r hr ha x _ hrx
    rw [hby _ ha]
    by_cases hx : x ∈ bytesOfTxn d t
    · exact absurd ha (hgone x hx r hr hrx)
    · exact h.made r hr ha.1 x hx hrx
  · rw [hact]
    intro u hu' x _ hex
    rw [hby u hu'] at hex ⊢
    refine h.value u hu'.1 x ?_ hex
    intro hx
    obtain ⟨w, hw, hwx⟩ := hex
    obtain ⟨hw, hwt⟩ := mem_filter.mp hw
    have hwt' : w.txnId = u := of_decide_eq_true hwt
    obtain ⟨r, hr, hrt, hrx⟩ := h.known w hw (by rw [hwt']; exact hu'.1) x hwx
    exact hgone x hx r hr hrx (by rw [hrt, hwt']; exact hu')
  · rw [show (k.abortReturns t true).pending = [] from hu.drained]
    exact nofun

theorem removeTxn_copyRecord (w : WalManager) (r : WalRecord) (t : Nat) :
    removeTxn (copyRecord w r) t = copyRecord (removeTxn w t) r := by
  unfold removeTxn
  rw [(copyRecord_rest w r).1, copyRecord_txns]

theorem push_abortReturns (k : Core) (r : WalRecord) (t : Nat) :
    (Core.push k r).abortReturns t true = Core.push (k.abortReturns t true) r := by
  show ({ k with wal := _, txnWrites := _, rolledBack := _ } : Core) = _
  rw [show (Core.push k r).wal = copyRecord k.wal { r with lsn := k.wal.nextLsn } from rfl,
    removeTxn_copyRecord]
  rfl

theorem Sound.undoEnd (h : Sound taint (bytesOfTxn d t) [] d v k) (hu : Undoing t k)
    (hr : Ready k) (hclean : Clean d v) (hres : Restored d v t) :
    Sound taint ∅ [] d v ((Core.push k (markRecord .abort t)).abortReturns t true) := by
  rw [push_abortReturns]
  obtain ⟨hpos, hlt⟩ := LogInv.active_id h.log hu.act
  have hback := h.rollBack hu hclean hres
  refine hback.push_mark nofun ?_ ?_ nofun ?_
  · exact hback.log.copy hr.room rfl nofun hlt (fun _ => hpos)
  · exact h.not_ended hu.act hr.settled.noCommit
  · intro _ ha
    rw [activeIds_abortReturns hu.calm] at ha
    exact ha.2 rfl

end Abort

end MavCrash
