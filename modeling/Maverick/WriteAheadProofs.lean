import Maverick.MountProofs
import Maverick.WalCallProofs

/-! # Write-ahead — the record before the bytes

"Write the log first, then the data": a byte of an uncommitted transaction may be on disk only when
the `WAL_WRITE` record with its old value is in its log sector. Nothing in the code enforces it.
`cache_flush` and `cache_evict` write a dirty sector back whether or not its records have left the
log buffer, and the ring overwrites the records of transactions that are still open.

`write_ahead_kept` is the rule for every run whose device writes avoid both: no sector is written
back while a record in the buffer names it, and no record of an open transaction is overwritten. -/

namespace MavWriteAhead

open MavBlock MavRecord MavLog MavRecover MavCache MavMount MavSystem List

/-- The rule: wherever the disk holds a byte of an uncommitted transaction, the
    record of that write is in its log sector. -/
def WriteAhead (d : Disk) (k : Core) : Prop :=
  ∀ a r, k.diskTag a = some r → r.txnId ∉ k.committed → d (logSector r.lsn) = bytesOf r

/-- The condition on a device write. A data sector goes to disk only when no `WAL_WRITE` that waits
    in the buffer names it; a record whose numbers fit their fields is stored over another one only
    if that is no `WAL_WRITE` of a transaction neither committed nor rolled back. -/
def Ahead (e : Event) : Prop :=
  match e.target with
  | .data s _ => ∀ r ∈ e.core.pending, r.type = .write → r.sector ≠ s
  | .record r => Fits r ∧ ∀ q ∈ slotRecord e.disk ((r.lsn - 1) % walLogSectors),
      q.lsn ≠ r.lsn → q.type = .write →
      q.txnId ∈ e.core.committed ∨ q.txnId ∈ e.core.rolledBack

instance : (e : Event) → Decidable (Ahead e)
  | ⟨_, _, .data _ _⟩ | ⟨_, _, .record _⟩ => by unfold Ahead; infer_instance

/-- The record of an uncommitted write is in its log sector or in the buffer. -/
def Alive (d : Disk) (k : Core) (r : WalRecord) : Prop :=
  r.txnId ∉ k.committed → r.txnId ∉ k.rolledBack ∧ (Stored d r ∨ r ∈ k.pending)

/-- The invariant. `recs` are records just made, whose write the cache has not seen yet. -/
structure Tagged (recs : List WalRecord) (d : Disk) (k : Core) : Prop where
  log : LogInv d k
  view : ∀ a r, k.viewTag a = some r → r.type = .write ∧ Covers r a ∧ Alive d k r
  disk : ∀ a r, k.diskTag a = some r → r.type = .write ∧
    (r.txnId ∉ k.committed → r.txnId ∉ k.rolledBack ∧ Stored d r)
  kept : ∀ r ∈ recs, r.type = .write ∧ Alive d k r
  live : ∀ x ∈ k.wal.activeTxns, x.txnId ∉ k.rolledBack
  old : ∀ t ∈ k.rolledBack, t < k.wal.nextTxnId

/-! ## Device writes -/

variable {t : Sector} {recs : List WalRecord} {k : Core} {w : TxnWrite}

section Device

variable {d : Disk} {r p : WalRecord} {ps : List WalRecord}

/-- A stored record of an open transaction survives the next store. -/
theorem stored_store (h : LogInv d k) (hp : k.pending = p :: ps)
    (hC : Ahead ⟨d, k, .record p⟩) (hw : r.type = .write) (hc : r.txnId ∉ k.committed)
    (hb : r.txnId ∉ k.rolledBack) (hs : Stored d r) :
    Stored (blockWrite d (logSector p.lsn) (bytesOf p)) r := by
  refine ⟨hs.1, ?_⟩
  by_cases hsec : logSector r.lsn = logSector p.lsn
  · have hring := h.ring r hs.mem
    have hlsn := (h.pending_head hp).1
    have hslot : slotRecord d ((p.lsn - 1) % walLogSectors) = some r := by
      rw [← show (r.lsn - 1) % walLogSectors = (p.lsn - 1) % walLogSectors from
        Nat.add_left_cancel hsec]
      exact hs.slot
    rcases hC.2 r hslot (by omega) hw with hin | hin
    · exact absurd hin hc
    · exact absurd hin hb
  · rw [blockWrite_other hsec]
    exact hs.2

theorem Alive.store (ha : Alive d k r) (h : LogInv d k) (hp : k.pending = p :: ps)
    (hC : Ahead ⟨d, k, .record p⟩) (hw : r.type = .write) :
    Alive (blockWrite d (logSector p.lsn) (bytesOf p)) (k.after (.record p)) r := by
  intro hc
  obtain ⟨hb, hs | hr⟩ := ha hc
  · exact ⟨hb, .inl (stored_store h hp hC hw hc hb hs)⟩
  · refine ⟨hb, ?_⟩
    rw [hp] at hr
    rcases mem_cons.mp hr with rfl | hr
    · exact .inl ⟨hC.1, blockWrite_same ..⟩
    · rw [h.pending_store hp]
      exact .inr hr

theorem stored_write_data (hs : Stored d r) (ht : DataSector t) (b : Block) :
    Stored (blockWrite d t b) r := by
  refine ⟨hs.1, ?_⟩
  rw [blockWrite_other]
  · exact hs.2
  · rintro rfl
    exact not_dataSector_logSector r.lsn ht

theorem Alive.writeBack (ha : Alive d k r) (ht : DataSector t) (b : Block) :
    Alive (blockWrite d t b) (k.after (.data t b)) r := by
  intro hc
  obtain ⟨hb, hs | hr⟩ := ha hc
  · exact ⟨hb, .inl (stored_write_data hs ht b)⟩
  · exact ⟨hb, .inr hr⟩

theorem Tagged.store (h : Tagged recs d k) (hp : k.pending = p :: ps)
    (hC : Ahead ⟨d, k, .record p⟩) :
    Tagged recs (blockWrite d (logSector p.lsn) (bytesOf p)) (k.after (.record p)) := by
  refine ⟨h.log.store hp hC.1, ?_, ?_, ?_, h.live, h.old⟩
  · intro a r hr
    obtain ⟨hw, hcov, ha⟩ := h.view a r hr
    exact ⟨hw, hcov, ha.store h.log hp hC hw⟩
  · intro a r hr
    obtain ⟨hw, hds⟩ := h.disk a r hr
    refine ⟨hw, fun hc => ?_⟩
    obtain ⟨hb, hs⟩ := hds hc
    exact ⟨hb, stored_store h.log hp hC hw hc hb hs⟩
  · intro r hr
    obtain ⟨hw, ha⟩ := h.kept r hr
    exact ⟨hw, ha.store h.log hp hC hw⟩

/-- A sector written back under the condition takes along only bytes whose records are stored. -/
theorem Tagged.writeBack (h : Tagged recs d k) (ht : DataSector t) (b : Block)
    (hC : Ahead ⟨d, k, .data t b⟩) :
    Tagged recs (blockWrite d t b) (k.after (.data t b)) := by
  refine ⟨h.log.writeBack ht b, ?_, ?_, ?_, h.live, h.old⟩
  · intro a r hr
    obtain ⟨hw, hcov, ha⟩ := h.view a r hr
    exact ⟨hw, hcov, ha.writeBack ht b⟩
  · intro a r hr
    have hr' : (if a.1 = t then k.viewTag a else k.diskTag a) = some r := hr
    by_cases hat : a.1 = t
    · rw [if_pos hat] at hr'
      obtain ⟨hw, hcov, ha⟩ := h.view a r hr'
      refine ⟨hw, fun hc => ?_⟩
      obtain ⟨hb, hs | hpend⟩ := ha hc
      · exact ⟨hb, stored_write_data hs ht b⟩
      · exact absurd (hcov.1.symm.trans hat) (hC r hpend hw)
    · rw [if_neg hat] at hr'
      obtain ⟨hw, hds⟩ := h.disk a r hr'
      exact ⟨hw, fun hc => ⟨(hds hc).1, stored_write_data (hds hc).2 ht b⟩⟩
  · intro r hr
    obtain ⟨hw, ha⟩ := h.kept r hr
    exact ⟨hw, ha.writeBack ht b⟩

/-- Changes in memory that keep the log, the tags and who ended how. -/
theorem Tagged.of_core {k' : Core} (h : Tagged recs d k) (hlog : LogInv d k')
    (hpend : ∀ q ∈ k.pending, q ∈ k'.pending) (hview : k'.viewTag = k.viewTag)
    (hdisk : k'.diskTag = k.diskTag) (hcom : ∀ t ∈ k.committed, t ∈ k'.committed)
    (hback : k'.rolledBack = k.rolledBack)
    (hlive : ∀ x ∈ k'.wal.activeTxns, x.txnId ∉ k.rolledBack)
    (hid : k.wal.nextTxnId ≤ k'.wal.nextTxnId) : Tagged recs d k' := by
  have halive : ∀ r, Alive d k r → Alive d k' r := by
    intro r ha hc
    obtain ⟨hb, hs⟩ := ha fun hin => hc (hcom _ hin)
    exact ⟨by rw [hback]; exact hb, hs.imp_right (hpend r)⟩
  refine ⟨hlog, ?_, ?_, ?_, by rw [hback]; exact hlive, ?_⟩
  · rw [hview]
    intro a r hr
    obtain ⟨hw, hcov, ha⟩ := h.view a r hr
    exact ⟨hw, hcov, halive r ha⟩
  · rw [hdisk]
    intro a r hr
    obtain ⟨hw, hds⟩ := h.disk a r hr
    refine ⟨hw, fun hc => ?_⟩
    rw [hback]
    exact hds fun hin => hc (hcom _ hin)
  · intro r hr
    obtain ⟨hw, ha⟩ := h.kept r hr
    exact ⟨hw, halive r ha⟩
  · rw [hback]
    intro t ht
    exact Nat.lt_of_lt_of_le (h.old t ht) hid

theorem tagged_stable (recs : List WalRecord) :
    Stable Ahead WriteAhead (fun d _ k => Tagged recs d k) where
  log h := h.log
  good h a r hr hc := ((h.disk a r hr).2 hc).2.2
  store h hp hC := h.store hp hC
  back h ht hC := h.writeBack ht _ hC
  view h _ := h
  flushed _ h := { h with log := h.log.of_same rfl rfl rfl rfl rfl }
  reset h hp := h.of_core (h.log.reset hp) (by rw [hp]; exact nofun) rfl rfl
    (fun t ht => ht) rfl h.live (Nat.le_refl _)

end Device

/-! ## Appending -/

section Append

variable {d : Disk} {r : WalRecord}

/-- Copying a record with the next LSN into the buffer; it is alive if its
    transaction is not rolled back. -/
theorem Tagged.copy (h : Tagged recs d k)
    (hroom : k.wal.logBuffer.length < walBufferRecords) (hok : r.type = .write → WriteOk r)
    (hid : r.txnId < k.wal.nextTxnId)
    (hpos : r.type = .write ∨ r.type = .commit ∨ r.type = .abort → 1 ≤ r.txnId) :
    Tagged recs d { k with wal := copyRecord k.wal { r with lsn := k.wal.nextLsn } } ∧
      (r.txnId ∉ k.rolledBack →
        Alive d { k with wal := copyRecord k.wal { r with lsn := k.wal.nextLsn } }
          { r with lsn := k.wal.nextLsn }) := by
  obtain ⟨hact, hnext, -⟩ := copyRecord_rest k.wal { r with lsn := k.wal.nextLsn }
  have hpend := pending_copy (k := k) (r := { r with lsn := k.wal.nextLsn }) h.log.top
  constructor
  · refine h.of_core (h.log.copy hroom rfl ?_ hid hpos) ?_ rfl rfl (fun t ht => ht) rfl ?_ ?_
    · intro hw
      have := hok hw
      exact ⟨this.data, this.range, this.size⟩
    · intro q hq
      rw [hpend]
      exact mem_append_left _ hq
    · rw [hact]
      exact h.live
    · rw [hnext]
  · intro hb _
    refine ⟨hb, .inr ?_⟩
    rw [hpend]
    exact mem_append_right _ (mem_singleton.mpr rfl)

end Append

/-! ## Calls of a run -/

/-- Where the disk's tag is not the cache's, the sector has to be written back. -/
def TagsMatch (s : Sys) : Prop :=
  ∀ a, s.core.diskTag a ≠ s.core.viewTag a → DirtyIn s.bc a.1

/-- What holds between the calls of a run, if its device writes so far met the condition. -/
structure Held (recs : List WalRecord) (s : Sys) : Prop where
  settled : Settled s.core
  safe : Safe Ahead WriteAhead (fun d _ k => Tagged recs d k) (cacheView s.bc)
    (cacheView s.bc) s
  same : (∀ e ∈ s.events, Ahead e) → TagsMatch s

/-- The invariant does not look at the view. -/
theorem safe_reset {u v : Disk} {s : Sys}
    (h : Safe Ahead WriteAhead (fun d _ k => Tagged recs d k) u v s) :
    Safe Ahead WriteAhead (fun d _ k => Tagged recs d k) (cacheView s.bc) (cacheView s.bc) s := by
  intro hC
  obtain ⟨hg, hp, hev⟩ := h hC
  exact ⟨{ hg with view := fun _ _ => rfl }, hp, hev⟩

theorem dirtyIn_congr {c c' : BufferCache} (h : c'.cache = c.cache)
    (hd : DirtyIn c t) : DirtyIn c' t := by
  obtain ⟨i, hi, hd⟩ := hd
  refine ⟨i, ?_, by rw [h]; exact hd⟩
  unfold Holds
  rw [h]
  exact hi

section Calls

variable {s : Sys}

/-- Steps in memory that keep the tags. -/
theorem Held.setCore (h : Held recs s) {recs' : List WalRecord}
    (hset : Settled k) (hview : k.viewTag = s.core.viewTag)
    (hdisk : k.diskTag = s.core.diskTag)
    (hk : Tagged recs s.bc.disk s.core → Tagged recs' s.bc.disk k) :
    Held recs' { s with core := k } := by
  refine ⟨hset, h.safe.setCore fun _ hp => hk hp, ?_⟩
  intro hC a hne
  refine h.same hC a ?_
  rw [← hview, ← hdisk]
  exact hne

/-- Storing records leaves the tags and the cache alone. -/
theorem TagsMatch.of_stores (rs : List WalRecord) {s' : Sys}
    (hm : (∀ e ∈ s.events, Ahead e) → TagsMatch s)
    (hbc : s'.bc = (s.storeRecords rs).bc) (hev : s'.events = (s.storeRecords rs).events)
    (hview : s'.core.viewTag = (s.storeRecords rs).core.viewTag)
    (hdisk : s'.core.diskTag = (s.storeRecords rs).core.diskTag)
    (hC : ∀ e ∈ s'.events, Ahead e) : TagsMatch s' := by
  intro a hne
  obtain ⟨hv, hd⟩ := storeRecords_tags rs s
  rw [hview, hdisk, hv, hd] at hne
  rw [hev] at hC
  rw [hbc]
  exact dirtyIn_congr (storeRecords_cache rs s)
    (hm (fun e he => hC e (storeRecords_events rs s he)) a hne)

theorem Held.flush (h : Held recs s) (upTo : Nat) : Held recs (s.walFlush upTo) :=
  ⟨h.settled.flush upTo, safe_reset (h.safe.walFlush (tagged_stable recs) upTo),
    TagsMatch.of_stores _ h.same rfl rfl rfl rfl⟩

/-- Appending a record of a known transaction; a `WAL_WRITE` is one of the records just made. -/
theorem Held.append (h : Held recs s) {r : WalRecord} (hr : r.type ≠ .commit)
    (hok : r.type = .write → WriteOk r)
    (hid : (∀ e ∈ s.events, Ahead e) → r.txnId < s.core.wal.nextTxnId ∧
      (r.type = .write ∨ r.type = .commit ∨ r.type = .abort → 1 ≤ r.txnId)) :
    Held recs (s.appendRecord r) := by
  refine ⟨h.settled.append hr, ?_, TagsMatch.of_stores _ h.same rfl rfl rfl rfl⟩
  refine Safe.of_events s (appendRecord_events s r) fun hC => safe_reset
    (h.safe.append (tagged_stable recs) (fun d _ k => Tagged recs d k) (cacheView s.bc)
      h.settled r ?_)
  rintro d k hp ⟨m, buf, rfl⟩ ⟨-, hroom⟩
  exact (Tagged.copy hp hroom hok (hid hC).1 (hid hC).2).1

/-- A call into the cache, accepted and on data sectors if all went well. -/
theorem Held.call (h : Held recs s) (op : CacheOp)
    (hop : (∀ e ∈ s.events, Ahead e) → op.Accepted ∧ ∀ t ∈ op.sectors, DataSector t) :
    Held recs (s.call op).2 := by
  refine ⟨h.settled.call op, ?_, ?_⟩
  · refine Safe.of_events s (call_events s op) fun hC => ?_
    exact safe_reset (h.safe.call (tagged_stable recs) (hop hC).1 (hop hC).2)
  intro hC a hne
  have hC' : ∀ e ∈ s.events, Ahead e := fun e he => hC e (call_events s op he)
  obtain ⟨c, ws, heff, -, hcall, -, hdrop, -, -⟩ := call_effect (h.safe hC').1
    (hop hC').1 (hop hC').2
  have htag := backs_diskTag (v := cacheView s.bc) (a := a) ws s.core
  obtain ⟨tag, hcore⟩ := call_core s op
  have hview : (s.call op).2.core.viewTag = s.core.viewTag := by rw [hcore]
  rw [hview] at hne
  rw [hcall] at hne ⊢
  have hne' : (List.foldl (fun k w => k.after (.data w.1 w.2)) s.core
      (c.writes.drop s.bc.writes.length)).diskTag a ≠ s.core.viewTag a := hne
  rw [hdrop, htag] at hne'
  by_cases hws : a.1 ∈ ws
  · rw [if_pos hws] at hne'
    exact absurd rfl hne'
  · rw [if_neg hws] at hne'
    exact (heff.dirty a.1 (h.same hC' a hne')).resolve_right hws

/-- A write to the cache, with new tags on its sector that come from the tags
    there were or from the records just made. -/
theorem Held.write (h : Held recs s) (t : Sector) (ofs : Nat) (data : List UInt8)
    (tag : Addr → Option WalRecord)
    (hop : (∀ e ∈ s.events, Ahead e) → RangeOk ofs data.length ∧ DataSector t)
    (hfar : ∀ a, a.1 ≠ t → tag a = s.core.viewTag a)
    (htag : ∀ a r, tag a = some r →
      s.core.viewTag a = some r ∨ (r ∈ recs ∧ Covers r a)) :
    Held [] { (s.call (.write t ofs data)).2 with
      core := { (s.call (.write t ofs data)).2.core with viewTag := tag } } := by
  have hop' : (∀ e ∈ s.events, Ahead e) → (CacheOp.write t ofs data).Accepted ∧
      ∀ t' ∈ (CacheOp.write t ofs data).sectors, DataSector t' := by
    intro hC
    exact ⟨(hop hC).1, forall_mem_singleton.mpr (hop hC).2⟩
  have hcall := h.call _ hop'
  obtain ⟨dtag, hcore⟩ := call_core s (.write t ofs data)
  have hview : (s.call (.write t ofs data)).2.core.viewTag = s.core.viewTag := by rw [hcore]
  have hset := hcall.settled
  refine ⟨{ hset with }, hcall.safe.setCore ?_, ?_⟩
  · intro _ hp
    refine { hp with
      log := hp.log.of_same rfl rfl rfl rfl rfl, view := ?_, kept := nofun }
    intro a r hr
    rcases htag a r hr with hr | ⟨hr, hcov⟩
    · exact hp.view a r (by rw [hview]; exact hr)
    · exact ⟨(hp.kept r hr).1, hcov, (hp.kept r hr).2⟩
  intro hC a hne
  by_cases hat : a.1 = t
  · have hC' : ∀ e ∈ s.events, Ahead e := fun e he => hC e (call_events s _ he)
    obtain ⟨c, ws, -, hstep, heq, -⟩ := call_effect (h.safe hC').1 (hop' hC').1 (hop' hC').2
    have hdirty := cacheStep_write_dirty (h.safe hC').1.ok (hop hC').1 hstep
    rw [hat]
    rw [heq]
    exact hdirty
  · refine hcall.same hC a ?_
    rw [hview, ← hfar a hat]
    exact hne

end Calls

/-! ## The calls one by one -/

section Ops

variable {s : Sys}

theorem Tagged.begun {d : Disk} (h : Tagged [] d k)
    (hroom : k.wal.logBuffer.length < walBufferRecords) :
    Tagged [] d { k with wal := begun k.wal } := by
  refine h.of_core (h.log.begun hroom) ?_ rfl rfl (fun t ht => ht) rfl ?_ ?_
  · intro q hq
    rw [pending_begun h.log.top]
    exact mem_append_left _ hq
  · intro x hx
    rcases mem_append.mp hx with hx | hx
    · exact h.live x hx
    · rw [mem_singleton.mp hx]
      intro hin
      exact Nat.lt_irrefl _ (h.old _ hin)
  · show k.wal.nextTxnId ≤ (copyRecord _ _).nextTxnId
    rw [(copyRecord_rest _ _).2.1]
    exact Nat.le_succ _

theorem Held.begin (h : Held [] s) (m : Bool) : Held [] (s.walTxnBegin m) := by
  cases m with
  | false => exact h
  | true =>
    refine ⟨h.settled.begin true, ?_, TagsMatch.of_stores (s := s.setWal { s.core.wal with
      nextTxnId := s.core.wal.nextTxnId + 1 }) _ h.same rfl rfl rfl rfl⟩
    refine safe_reset (h.safe.begin _ (tagged_stable []) ?_ ?_ h.settled ?_)
    · intro d k t n hc
      cases t with
      | record r | data t b => exact hc
    · exact fun n hq => hq
    · exact fun d k hp hready => hp.begun hready.room

/-- One record of a logged write. -/
theorem Held.logChunk (h : Held recs s) {r : WalRecord}
    (hw : r.type = .write) (hok : WriteOk r) {x : WalTxn}
    (hx : x ∈ s.core.wal.activeTxns) (hxr : x.txnId = r.txnId) :
    Held (Sys.logChunk (s, recs) r).2 (Sys.logChunk (s, recs) r).1 := by
  have hset := h.settled.append (r := r) (by rw [hw]; exact nofun)
  refine ⟨{ hset with }, ?_, TagsMatch.of_stores _ h.same rfl rfl rfl rfl⟩
  refine Safe.of_events s (appendRecord_events s r) fun hC => safe_reset
    (u := cacheView s.bc) (v := cacheView s.bc) ?_
  obtain ⟨-, hp0, -⟩ := h.safe hC
  have hxt := hp0.log.txns x hx
  have happ := h.safe.append (tagged_stable recs)
    (fun d _ k => Tagged (recs ++ [{ r with lsn := s.core.wal.nextLsn }]) d k)
    (cacheView s.bc) h.settled r (by
      rintro d k hp ⟨m, buf, rfl⟩ ⟨-, hroom⟩
      obtain ⟨hcopy, halive⟩ := Tagged.copy (r := r) hp hroom (fun _ => hok)
        (by rw [← hxr]; exact hxt.2.1) (fun _ => by rw [← hxr]; exact hxt.1)
      exact { hcopy with kept := forall_mem_append.mpr ⟨hcopy.kept, forall_mem_singleton.mpr
        ⟨hw, halive (by rw [← hxr]; exact hp0.live x hx)⟩⟩ })
  refine happ.setCore fun _ hp => ?_
  refine hp.of_core (hp.log.setLastLsn _ _) (fun q hq => hq) rfl rfl (fun t ht => ht) rfl ?_
    (Nat.le_refl _)
  intro y hy
  obtain ⟨z, hz, hzt, -⟩ := mem_setLastLsn hy
  rw [← hzt]
  exact hp.live z hz

/-- All records of a logged write. -/
theorem Held.logChunks {t : Nat} : ∀ (rs recs : List WalRecord) (s : Sys), Held recs s →
    (∀ r ∈ rs, r.type = .write ∧ WriteOk r ∧ r.txnId = t) →
    (∃ x ∈ s.core.wal.activeTxns, x.txnId = t) →
    Held (rs.foldl Sys.logChunk (s, recs)).2 (rs.foldl Sys.logChunk (s, recs)).1 := by
  intro rs
  induction rs with
  | nil => intro recs s h _ _; exact h
  | cons r rs ih =>
    rintro recs s h hrs ⟨x, hx, hxt⟩
    obtain ⟨hw, hok, hrt⟩ := hrs r (mem_cons_self ..)
    have hstep := h.logChunk hw hok hx (hxt.trans hrt.symm)
    refine ih _ _ hstep (fun q hq => hrs q (mem_cons_of_mem _ hq)) ?_
    have hids : t ∈ (Sys.logChunk (s, recs) r).1.core.wal.activeTxns.map WalTxn.txnId := by
      show t ∈ (setLastLsn (s.appendRecord r).core.wal _ _).activeTxns.map WalTxn.txnId
      rw [setLastLsn_ids, (appendRecord_rest h.settled r).1]
      exact mem_map.mpr ⟨x, hx, hxt⟩
    obtain ⟨y, hy, hyt⟩ := mem_map.mp hids
    exact ⟨y, hy, hyt⟩

theorem Held.setTxnWrites (h : Held recs s) (l : List TxnWrite) :
    Held recs { s with core := { s.core with txnWrites := l } } := by
  have hset := h.settled
  exact h.setCore { hset with } rfl rfl fun hp =>
    { hp with log := hp.log.of_same rfl rfl rfl rfl rfl }

/-- The `cache_write` of a write whose records are `recs`. -/
theorem Held.tagWrite (h : Held recs s)
    (hdata : DataSector w.sector) (hrange : RangeOk w.offset w.data.length) :
    Held [] { (s.call (.write w.sector w.offset w.data)).2 with
      core := { (s.call (.write w.sector w.offset w.data)).2.core with
        viewTag := tagWrite (s.call (.write w.sector w.offset w.data)).2.core.viewTag recs w } } := by
  obtain ⟨tag, hcore⟩ := call_core s (.write w.sector w.offset w.data)
  have hview : (s.call (.write w.sector w.offset w.data)).2.core.viewTag
      = s.core.viewTag := by rw [hcore]
  rw [hview]
  refine h.write _ _ _ _ (fun _ => ⟨hrange, hdata⟩) ?_ ?_
  · intro a ha
    refine if_neg ?_
    intro hsome
    exact ha ((rangePatch_isSome ..).mp hsome).1
  intro a r hr
  unfold MavSystem.tagWrite at hr
  by_cases hsome : (w.patch a).isSome = true
  · rw [if_pos hsome] at hr
    have hcov := List.find?_some hr
    exact .inr ⟨mem_of_find?_eq_some hr, of_decide_eq_true hcov⟩
  · rw [if_neg hsome] at hr
    exact .inl hr

theorem Held.walLogWrite (h : Held [] s) (hdata : DataSector w.sector)
    (hrange : RangeOk w.offset w.data.length) (old : List UInt8) :
    Held (s.walLogWrite w.txnId w.sector old w.data w.offset).2
      (s.walLogWrite w.txnId w.sector old w.data w.offset).1 := by
  unfold Sys.walLogWrite
  cases hfind : findTxn s.core.wal w.txnId with
  | none => exact h
  | some x =>
    have hchunks := (logChunks_spec w old w.data.length 0 (Nat.zero_le _) (by omega)).1
    exact Held.logChunks _ [] s h (fun r hr => ⟨(hchunks r hr).type,
      (hchunks r hr).writeOk hdata hrange, (hchunks r hr).txnId⟩) ⟨x, findTxn_some hfind⟩

theorem Held.loggedWrite (h : Held [] s) (hdata : DataSector w.sector)
    (hrange : RangeOk w.offset w.data.length) : Held [] (s.loggedWrite w) := by
  have hread : Held [] (s.call (.readAt w.sector w.offset w.data.length)).2 :=
    h.call _ fun _ => ⟨hrange, forall_mem_singleton.mpr hdata⟩
  exact (Held.tagWrite (hread.walLogWrite hdata hrange _) hdata hrange).setTxnWrites _

theorem Held.plainWrite (h : Held [] s) {ofs : Nat} {data : List UInt8}
    (hdata : DataSector t) (hrange : RangeOk ofs data.length) :
    Held [] (s.plainWrite t ofs data) :=
  Held.tagWrite (w := ⟨0, t, ofs, data⟩) h hdata hrange

/-- Changes of the manager's flags. -/
theorem Held.setFlags (h : Held recs s) {w : WalManager}
    (hw : w.nextLsn = s.core.wal.nextLsn ∧ w.flushedLsn = s.core.wal.flushedLsn ∧
      w.logBuffer = s.core.wal.logBuffer ∧ w.activeTxns = s.core.wal.activeTxns ∧
      w.nextTxnId = s.core.wal.nextTxnId) (q : List Nat) :
    Held recs { s with core := { s.core with wal := w, quietLsns := q } } := by
  obtain ⟨h1, h2, h3, h4, h5⟩ := hw
  have hpend : ({ s.core with wal := w, quietLsns := q } : Core).pending = s.core.pending := by
    show w.logBuffer.filter _ = _
    rw [h3]
    rfl
  refine h.setCore ⟨h2.trans h.settled.flushed, ?_, h.settled.idle, ?_⟩ rfl rfl fun hp => ?_
  · rw [h1, h3]
    exact h.settled.below
  · rw [hpend]
    exact h.settled.noCommit
  · refine hp.of_core (hp.log.of_same h3 h1 rfl h5 h4) ?_ rfl rfl (fun t ht => ht) rfl ?_
      (Nat.le_of_eq h5.symm)
    · rw [hpend]
      exact fun q hq => hq
    · rw [h4]
      exact hp.live

theorem Held.flushAll (h : Held recs s) : Held recs s.flushAll :=
  h.flush _

theorem Held.checkpointDone (h : Held recs s) : Held recs s.checkpointDone :=
  h.setFlags (w := { s.core.wal with checkpointing := false }) ⟨rfl, rfl, rfl, rfl, rfl⟩ _

theorem Held.checkpoint (h : Held [] s) : Held [] s.walCheckpoint := by
  unfold Sys.walCheckpoint
  by_cases hck : s.core.wal.checkpointing = true
  · rw [if_pos hck]
    exact h
  rw [if_neg hck]
  have hflushed := ((h.setFlags (w := { s.core.wal with checkpointing := true })
    ⟨rfl, rfl, rfl, rfl, rfl⟩ s.core.quietLsns).call .flush
    fun _ => ⟨trivial, nofun⟩).flushAll
  have hmarked := hflushed.append (r := markRecord .checkpoint 0) nofun
    nofun (fun hC => ⟨(hflushed.safe hC).2.1.log.idPos, fun hw => by simp [markRecord] at hw⟩)
  exact hmarked.flushAll.checkpointDone

theorem Held.commitTxn (h : Held [] s) {t : Nat} {x : WalTxn}
    (hx : x ∈ s.core.wal.activeTxns) (hxt : x.txnId = t) : Held [] (s.commitTxn t) := by
  refine ⟨h.settled.commit t, ?_, TagsMatch.of_stores (s := s.appendRecord (markRecord .commit t)) _
    (TagsMatch.of_stores _ h.same rfl rfl rfl rfl) rfl rfl rfl rfl⟩
  refine Safe.of_events s (List.Subset.trans (appendRecord_events s _)
    (walFlush_events _ _)) fun hC => safe_reset (u := cacheView s.bc) (v := cacheView s.bc) ?_
  have hxt' := (h.safe hC).2.1.log.txns x hx
  rw [hxt] at hxt'
  have happ := h.safe.append (tagged_stable []) (fun d _ k => Tagged [] d k) (cacheView s.bc)
    h.settled (markRecord .commit t) (by
      rintro d k hp ⟨m, buf, rfl⟩ ⟨-, hroom⟩
      exact (Tagged.copy (r := markRecord .commit t) hp hroom nofun hxt'.2.1 (fun _ => hxt'.1)).1)
  refine (happ.walFlush (tagged_stable []) _).setCore fun _ hp => ?_
  refine hp.of_core (hp.log.remove t rfl rfl) (fun q hq => hq) rfl rfl
    (fun u hu => mem_append_left _ hu) rfl ?_ (Nat.le_refl _)
  intro y hy
  exact hp.live y (mem_filter.mp hy).1

theorem Held.deferredCheckpoint (h : Held [] s) : Held [] s.deferredCheckpoint := by
  unfold Sys.deferredCheckpoint
  split
  · exact (h.setFlags (w := { s.core.wal with checkpointPending := false })
      ⟨rfl, rfl, rfl, rfl, rfl⟩ s.core.quietLsns).checkpoint
  · exact h

theorem Held.commit (h : Held [] s) (t : Nat) : Held [] (s.walTxnCommit t) := by
  unfold Sys.walTxnCommit
  cases hfind : findTxn s.core.wal t with
  | none => exact h
  | some x =>
    obtain ⟨hx, hxt⟩ := findTxn_some hfind
    exact (h.commitTxn hx hxt).deferredCheckpoint

/-! ## Abort -/

/-- No byte of the cache comes from transaction `t`, unless it committed. -/
def Untagged (t : Nat) (L : List Nat) (k : Core) : Prop :=
  ∀ a r, k.viewTag a = some r → r.txnId = t → r.txnId ∉ k.committed → r.lsn ∈ L

/-- Undoing the LSNs `L` of `t`, when every byte of `t` in the cache comes from one of them. -/
theorem Held.undoAll {t : Nat} (L : List Nat) (s : Sys) : Held [] s →
    ((∀ e ∈ s.events, Ahead e) → s.core.pending = [] ∧ Untagged t L s.core ∧
      ∀ lsn ∈ L, ∀ r, walReadRecord s.bc.disk lsn = some r → r.type = .write) →
    Held [] (L.foldl Sys.undoLsn s) ∧
      ((∀ e ∈ (L.foldl Sys.undoLsn s).events, Ahead e) →
        Untagged t [] (L.foldl Sys.undoLsn s).core) := by
  induction L generalizing s with
  | nil => intro h hL; exact ⟨h, fun hC => (hL hC).2.1⟩
  | cons lsn L ih =>
    intro h hL
    have hread : ∀ r, walReadRecord s.bc.disk lsn = some r → (∀ e ∈ s.events, Ahead e) →
        WriteOk r := by
      intro r hr hC
      have hlog := (h.safe hC).2.1.log
      exact hlog.writeOk r (.inl (hlog.walReadRecord_eq.mp hr).1)
        ((hL hC).2.2 lsn (mem_cons_self ..) r hr)
    -- a tag with this LSN is the record read back
    have htagged : (∀ e ∈ s.events, Ahead e) → ∀ a r, s.core.viewTag a = some r →
        r.txnId = t → r.txnId ∉ s.core.committed → r.lsn ∈ L ∨
          (walReadRecord s.bc.disk lsn = some r ∧ Covers r a) := by
      intro hC a r hr ht hc
      obtain ⟨hpend, htag, -⟩ := hL hC
      rcases mem_cons.mp (htag a r hr ht hc) with hlsn | hin
      · have hp := (h.safe hC).2.1
        obtain ⟨-, hcov, ha⟩ := hp.view a r hr
        obtain ⟨-, hs | hin⟩ := ha hc
        · exact .inr ⟨hp.log.walReadRecord_eq.mpr ⟨hs.mem, hlsn⟩, hcov⟩
        · rw [hpend] at hin
          exact nomatch hin
      · exact .inl hin
    rw [foldl_cons]
    cases hr0 : walReadRecord s.bc.disk lsn with
    | none =>
      have hstep : s.undoLsn lsn = s := by
        unfold Sys.undoLsn
        rw [hr0]
      rw [hstep]
      refine ih s h fun hC => ⟨(hL hC).1, ?_, fun l hl => (hL hC).2.2 l (mem_cons_of_mem _ hl)⟩
      intro a r hr ht hc
      rcases htagged hC a r hr ht hc with hin | ⟨hrr, -⟩
      · exact hin
      · rw [hr0] at hrr
        exact nomatch hrr
    | some r0 =>
      obtain ⟨tag, hcore⟩ := call_core s
        (.write r0.sector r0.offset (payloadBytes r0.oldData r0.length))
      have hstep : s.undoLsn lsn = { (s.call (.write r0.sector r0.offset
          (payloadBytes r0.oldData r0.length))).2 with core := { s.core with
            diskTag := tag, viewTag := untag s.core.viewTag r0 } } := by
        unfold Sys.undoLsn
        rw [hr0]
        simp only [hcore]
      have hheld : Held [] (s.undoLsn lsn) := by
        have hw := h.write r0.sector r0.offset (payloadBytes r0.oldData r0.length)
          (untag s.core.viewTag r0)
          (fun hC => ⟨by rw [length_payloadBytes]; exact (hread r0 hr0 hC).range,
            (hread r0 hr0 hC).data⟩)
          (fun a ha => if_neg fun hc => ha hc.1)
          (by
            intro a r hr
            obtain ⟨-, hr⟩ := Option.ite_none_left_eq_some.mp hr
            exact .inl hr)
        rw [hcore] at hw
        rw [hstep]
        exact hw
      refine ih _ hheld ?_
      rw [hstep]
      intro hC
      have hC' : ∀ e ∈ s.events, Ahead e := fun e he => hC e (call_events s _ he)
      obtain ⟨hpend, -, hwrites⟩ := hL hC'
      refine ⟨hpend, ?_, ?_⟩
      · intro a r hr ht hc
        have hr' : (if Covers r0 a then none else s.core.viewTag a) = some r := hr
        by_cases hcov : Covers r0 a
        · rw [if_pos hcov] at hr'
          exact nomatch hr'
        · rw [if_neg hcov] at hr'
          rcases htagged hC' a r hr' ht hc with hin | ⟨hrr, hra⟩
          · exact hin
          · rw [hr0] at hrr
            rw [Option.some.inj hrr] at hcov
            exact absurd hra hcov
      · intro l hl r hr
        have hok := hread r0 hr0 hC'
        have hsame := call_sameLog (h.safe hC').1 (.write r0.sector r0.offset
          (payloadBytes r0.oldData r0.length)) (by
            show RangeOk _ _
            rw [length_payloadBytes]
            exact hok.range) (forall_mem_singleton.mpr hok.data)
        refine hwrites l (mem_cons_of_mem _ hl) r ?_
        rw [← walReadRecord_congr hsame]
        exact hr

/-- After a flush the tags of the disk are those of the cache. -/
theorem Held.flush_tags (h : Held recs s) (hC : ∀ e ∈ (s.call .flush).2.events, Ahead e) :
    (s.call .flush).2.core.diskTag = (s.call .flush).2.core.viewTag := by
  have hheld := h.call .flush fun _ => ⟨trivial, nofun⟩
  have hC' : ∀ e ∈ s.events, Ahead e := fun e he => hC e (call_events s _ he)
  obtain ⟨-, -, -, hclean⟩ := cacheFlush_spec (h.safe hC').1.ok
  funext a
  by_contra hne
  have hdirty := hheld.same hC a hne
  rw [call_flush] at hdirty
  exact hclean a.1 hdirty

/-- A transaction whose bytes are gone from the cache and the disk is rolled back. -/
theorem Tagged.rolledBack {d : Disk} (h : Tagged [] d k) {t : Nat}
    (ht : t < k.wal.nextTxnId) (hview : Untagged t [] k) (hsame : k.diskTag = k.viewTag) :
    Tagged [] d (k.abortReturns t true) := by
  have hne : ∀ a r, k.viewTag a = some r → r.txnId ∉ k.committed → r.txnId ≠ t :=
    fun a r hr hc hrt => nomatch hview a r hr hrt hc
  have hback : ∀ u, u ≠ t → u ∉ k.rolledBack → u ∉ (k.abortReturns t true).rolledBack := by
    intro u hu hb hin
    have hin' : u ∈ k.rolledBack ++ [t] := hin
    rcases mem_append.mp hin' with hin' | hin'
    · exact hb hin'
    · exact hu (mem_singleton.mp hin')
  refine ⟨h.log.remove t rfl rfl, ?_, ?_, nofun, ?_, ?_⟩
  · intro a r hr
    obtain ⟨hw, hcov, ha⟩ := h.view a r hr
    refine ⟨hw, hcov, fun hc => ?_⟩
    obtain ⟨hb, hs⟩ := ha hc
    exact ⟨hback _ (hne a r hr hc) hb, hs⟩
  · intro a r hr
    obtain ⟨hw, hds⟩ := h.disk a r hr
    refine ⟨hw, fun hc => ?_⟩
    obtain ⟨hb, hs⟩ := hds hc
    have hr' : k.diskTag a = some r := hr
    rw [hsame] at hr'
    exact ⟨hback _ (hne a r hr' hc) hb, hs⟩
  · intro x hx
    obtain ⟨hx, hxt⟩ := mem_filter.mp hx
    exact hback _ (of_decide_eq_true hxt) (h.live x hx)
  · exact forall_mem_append.mpr ⟨h.old, forall_mem_singleton.mpr ht⟩

/-- Dropping a transaction without undo. -/
theorem Held.drop (h : Held [] s) (t : Nat) : Held [] (s.dropTxn t) := by
  have hset := h.settled
  exact h.setCore { hset with } rfl rfl fun hp => { hp with
    log := hp.log.remove t rfl rfl
    live := fun x hx => hp.live x (mem_filter.mp hx).1 }

/-- The rest of an abort whose undo has cleared the cache of its bytes. -/
theorem Held.finishAbort (h : Held [] s) {t : Nat}
    (ht : (∀ e ∈ s.events, Ahead e) → 1 ≤ t ∧ t < s.core.wal.nextTxnId)
    (hnone : (∀ e ∈ s.events, Ahead e) → Untagged t [] s.core) :
    Held [] (s.finishAbort t) := by
  unfold Sys.finishAbort
  have hcall := h.call .flush fun _ => ⟨trivial, nofun⟩
  have hsub := call_events s .flush
  have htags := h.flush_tags
  obtain ⟨tag, hcore⟩ := call_core s .flush
  generalize (s.call .flush).2 = s2 at hcall hsub htags hcore
  have hid : (∀ e ∈ s2.events, Ahead e) → t < s2.core.wal.nextTxnId ∧ 1 ≤ t := by
    intro hC
    rw [hcore]
    exact (ht fun e he => hC e (hsub he)).symm
  have happ := hcall.append (r := markRecord .abort t) nofun
    nofun fun hC => ⟨(hid hC).1, fun _ => (hid hC).2⟩
  have hset := happ.settled
  refine ⟨{ hset with }, ?_, TagsMatch.of_stores _ hcall.same rfl rfl rfl rfl⟩
  refine Safe.of_events s2 (appendRecord_events s2 _) fun hC => ?_
  refine happ.safe.setCore fun _ hp => ?_
  obtain ⟨hview, hdisk⟩ := storeRecords_tags (walAppendRecord s2.core.wal
    (markRecord .abort t)).1 s2
  have hview' : (s2.appendRecord (markRecord .abort t)).core.viewTag = s2.core.viewTag := hview
  have hdisk' : (s2.appendRecord (markRecord .abort t)).core.diskTag = s2.core.diskTag := hdisk
  refine hp.rolledBack ?_ ?_ ?_
  · rw [(appendRecord_rest hcall.settled _).2.1]
    exact (hid hC).1
  · intro a r hr hrt hc
    obtain ⟨k, ⟨m, buf, hk⟩, -, -, hcore'⟩ :=
      appendRecord_core hcall.settled (markRecord .abort t)
    rw [hview', hcore] at hr
    rw [hcore', hk, hcore] at hc
    exact hnone (fun e he => hC e (hsub he)) a r hr hrt hc
  · rw [hview', hdisk']
    exact htags hC

/-- The undo of an active transaction, after a flush of the log, clears the cache of its bytes. -/
theorem Held.undoTxn (h : Held [] s) (txn : WalTxn) (hx : txn ∈ s.core.wal.activeTxns)
    (hpend : (∀ e ∈ s.events, Ahead e) → s.core.pending = []) :
    Held [] (s.undoTxn txn s.core.wal.nextLsn) ∧
      ((∀ e ∈ (s.undoTxn txn s.core.wal.nextLsn).events, Ahead e) →
        Untagged txn.txnId [] (s.undoTxn txn s.core.wal.nextLsn).core) := by
  refine Held.undoAll _ s h fun hC => ⟨hpend hC, ?_, ?_⟩
  · have hp := (h.safe hC).2.1
    intro a r hr ht hc
    obtain ⟨hw, -, ha⟩ := hp.view a r hr
    obtain ⟨-, hs | hin⟩ := ha hc
    · exact mem_reverse.mpr (((hp.log.undoLsns_spec hx).1 r.lsn).mpr ⟨r, hs.mem, rfl, ht, hw⟩)
    · rw [hpend hC] at hin
      exact nomatch hin
  · have hp := (h.safe hC).2.1
    intro lsn hl r hr
    obtain ⟨q, hq, hql, -, hqw⟩ :=
      ((hp.log.undoLsns_spec hx).1 lsn).mp (mem_reverse.mp hl)
    rw [hp.log.walReadRecord_eq.mpr ⟨hq, hql⟩] at hr
    rw [← Option.some.inj hr]
    exact hqw

theorem Held.abort (h : Held [] s) (t : Nat) (m1 m2 : Bool) :
    Held [] (s.walTxnAbort t m1 m2) := by
  unfold Sys.walTxnAbort
  cases hfind : findTxn s.core.wal t with
  | none => exact h
  | some txn =>
    obtain ⟨hx, rfl⟩ := findTxn_some hfind
    cases m1 with
    | false => exact h.drop _
    | true =>
      have hflush := h.flush s.core.wal.nextLsn
      cases m2 with
      | false => exact hflush.drop _
      | true =>
        obtain ⟨m, -, hcore, hall⟩ := walFlush_settled h.settled s.core.wal.nextLsn
        have hwal : (s.walFlush s.core.wal.nextLsn).core.wal
            = { s.core.wal with flushedLsn := m } := by rw [hcore]
        have hlsn : (s.walFlush s.core.wal.nextLsn).core.wal.nextLsn
            = s.core.wal.nextLsn := by rw [hwal]
        obtain ⟨hundo, hnone⟩ := hflush.undoTxn txn (by rw [hwal]; exact hx) (by
          intro hC
          refine pending_eq_nil (hflush.safe hC).2.1.log ?_
          rw [hcore]
          exact fun r hr hle => hall r hr (Nat.le_trans hle (Nat.sub_le _ _)))
        rw [hlsn] at hundo hnone
        refine hundo.finishAbort (fun hC => ?_) hnone
        obtain ⟨hwal', hsub⟩ := undoLsns_frame
          (undoLsns (s.walFlush s.core.wal.nextLsn).bc.disk txn s.core.wal.nextLsn).reverse
          (s.walFlush s.core.wal.nextLsn)
        have htx := (h.safe fun e he => hC e (hsub (walFlush_events s _ he))).2.1.log.txns txn hx
        refine ⟨htx.1, ?_⟩
        show txn.txnId < (List.foldl Sys.undoLsn _ _).core.wal.nextTxnId
        rw [hwal', hwal]
        exact htx.2.1

end Ops

/-! ## Whole runs -/

theorem Held.step {s : Sys} (h : Held [] s) {op : Op} (hop : op.Legal) : Held [] (s.step op) := by
  cases op with
  | begin m => exact h.begin m
  | write w => exact h.loggedWrite hop.1 hop.2
  | plainWrite t ofs data => exact h.plainWrite hop.1 hop.2
  | commit t => exact h.commit t
  | abort t m1 m2 => exact h.abort t m1 m2
  | checkpoint => exact h.checkpoint
  | cacheFlush => exact h.call _ fun _ => ⟨trivial, nofun⟩
  | read t ofs len => exact h.call _ fun _ => ⟨hop.2, forall_mem_singleton.mpr hop.1⟩
  | prefetch t => exact h.call _ fun _ => ⟨trivial, forall_mem_singleton.mpr hop⟩

theorem Held.run (ops : List Op) (s : Sys) : Held [] s → (∀ op ∈ ops, op.Legal) →
    Held [] (s.run ops) := by
  induction ops generalizing s with
  | nil => intro h _; exact h
  | cons op ops ih =>
    intro h hops
    exact ih _ (h.step (hops op (mem_cons_self ..))) (fun op' h' => hops op' (mem_cons_of_mem _ h'))

theorem held_mounted (c : BufferCache) {w : WalManager} (hw : Idle w)
    (hlog : LogInv c.disk (mounted c w).core) : Held [] (mounted c w) := by
  have hg := mounted_ground c w
  refine ⟨mounted_settled c hw, fun _ => ⟨{ hg with view := fun _ _ => rfl }, ⟨hlog, nofun, nofun,
      nofun, (fun x hx => not_mem_nil), nofun⟩,
    nofun⟩, ?_⟩
  intro _ a hne
  exact absurd rfl hne

/-- **THE WRITE-AHEAD RULE**, for every run from a mount with a log in order
    (empty, or left by earlier sessions) whose device writes meet the
    condition: it holds after every one of them and at the end, and no `ASSERT`
    of the cache is reached. -/
theorem write_ahead_kept (c : BufferCache) (w : WalManager) (ops : List Op) (hw : Idle w)
    (hlog : LogInv c.disk (mounted c w).core) (hops : ∀ op ∈ ops, op.Legal)
    (hC : ∀ e ∈ ((mounted c w).run ops).events, Ahead e) :
    ((mounted c w).run ops).panicked = false ∧
      (∀ e ∈ ((mounted c w).run ops).events, WriteAhead e.diskAfter e.coreAfter) ∧
      WriteAhead ((mounted c w).run ops).bc.disk ((mounted c w).run ops).core := by
  obtain ⟨hg, hp, hev⟩ := (Held.run ops _ (held_mounted c hw hlog) hops).safe hC
  exact ⟨hg.calm, hev, (tagged_stable []).good (v := ((mounted c w).run ops).bc.disk) hp⟩

theorem idle_freshManager (lsn txnId : Nat) (h : 1 ≤ txnId) :
    Idle (freshManager (lsn + 1) lsn txnId) := ⟨rfl, rfl, rfl, h⟩

/-- A logged write of one byte. -/
def oneByte : TxnWrite := ⟨1, 70, 0, [7]⟩

/-- Commit before the flush: the records are in the log when the byte goes to
    disk. -/
theorem write_ahead_kept_committed :
    WriteAhead ((mounted blankCache (freshManager 1 0 1)).run
        [.begin true, .write oneByte, .commit 1, .cacheFlush]).bc.disk
      ((mounted blankCache (freshManager 1 0 1)).run
        [.begin true, .write oneByte, .commit 1, .cacheFlush]).core :=
  (write_ahead_kept blankCache (freshManager 1 0 1)
    [.begin true, .write oneByte, .commit 1, .cacheFlush] (idle_freshManager 0 1 (by decide))
    (mounted_logInv _ (idle_freshManager 0 1 (by decide)) storedLog_blankDisk) (by decide)
    (by decide +kernel)).2.2

/-- The first byte of the log sector a record belongs to is the record's. -/
def FirstByteStored (d : Disk) (r : WalRecord) : Bool :=
  d (logSector r.lsn) 0 == bytesOf r 0

/-- A flush of the cache right after a logged write: the byte of the open
    transaction is on disk, its record is not. -/
theorem write_ahead_broken :
    ¬ WriteAhead ((mounted blankCache (freshManager 1 0 1)).run
        [.begin true, .write oneByte, .cacheFlush]).bc.disk
      ((mounted blankCache (freshManager 1 0 1)).run
        [.begin true, .write oneByte, .cacheFlush]).core := by
  generalize hs : (mounted blankCache (freshManager 1 0 1)).run
    [.begin true, .write oneByte, .cacheFlush] = s
  intro h
  have htag : (s.core.diskTag (70, 0)).map (fun r => (r.txnId, FirstByteStored s.bc.disk r)) =
      some (1, false) := by
    rw [← hs]
    decide +kernel
  have hcom : s.core.committed = [] := by
    rw [← hs]
    decide +kernel
  obtain ⟨r, hr, hrr⟩ := Option.map_eq_some_iff.mp htag
  obtain ⟨-, hbyte⟩ := Prod.mk.injEq .. ▸ hrr
  have hsec := h (70, 0) r hr (by rw [hcom]; exact List.not_mem_nil)
  rw [FirstByteStored, hsec, beq_self_eq_true] at hbyte
  exact absurd hbyte (by decide)

end MavWriteAhead
