import Maverick.WalSystemProofs

/-! # The log and the cache together — what each call keeps

The manager in memory, the records of a write, and a rule for every call. -/

namespace MavSystem

open MavBlock MavRecord MavLog MavRecover MavCache MavOverride List

variable {d v' v u : Disk} {r p : WalRecord} {k k' : Core} {ps : List WalRecord}
  {P : Disk → Disk → Core → Prop} {Q : Disk → Core → Prop} {C : Event → Prop} {s : Sys} {a : Addr}
  {op : CacheOp} {w : WalManager}

/-! ## Appending a record -/

/-- The part of `wal_append_record` before the copy: a full buffer is flushed and dropped. -/
def Sys.makeRoom (s : Sys) : Sys :=
  if bufferFull s.core.wal then
    (s.walFlush (s.core.wal.nextLsn - 1)).setWal
      (resetBuffer (s.walFlush (s.core.wal.nextLsn - 1)).core.wal)
  else s

theorem appendRecord_eq (s : Sys) (r : WalRecord) :
    s.appendRecord r
      = s.makeRoom.setWal (copyRecord s.makeRoom.core.wal (stampRecord s.core.wal r)) := by
  unfold Sys.appendRecord Sys.makeRoom walAppendRecord
  by_cases hfull : bufferFull s.core.wal
  · rw [if_pos hfull, if_pos hfull]
    rfl
  · rw [if_neg hfull, if_neg hfull]
    rfl

theorem makeRoom_room (s : Sys) :
    s.makeRoom.core.wal.logBuffer.length < walBufferRecords := by
  unfold Sys.makeRoom
  split
  · show ([] : List WalRecord).length < 8
    decide
  · rename_i hfull
    unfold bufferFull at hfull
    omega

/-- Making room between two calls: some LSNs more are stored, and the buffer may be empty. -/
theorem makeRoom_settled (h : Settled s.core) :
    ∃ m buf, s.core.storedLsn ≤ m ∧ (buf = [] ∨ buf = s.core.wal.logBuffer) ∧
      s.makeRoom.core = { s.core with
        wal := { s.core.wal with flushedLsn := m, logBuffer := buf }, storedLsn := m } ∧
      Settled s.makeRoom.core := by
  unfold Sys.makeRoom
  split
  · obtain ⟨m, hm, hcore, -⟩ := walFlush_settled h (s.core.wal.nextLsn - 1)
    have hset : (Sys.setWal (s.walFlush (s.core.wal.nextLsn - 1))
        (resetBuffer (s.walFlush (s.core.wal.nextLsn - 1)).core.wal)).core = { s.core with
          wal := { s.core.wal with flushedLsn := m, logBuffer := [] }, storedLsn := m } := by
      unfold Sys.setWal
      rw [hcore]
      rfl
    refine ⟨m, [], hm.1, .inl rfl, hset, ?_⟩
    rw [hset]
    exact ⟨rfl, ⟨hm.2, nofun⟩, h.idle, nofun⟩
  · refine ⟨s.core.storedLsn, s.core.wal.logBuffer, Nat.le_refl _, .inr rfl, ?_, h⟩
    rw [show { s.core.wal with flushedLsn := s.core.storedLsn, logBuffer := s.core.wal.logBuffer }
      = s.core.wal by rw [← h.flushed]]

/-- After a flush of everything nothing waits. -/
theorem pending_eq_nil (h : LogInv d k)
    (hall : ∀ r ∈ k.wal.logBuffer, r.lsn ≤ k.wal.nextLsn - 1 → r.lsn ≤ k.storedLsn) :
    k.pending = [] := by
  refine filter_eq_nil_iff.mpr ?_
  intro r hr
  have hlt := (h.buffer_lsn hr).2
  have := hall r hr (by omega)
  simpa using this

theorem Safe.makeRoom (hP : Stable C Q P) (h : Safe C Q P u v s) (hs : Settled s.core) :
    Safe C Q P u v s.makeRoom := by
  unfold Sys.makeRoom
  split
  · refine (h.walFlush hP _).setCore ?_
    intro _ hp
    refine hP.reset hp (pending_eq_nil (hP.log hp) ?_)
    obtain ⟨m, -, hcore, hall⟩ := walFlush_settled hs (s.core.wal.nextLsn - 1)
    rw [hcore]
    exact hall
  · exact h

/-- What happens only if all events up to `s0` met `C` may be proved under that assumption. -/
theorem Safe.of_events (s0 : Sys) (hsub : s0.events ⊆ s.events)
    (h : (∀ e ∈ s0.events, C e) → Safe C Q P u v s) : Safe C Q P u v s :=
  fun hC => h (fun e he => hC e (hsub he)) hC

/-! ## Calls into the cache -/

/-- The write-backs of data sectors, one after the other. -/
theorem backs_keep (hP : Stable C Q P) (ws : List Sector) (d : Disk) (k : Core) :
    P d v k → (∀ t ∈ ws, DataSector t) →
    (∀ e ∈ writeBackEvents d k (ws.map fun t => (t, v t)), C e) →
    P (writeBacks v ws d) v
        ((ws.map fun t => (t, v t)).foldl (fun k w => k.after (.data w.1 w.2)) k) ∧
      ∀ e ∈ writeBackEvents d k (ws.map fun t => (t, v t)), Q e.diskAfter e.coreAfter := by
  induction ws generalizing d k with
  | nil => intro hp _ _; exact ⟨hp, nofun⟩
  | cons t ws ih =>
    intro hp hdata hC
    have hnew := hP.back hp (hdata t (mem_cons_self ..)) (hC _ (mem_cons_self ..))
    obtain ⟨hlast, hev⟩ := ih (blockWrite d t (v t)) (k.after (.data t (v t))) hnew
      (fun t' ht' => hdata t' (mem_cons_of_mem _ ht'))
      (fun e he => hC e (mem_cons_of_mem _ he))
    refine ⟨hlast, ?_⟩
    exact forall_mem_cons.mpr ⟨hP.good hnew, hev⟩

theorem writeBacks_congr (ws : List Sector) (d : Disk) :
    (∀ t ∈ ws, v t = v' t) → writeBacks v ws d = writeBacks v' ws d := by
  induction ws generalizing d with
  | nil => intro _; rfl
  | cons t ws ih =>
    intro h
    show writeBacks v ws (blockWrite d t (v t)) = writeBacks v' ws (blockWrite d t (v' t))
    rw [h t (mem_cons_self ..)]
    exact ih _ fun t' ht' => h t' (mem_cons_of_mem _ ht')

/-- Two arrays alike on the data sectors answer a call on them alike. -/
theorem arrayStep_congr (hv : ∀ t, DataSector t → v t = v' t)
    (hop : ∀ t ∈ op.sectors, DataSector t) :
    (arrayStep v op).1 = (arrayStep v' op).1 ∧
      ∀ t, DataSector t → (arrayStep v op).2 t = (arrayStep v' op).2 t := by
  cases op with
  | read t =>
    refine ⟨?_, hv⟩
    simp only [arrayStep, hv t (hop t (mem_singleton.mpr rfl))]
  | readAt t ofs len =>
    exact ⟨congrArg (bytesAt · ofs len) (hv t (hop t (mem_singleton.mpr rfl))), hv⟩
  | write t ofs data =>
    refine ⟨rfl, ?_⟩
    intro t' ht'
    show blockWrite v t _ t' = blockWrite v' t _ t'
    rw [hv t (hop t (mem_singleton.mpr rfl))]
    by_cases he : t' = t
    · rw [he, blockWrite_same, blockWrite_same]
    · rw [blockWrite_other he, blockWrite_other he, hv t' ht']
  | prefetch t | flush => exact ⟨rfl, hv⟩

/-- An accepted call: the state after it, in terms of the cache's effect. -/
theorem call_effect (hg : Ground u s) (hop : op.Accepted) (hsec : ∀ t ∈ op.sectors, DataSector t) :
    ∃ c ws, Effect s.bc c op.sectors ws (arrayStep (cacheView s.bc) op).2 ∧
      cacheStep s.bc op = some ((arrayStep u op).1, c) ∧
      s.call op = ((arrayStep u op).1, s.observe c) ∧
      (∀ t ∈ ws, DataSector t) ∧
      c.writes.drop s.bc.writes.length = ws.map (fun t => (t, u t)) ∧
      c.disk = writeBacks u ws s.bc.disk ∧
      Ground (arrayStep u op).2 (s.observe c) := by
  obtain ⟨c, ws, hstep, heff⟩ := cacheStep_effect hg.ok hop
  have hcongr := arrayStep_congr hg.view hsec
  have hws : ∀ t ∈ ws, DataSector t := by
    intro t ht
    rcases heff.backed t ht with hc | hu
    · exact hg.data t hc
    · exact hsec t hu
  rw [hcongr.1] at hstep
  refine ⟨c, ws, heff, hstep, ?_, hws, ?_, ?_, ⟨hg.calm, heff.ok, ?_, ?_⟩⟩
  · unfold Sys.call
    rw [hstep]
  · rw [heff.writes, drop_left]
    refine map_congr_left ?_
    intro t ht
    rw [hg.view t (hws t ht)]
  · rw [heff.disk]
    exact writeBacks_congr ws _ fun t ht => hg.view t (hws t ht)
  · intro t ht
    rcases heff.cached t ht with hc | hu
    · exact hg.data t hc
    · exact hsec t hu
  · intro t ht
    show cacheView c t = _
    rw [heff.view]
    exact hcongr.2 t ht

theorem call_events (s : Sys) (op : CacheOp) : s.events ⊆ (s.call op).2.events := by
  unfold Sys.call
  cases cacheStep s.bc op with
  | none => exact fun e he => he
  | some out => exact subset_append_left ..

/-- The tags of the disk after write-backs. -/
theorem backs_diskTag (ws : List Sector) (k : Core) :
    ((ws.map fun t => (t, v t)).foldl (fun k w => k.after (.data w.1 w.2)) k).diskTag a
      = if a.1 ∈ ws then k.viewTag a else k.diskTag a := by
  induction ws generalizing k with
  | nil => exact (if_neg nofun).symm
  | cons t ws ih =>
    show ((ws.map fun t => (t, v t)).foldl _ (k.after (.data t (v t)))).diskTag a = _
    rw [ih]
    show (if a.1 ∈ ws then k.viewTag a else if a.1 = t then k.viewTag a else k.diskTag a) = _
    by_cases hws : a.1 ∈ ws
    · rw [if_pos hws, if_pos (mem_cons_of_mem _ hws)]
    · rw [if_neg hws]
      by_cases ht : a.1 = t
      · rw [if_pos ht, if_pos (by rw [ht]; exact mem_cons_self ..)]
      · rw [if_neg ht, if_neg (not_mem_cons_of_ne_of_not_mem ht hws)]

/-- **CALL RULE**: an accepted call on data sectors keeps what the device writes
    keep; the view moves as the array does. -/
theorem Safe.call (hP : Stable C Q P) (h : Safe C Q P u u s)
    (hop : op.Accepted) (hsec : ∀ t ∈ op.sectors, DataSector t) :
    Safe C Q P (arrayStep u op).2 u (s.call op).2 := by
  intro hC
  obtain ⟨hg, hp, hev⟩ := h fun e he => hC e (call_events s op he)
  obtain ⟨c, ws, -, -, hcall, hws, hdrop, hdisk, hg'⟩ := call_effect hg hop hsec
  rw [hcall] at hC ⊢
  have hC' : ∀ e ∈ writeBackEvents s.bc.disk s.core (ws.map fun t => (t, u t)), C e := by
    intro e he
    refine hC e (mem_append_right _ ?_)
    rw [hdrop]
    exact he
  obtain ⟨hlast, hev'⟩ := backs_keep hP ws s.bc.disk s.core hp hws hC'
  refine ⟨hg', ?_, ?_⟩
  · show P c.disk u (List.foldl _ s.core (c.writes.drop s.bc.writes.length))
    rw [hdrop, hdisk]
    exact hlast
  · rw [← hdrop] at hev'
    exact forall_mem_append.mpr ⟨hev, hev'⟩

/-! ## The manager in memory -/

/-- The log does not depend on the rest of the manager; the active transactions
    may change as long as they are known. -/
theorem LogInv.of_wal (h : LogInv d k)
    (hbuf : k'.wal.logBuffer = k.wal.logBuffer) (hlsn : k'.wal.nextLsn = k.wal.nextLsn)
    (hst : k'.storedLsn = k.storedLsn) (hid : k.wal.nextTxnId ≤ k'.wal.nextTxnId)
    (htxns : ∀ x ∈ k'.wal.activeTxns, 1 ≤ x.txnId ∧ x.txnId < k'.wal.nextTxnId ∧
      1 ≤ x.firstLsn ∧ x.firstLsn ≤ k.wal.nextLsn)
    (hfirst : ∀ x ∈ k'.wal.activeTxns, ∀ r, InLog d k r → r.txnId = x.txnId →
      x.firstLsn ≤ r.lsn)
    (hnd : (k'.wal.activeTxns.map WalTxn.txnId).Nodup) : LogInv d k' := by
  have hin : ∀ r, InLog d k' r → InLog d k r := by
    intro r hr
    unfold InLog at hr
    rw [hbuf] at hr
    exact hr
  refine ⟨h.inPlace, ?_, fun r hr => h.writeOk r (hin r hr), ?_, ?_, ?_, ?_, ?_, ?_, ?_, ?_,
    fun x hx r hr => hfirst x hx r (hin r hr), hnd, Nat.le_trans h.idPos hid⟩
  · rw [hst]; exact h.ring
  · intro r hr
    obtain ⟨h1, h2⟩ := h.txnIds r (hin r hr)
    exact ⟨Nat.lt_of_lt_of_le h1 hid, h2⟩
  · rw [hbuf, hlsn]; exact h.buffer
  · rw [hbuf]; exact h.short
  · rw [hbuf, hlsn]; exact h.base
  · rw [hbuf, hlsn, hst]; exact h.reach
  · rw [hlsn, hst]; exact h.top
  · rw [hbuf, hst]; exact h.copies
  · rw [hlsn]; exact htxns

/-- Changes that keep the counters and the active transactions. -/
theorem LogInv.of_same (h : LogInv d k)
    (hbuf : k'.wal.logBuffer = k.wal.logBuffer) (hlsn : k'.wal.nextLsn = k.wal.nextLsn)
    (hst : k'.storedLsn = k.storedLsn) (hid : k'.wal.nextTxnId = k.wal.nextTxnId)
    (hact : k'.wal.activeTxns = k.wal.activeTxns) : LogInv d k' := by
  refine h.of_wal hbuf hlsn hst (Nat.le_of_eq hid.symm) ?_ ?_ ?_
  · rw [hact, hid]; exact h.txns
  · rw [hact]; exact h.firsts
  · rw [hact]; exact h.nodup

/-- Removing a transaction. -/
theorem LogInv.remove (h : LogInv d k) (t : Nat)
    (hwal : k'.wal = removeTxn k.wal t) (hst : k'.storedLsn = k.storedLsn) : LogInv d k' := by
  have hmem : ∀ x ∈ k'.wal.activeTxns, x ∈ k.wal.activeTxns := by
    intro x hx
    rw [hwal] at hx
    exact (mem_filter.mp hx).1
  refine h.of_wal (by rw [hwal]; rfl) (by rw [hwal]; rfl) hst (by rw [hwal]; exact Nat.le_refl _)
    ?_ (fun x hx => h.firsts x (hmem x hx)) ?_
  · intro x hx
    rw [hwal]
    exact h.txns x (hmem x hx)
  · rw [hwal]
    exact List.Sublist.nodup (filter_sublist.map _) h.nodup

/-- Dropping a buffer that is stored. -/
theorem LogInv.reset (h : LogInv d k) (hp : k.pending = []) :
    LogInv d { k with wal := resetBuffer k.wal } := by
  have hl := h.pending_lsns.2
  rw [hp] at hl
  have hl' : k.storedLsn + 0 + 1 = k.wal.nextLsn := hl
  have hin : ∀ r, InLog d { k with wal := resetBuffer k.wal } r → InLog d k r :=
    fun r hr => .inl (hr.resolve_right nofun)
  refine ⟨h.inPlace, h.ring, fun r hr => h.writeOk r (hin r hr),
    fun r hr => h.txnIds r (hin r hr), rfl, Nat.zero_le _, ?_, ?_, h.top,
    nofun, h.txns, fun x hx r hr => h.firsts x hx r (hin r hr), h.nodup,
    h.idPos⟩
  · show 0 < k.wal.nextLsn
    omega
  · show k.wal.nextLsn ≤ k.storedLsn + 1 + 0
    omega

theorem copyRecord_rest (w : WalManager) (r : WalRecord) :
    (copyRecord w r).activeTxns = w.activeTxns ∧
      (copyRecord w r).nextTxnId = w.nextTxnId ∧
      (copyRecord w r).checkpointing = w.checkpointing := by
  obtain ⟨p, h⟩ := copyRecord_shape w r
  rw [h]
  exact ⟨rfl, rfl, rfl⟩

/-- The table of transactions is not looked at. -/
theorem copyRecord_txns (w : WalManager) (r : WalRecord) (txns : List WalTxn) :
    { copyRecord w r with activeTxns := txns } = copyRecord { w with activeTxns := txns } r := by
  unfold copyRecord logUsed
  dsimp only
  split_ifs <;> rfl

theorem inLog_copy {q : WalRecord}
    (h : InLog d { k with wal := copyRecord k.wal r } q) : InLog d k q ∨ q = r := by
  rcases h with hq | hq
  · exact .inl (.inl hq)
  · rw [copyRecord_logBuffer] at hq
    rcases mem_append.mp hq with hq | hq
    · exact .inl (.inr hq)
    · exact .inr (mem_singleton.mp hq)

/-- Copying a record with the next LSN into a buffer with room. -/
theorem LogInv.copy (h : LogInv d k) (hroom : k.wal.logBuffer.length < walBufferRecords)
    (hlsn : r.lsn = k.wal.nextLsn) (hok : r.type = .write → WriteOk r)
    (hid : r.txnId < k.wal.nextTxnId)
    (hpos : r.type = .write ∨ r.type = .commit ∨ r.type = .abort → 1 ≤ r.txnId) :
    LogInv d { k with wal := copyRecord k.wal r } := by
  have hin : ∀ q, InLog d { k with wal := copyRecord k.wal r } q → InLog d k q ∨ q = r :=
    fun q hq => inLog_copy hq
  obtain ⟨pend, hcopy⟩ := copyRecord_shape k.wal r
  rw [hcopy] at hin ⊢
  have htop := h.top
  refine { h with
    writeOk := ?_, txnIds := ?_, buffer := ?_, short := ?_, base := ?_, reach := ?_, top := ?_
    copies := ?_, txns := ?_, firsts := ?_ }
  · intro q hq
    rcases hin q hq with hq | rfl
    · exact h.writeOk q hq
    · exact hok
  · intro q hq
    rcases hin q hq with hq | rfl
    · exact h.txnIds q hq
    · exact ⟨hid, hpos⟩
  · have hbase := h.base
    rw [map_append, length_append, h.buffer, length_singleton, List.range'_1_concat, map_singleton,
      hlsn, show k.wal.nextLsn + 1 - (k.wal.logBuffer.length + 1)
        = k.wal.nextLsn - k.wal.logBuffer.length by omega,
      show k.wal.nextLsn - k.wal.logBuffer.length + k.wal.logBuffer.length
        = k.wal.nextLsn by omega]
  · rw [length_append]
    exact hroom
  · rw [length_append]
    exact Nat.succ_lt_succ h.base
  · rw [length_append]
    exact Nat.succ_le_succ h.reach
  · exact Nat.lt_succ_of_lt htop
  · refine forall_mem_append.mpr ⟨h.copies, forall_mem_singleton.mpr fun hle => ?_⟩
    have hle' : r.lsn ≤ k.storedLsn := hle
    omega
  · intro x hx
    obtain ⟨h1, h2, h3, h4⟩ := h.txns x hx
    exact ⟨h1, h2, h3, Nat.le_succ_of_le h4⟩
  · intro x hx q hq ht
    rcases hin q hq with hq | rfl
    · exact h.firsts x hx q hq ht
    · rw [hlsn]
      exact (h.txns x hx).2.2.2

/-- The queue after a copy. -/
theorem pending_copy (h : k.storedLsn < r.lsn) :
    ({ k with wal := copyRecord k.wal r } : Core).pending = k.pending ++ [r] := by
  show (copyRecord k.wal r).logBuffer.filter (fun q => k.storedLsn < q.lsn) = _
  rw [copyRecord_logBuffer, filter_append, filter_cons_of_pos (by simpa using h)]
  rfl

/-- A call into the cache changes no more than the tags of the disk. -/
theorem call_core (s : Sys) (op : CacheOp) :
    ∃ tag, (s.call op).2.core = { s.core with diskTag := tag } := by
  have hfold : ∀ (ws : List (Sector × Block)) (k : Core), ∃ tag,
      ws.foldl (fun k w => k.after (.data w.1 w.2)) k = { k with diskTag := tag } := by
    intro ws
    induction ws with
    | nil => intro k; exact ⟨k.diskTag, rfl⟩
    | cons w ws ih =>
      intro k
      obtain ⟨tag, h⟩ := ih (k.after (.data w.1 w.2))
      exact ⟨tag, h⟩
  unfold Sys.call
  cases cacheStep s.bc op with
  | none => exact ⟨s.core.diskTag, rfl⟩
  | some out => exact hfold _ _

theorem Settled.call (h : Settled s.core) (op : CacheOp) : Settled (s.call op).2.core := by
  obtain ⟨tag, hcore⟩ := call_core s op
  rw [hcore]
  exact { h with }

theorem storeRecords_events (rs : List WalRecord) (s : Sys) :
    s.events ⊆ (s.storeRecords rs).events := by
  induction rs generalizing s with
  | nil => exact fun e he => he
  | cons r rs ih =>
    intro e he
    exact ih (s.storeRecord r) (mem_append_left _ he)

theorem appendRecord_events (s : Sys) (r : WalRecord) :
    s.events ⊆ (s.appendRecord r).events := storeRecords_events _ s

theorem walFlush_events (s : Sys) (upTo : Nat) : s.events ⊆ (s.walFlush upTo).events :=
  storeRecords_events _ s

/-! ## The records of one write -/

/-- A record for a part of a write. -/
structure ChunkOf (w : TxnWrite) (old : List UInt8) (r : WalRecord) : Prop where
  txnId : r.txnId = w.txnId
  type : r.type = .write
  sector : r.sector = w.sector
  size : 0 < r.length ∧ r.length ≤ walMaxDataSize
  part : ∃ n, r.offset = w.offset + n ∧ n + r.length ≤ w.data.length ∧
    payloadBytes r.newData r.length = (w.data.drop n).take r.length ∧
    (old.length = w.data.length →
      payloadBytes r.oldData r.length = (old.drop n).take r.length)

theorem logChunks_spec (w : TxnWrite) (old : List UInt8) (fuel logged : Nat) :
    logged ≤ w.data.length → w.data.length ≤ logged + fuel →
    (∀ r ∈ logChunks w.txnId w.sector w.offset old w.data fuel logged, ChunkOf w old r) ∧
      ∀ i, logged ≤ i → i < w.data.length →
        ∃ r ∈ logChunks w.txnId w.sector w.offset old w.data fuel logged,
          r.offset ≤ w.offset + i ∧ w.offset + i < r.offset + r.length := by
  induction fuel generalizing logged with
  | zero =>
    intro _ h
    exact ⟨nofun, fun i h1 h2 => by omega⟩
  | succ fuel ih =>
    intro hle hfuel
    unfold logChunks
    split
    · generalize hchunk : (if walMaxDataSize < w.data.length - logged then walMaxDataSize
        else w.data.length - logged) = chunk
      have hsize : 0 < chunk ∧ chunk ≤ walMaxDataSize ∧ logged + chunk ≤ w.data.length := by
        rw [← hchunk]
        unfold walMaxDataSize
        split <;> omega
      have htake : ∀ l : List UInt8, l.length = w.data.length →
          ((l.drop logged).take chunk).length = chunk := by
        intro l hl
        rw [length_take, length_drop]
        omega
      have hpay : ∀ l : List UInt8, l.length = w.data.length →
          payloadBytes (payloadOf ((l.drop logged).take chunk)) chunk
            = (l.drop logged).take chunk := by
        intro l hl
        have := payloadBytes_payloadOf ((l.drop logged).take chunk)
          (by rw [htake l hl]; exact hsize.2.1)
        rw [htake l hl] at this
        exact this
      obtain ⟨h1, h2⟩ := ih (logged + chunk) (by omega) (by omega)
      constructor
      · intro r hr
        rcases mem_cons.mp hr with rfl | hr
        · exact ⟨rfl, rfl, rfl, ⟨hsize.1, hsize.2.1⟩, logged, rfl, hsize.2.2,
            hpay w.data rfl, hpay old⟩
        · exact h1 r hr
      · intro i hi1 hi2
        by_cases hi : i < logged + chunk
        · refine ⟨_, mem_cons_self .., ?_, ?_⟩
          · show w.offset + logged ≤ w.offset + i
            omega
          · show w.offset + i < w.offset + logged + chunk
            omega
        · obtain ⟨r, hr, hri⟩ := h2 i (by omega) hi2
          exact ⟨r, mem_cons_of_mem _ hr, hri⟩
    · exact ⟨nofun, fun i h1 h2 => by omega⟩

/-- Where a part of a range covers, it says what the range says. -/
theorem rangePatch_part {s : Sector} {ofs n len : Nat} {data : List UInt8}
    (hn : n + len ≤ data.length)
    (ha : a.1 = s ∧ ofs + n ≤ a.2.val ∧ a.2.val < ofs + n + len) :
    rangePatch s (ofs + n) ((data.drop n).take len) a = rangePatch s ofs data a := by
  have hlen : ((data.drop n).take len).length = len := by
    rw [length_take, length_drop]
    omega
  rw [rangePatch_inside (by rw [hlen]; exact ha), rangePatch_inside ⟨ha.1, by omega, by omega⟩]
  rw [getD_eq_getElem?_getD, getD_eq_getElem?_getD,
    List.getElem?_take_of_lt (by omega), List.getElem?_drop,
    show n + (a.2.val - (ofs + n)) = a.2.val - ofs by omega]

theorem ChunkOf.patches {w : TxnWrite} {old : List UInt8}
    (h : ChunkOf w old r) (hold : old.length = w.data.length) (ha : Covers r a) :
    newPatch r a = w.patch a ∧ oldPatch r a = rangePatch w.sector w.offset old a ∧
      (w.patch a).isSome = true := by
  obtain ⟨n, hofs, hn, hnew, hol⟩ := h.part
  have ha' : a.1 = w.sector ∧ w.offset + n ≤ a.2.val ∧ a.2.val < w.offset + n + r.length := by
    rw [← h.sector, ← hofs]
    exact ha
  refine ⟨?_, ?_, ?_⟩
  · unfold newPatch TxnWrite.patch
    rw [hnew, hofs, h.sector]
    exact rangePatch_part hn ha'
  · unfold oldPatch
    rw [hol hold, hofs, h.sector]
    exact rangePatch_part (by omega) ha'
  · refine (rangePatch_isSome ..).mpr ⟨ha'.1, by omega, by omega⟩

theorem ChunkOf.writeOk {w : TxnWrite} {old : List UInt8}
    (h : ChunkOf w old r) (hdata : DataSector w.sector)
    (hrange : RangeOk w.offset w.data.length) : WriteOk r := by
  obtain ⟨n, hofs, hn, -, -⟩ := h.part
  obtain ⟨h1, h2, h3⟩ := hrange
  refine ⟨by rw [h.sector]; exact hdata, ⟨?_, h.size.1, ?_⟩, h.size.2⟩
  · have := h.size.1
    omega
  · omega

/-! ## Reading records back -/

/-- The record is in its log sector. -/
def Stored (d : Disk) (r : WalRecord) : Prop := Fits r ∧ d (logSector r.lsn) = bytesOf r

theorem Stored.slot (h : Stored d r) : slotRecord d ((r.lsn - 1) % walLogSectors) = some r := by
  unfold slotRecord
  rw [show walLogStartSector + (r.lsn - 1) % walLogSectors = logSector r.lsn from rfl, h.2,
    if_pos (checksumOk_bytesOf r), recordOf_bytesOf h.1]

theorem Stored.mem (h : Stored d r) : r ∈ storedLog d :=
  mem_storedLog.mpr ⟨(r.lsn - 1) % walLogSectors, Nat.mod_lt _ (by decide), h.slot⟩

/-- `wal_read_record` finds exactly the records of the log, by LSN. -/
theorem LogInv.walReadRecord_eq (h : LogInv d k) {lsn : Nat}
    : walReadRecord d lsn = some r ↔ r ∈ storedLog d ∧ r.lsn = lsn := by
  simp only [walReadRecord, Option.ite_none_left_eq_some, Option.ite_some_none_eq_some]
  constructor
  · rintro ⟨-, hl, hc, rfl⟩
    refine ⟨mem_storedLog.mpr ⟨(lsn - 1) % 64, Nat.mod_lt _ (by decide), ?_⟩,
      Decidable.not_not.mp hl⟩
    rw [slotRecord, ← logSector_slot, if_pos hc]
  · rintro ⟨hr, rfl⟩
    have hpos := (h.ring r hr).1
    obtain ⟨i, hi, hslot⟩ := mem_storedLog.mp hr
    rw [slotRecord, ← h.inPlace i r hi hslot, Option.ite_some_none_eq_some] at hslot
    exact ⟨by omega, fun hne => hne (by rw [hslot.2]), hslot⟩

theorem walReadRecord_congr {d' : Disk} (h : SameLog d d') (lsn : Nat) :
    walReadRecord d' lsn = walReadRecord d lsn := by
  unfold walReadRecord
  rw [h _ (not_dataSector_logSector lsn)]

/-- `undo_lsns` are the LSNs of the stored writes of the transaction, oldest
    first: no more than 64 of them can be stored. -/
theorem LogInv.undoLsns_spec (h : LogInv d k) {txn : WalTxn} (htxn : txn ∈ k.wal.activeTxns) :
    (∀ lsn, lsn ∈ undoLsns d txn k.wal.nextLsn ↔
      ∃ r ∈ storedLog d, r.lsn = lsn ∧ r.txnId = txn.txnId ∧ r.type = .write) ∧
    (undoLsns d txn k.wal.nextLsn).Pairwise (· < ·) := by
  generalize hF : (List.range' txn.firstLsn (k.wal.nextLsn - txn.firstLsn)).filter (fun lsn =>
    isWriteOf txn.txnId (walReadRecord d lsn)) = F
  have hsorted : F.Pairwise (· < ·) := by
    rw [← hF]
    exact List.Pairwise.filter _ pairwise_lt_range'
  have hmem : ∀ lsn, lsn ∈ F ↔
      ∃ r ∈ storedLog d, r.lsn = lsn ∧ r.txnId = txn.txnId ∧ r.type = .write := by
    intro lsn
    rw [← hF, mem_filter, mem_range'_1]
    constructor
    · rintro ⟨-, hw⟩
      cases hr : walReadRecord d lsn with
      | none => rw [hr] at hw; exact nomatch hw
      | some r =>
        rw [hr] at hw
        obtain ⟨hr1, hr2⟩ := h.walReadRecord_eq.mp hr
        exact ⟨r, hr1, hr2, of_decide_eq_true hw⟩
    · rintro ⟨r, hr, hlsn, ht, hw⟩
      have h1 := h.firsts txn htxn r (.inl hr) ht
      have h2 := h.lsn_lt (.inl hr)
      refine ⟨by omega, ?_⟩
      rw [h.walReadRecord_eq.mpr ⟨hr, hlsn⟩]
      exact decide_eq_true ⟨ht, hw⟩
  have hlen : F.length ≤ 64 := by
    have hsub : F ⊆ List.range' (k.storedLsn - 63) 64 := by
      intro lsn hl
      obtain ⟨r, hr, hlsn, -⟩ := (hmem lsn).mp hl
      have := h.ring r hr
      rw [mem_range'_1]
      omega
    have hnd : F.Nodup := hsorted.imp fun hlt => Nat.ne_of_lt hlt
    have := (subperm_of_subset hnd hsub).length_le
    exact this
  have heq : undoLsns d txn k.wal.nextLsn = F := by
    unfold undoLsns
    rw [hF]
    exact take_of_length_le hlen
  rw [heq]
  exact ⟨hmem, hsorted⟩

/-- The queue after its head is stored. -/
theorem LogInv.pending_store (h : LogInv d k) (hp : k.pending = p :: ps) :
    (k.after (.record p)).pending = ps := by
  obtain ⟨hlsn, -⟩ := h.pending_head hp
  have hl := h.pending_lsns.1
  rw [hp, map_cons, length_cons, List.range'_succ] at hl
  have hps : ∀ q ∈ ps, p.lsn < q.lsn := by
    intro q hq
    have hm : q.lsn ∈ ps.map WalRecord.lsn := mem_map.mpr ⟨q, hq, rfl⟩
    rw [(List.cons.inj hl).2, mem_range'_1] at hm
    omega
  -- filtering the queue once more with the new bound takes its head off
  have hfilter : (k.after (.record p)).pending = k.pending.filter fun r => p.lsn < r.lsn := by
    show k.wal.logBuffer.filter (fun r => (k.after (.record p)).storedLsn < r.lsn) = _
    rw [h.storedLsn_store hp]
    show _ = (k.wal.logBuffer.filter fun r => k.storedLsn < r.lsn).filter _
    rw [filter_filter]
    refine filter_congr ?_
    intro r _
    by_cases hr : p.lsn < r.lsn
    · have hr' : k.storedLsn < r.lsn := by omega
      simp [hr, hr']
    · simp [hr]
  rw [hfilter, hp, filter_cons_of_neg (by simp)]
  exact filter_eq_self.mpr fun q hq => decide_eq_true (hps q hq)

/-! ## The append rule -/

/-- `k'` is `k` after a flush that may have dropped the buffer. -/
def Roomed (k k' : Core) : Prop := ∃ m buf, k' = { k with
  wal := { k.wal with flushedLsn := m, logBuffer := buf }, storedLsn := m }

/-- The manager after an append. -/
theorem appendRecord_core (h : Settled s.core) (r : WalRecord) :
    ∃ k, Roomed s.core k ∧ Settled k ∧ k.wal.logBuffer.length < walBufferRecords ∧
      (s.appendRecord r).core = { k with
        wal := copyRecord k.wal { r with lsn := s.core.wal.nextLsn } } := by
  obtain ⟨m, buf, -, -, hcore, hset⟩ := makeRoom_settled h
  refine ⟨s.makeRoom.core, ⟨m, buf, hcore⟩, hset, makeRoom_room s, ?_⟩
  rw [appendRecord_eq]
  rfl

theorem Settled.append (h : Settled s.core)
    (hr : r.type ≠ .commit) : Settled (s.appendRecord r).core := by
  obtain ⟨k, ⟨m, buf, hk⟩, hset, -, hcore⟩ := appendRecord_core h r
  have hlsn : s.core.wal.nextLsn = k.wal.nextLsn := by rw [hk]
  obtain ⟨pend, hcopy⟩ := copyRecord_shape k.wal { r with lsn := s.core.wal.nextLsn }
  rw [hcore, hcopy]
  refine ⟨hset.flushed, ⟨Nat.lt_succ_of_lt hset.below.1, forall_mem_append.mpr ⟨fun q hq =>
    Nat.lt_succ_of_lt (hset.below.2 q hq), forall_mem_singleton.mpr ?_⟩⟩, hset.idle, ?_⟩
  · rw [← hlsn]
    exact Nat.lt_succ_self _
  · intro q hq
    obtain ⟨hq, hlt⟩ := mem_filter.mp hq
    rcases mem_append.mp hq with hq | hq
    · exact hset.noCommit q (mem_filter.mpr ⟨hq, hlt⟩)
    · rw [mem_singleton.mp hq]
      exact hr

theorem Settled.flush (h : Settled s.core) (upTo : Nat) : Settled (s.walFlush upTo).core := by
  obtain ⟨m, hm, hcore, -⟩ := walFlush_settled h upTo
  rw [hcore]
  exact settled_of_flush h hm

/-- There is room for a record in the buffer, and no call is in the middle of a flush. -/
structure Ready (k : Core) : Prop where
  settled : Settled k
  room : k.wal.logBuffer.length < walBufferRecords

/-- **APPEND RULE**: what is kept by the device writes and by copying the record
    into a buffer with room is kept by the append. -/
theorem Safe.append (hP : Stable C Q P)
    (P' : Disk → Disk → Core → Prop) (v' : Disk)
    (h : Safe C Q P u v s) (hs : Settled s.core) (r : WalRecord)
    (hcopy : ∀ d k, P d v k → Roomed s.core k → Ready k →
      P' d v' { k with wal := copyRecord k.wal { r with lsn := k.wal.nextLsn } }) :
    Safe C Q P' u v' (s.appendRecord r) := by
  obtain ⟨m, buf, -, -, hcore, hset⟩ := makeRoom_settled hs
  rw [appendRecord_eq]
  refine (h.makeRoom hP hs).setCore ?_
  intro _ hp
  have hnew := hcopy _ _ hp ⟨m, buf, hcore⟩ ⟨hset, makeRoom_room s⟩
  have hlsn : s.makeRoom.core.wal.nextLsn = s.core.wal.nextLsn := by
    rw [hcore]
  rw [hlsn] at hnew
  exact hnew

/-! ## More rules -/

/-- The commit record reaches the log: `wal_txn_commit` up to its flush. -/
theorem commit_core (h : Settled s.core) (t : Nat) : ∃ k, Roomed s.core k ∧ Settled k ∧
      ((s.appendRecord (markRecord .commit t)).walFlush s.core.wal.nextLsn).core = { k with
        wal := { copyRecord k.wal { markRecord .commit t with lsn := k.wal.nextLsn } with
          flushedLsn := k.wal.nextLsn }
        storedLsn := k.wal.nextLsn
        committing := some t } := by
  obtain ⟨k, hroom, hset, -, hcore⟩ := appendRecord_core h (markRecord .commit t)
  have hlsn : s.core.wal.nextLsn = k.wal.nextLsn := by
    obtain ⟨m, buf, hk⟩ := hroom
    rw [hk]
  rw [hlsn] at hcore ⊢
  refine ⟨k, hroom, hset, ?_⟩
  generalize hp : ({ markRecord .commit t with lsn := k.wal.nextLsn } : WalRecord) = p at hcore ⊢
  have hpl : p.lsn = k.wal.nextLsn := by rw [← hp]
  generalize s.appendRecord (markRecord .commit t) = s1 at hcore ⊢
  have hwal : s1.core.wal = copyRecord k.wal p := by rw [hcore]
  have hst : s1.core.storedLsn = k.storedLsn := by rw [hcore]
  have hbuf : s1.core.wal.logBuffer = k.wal.logBuffer ++ [p] := by
    rw [hwal, copyRecord_logBuffer]
  have hmax : maxLsn k.storedLsn k.wal.logBuffer < p.lsn := by
    rw [hpl]
    exact maxLsn_lt _ _ _ hset.below.1 hset.below.2
  have hmax' : maxLsn k.storedLsn (k.wal.logBuffer ++ [p]) = p.lsn := by
    unfold maxLsn at hmax ⊢
    rw [foldl_append]
    exact if_pos hmax
  unfold Sys.walFlush
  rcases walFlush_cases s1.core.wal k.wal.nextLsn with ⟨-, hle | hnil⟩ | ⟨hw, -, -⟩
  · rw [hwal, copyRecord_flushedLsn, hset.flushed] at hle
    have := hset.below.1
    omega
  · rw [hbuf] at hnil
    exact absurd hnil (by simp)
  · rw [hw]
    have hfl : s1.core.wal.flushedLsn = k.storedLsn := by
      rw [hwal, copyRecord_flushedLsn, hset.flushed]
    rw [hbuf, hfl, hmax']
    have hfirst := storeRecords_core k.wal.logBuffer s1 (by
      intro r hr hlt
      rw [hst] at hlt
      exact hset.noCommit r (mem_filter.mpr ⟨hr, decide_eq_true hlt⟩))
    have hlast : (s1.storeRecords (k.wal.logBuffer ++ [p])).core
        = (s1.storeRecords k.wal.logBuffer).core.after (.record p) := by
      unfold Sys.storeRecords
      rw [foldl_append]
      rfl
    have hcom : p.type = .commit := by rw [← hp]; rfl
    have htxn : p.txnId = t := by rw [← hp]; rfl
    simp only [Sys.setWal, hlast, hfirst, hst, Core.after, hcom, if_pos hmax, true_and, htxn]
    rw [hwal, hpl, hcore, ← copyRecord_logBuffer k.wal p]

/-- What an append leaves alone. -/
theorem appendRecord_rest (h : Settled s.core) (r : WalRecord) :
    (s.appendRecord r).core.wal.activeTxns = s.core.wal.activeTxns ∧
      (s.appendRecord r).core.wal.nextTxnId = s.core.wal.nextTxnId ∧
      (s.appendRecord r).core.wal.nextLsn = s.core.wal.nextLsn + 1 := by
  obtain ⟨k, ⟨m, buf, hk⟩, -, -, hcore⟩ := appendRecord_core h r
  obtain ⟨h1, h2, -⟩ := copyRecord_rest k.wal { r with lsn := s.core.wal.nextLsn }
  rw [hcore]
  rw [h1, h2, copyRecord_nextLsn, hk]
  exact ⟨rfl, rfl, rfl⟩

theorem findTxn_some {t : Nat} {x : WalTxn} (h : findTxn w t = some x) :
    x ∈ w.activeTxns ∧ x.txnId = t := by
  have hb := List.find?_some h
  exact ⟨mem_of_find?_eq_some h, eq_of_beq hb⟩

/-! ## Begin -/

/-- The manager after `wal_txn_begin`, from the one with room in its buffer. -/
def begun (w : WalManager) : WalManager :=
  { copyRecord { w with nextTxnId := w.nextTxnId + 1 }
      { markRecord .begin w.nextTxnId with lsn := w.nextLsn } with
    activeTxns := w.activeTxns ++ [⟨w.nextTxnId, w.nextLsn, w.nextLsn⟩] }

/-- The transaction enters the table. -/
def Core.opened (k : Core) : Core :=
  { k with wal := { k.wal with
      nextTxnId := k.wal.nextTxnId + 1
      activeTxns := k.wal.activeTxns ++ [⟨k.wal.nextTxnId, k.wal.nextLsn, k.wal.nextLsn⟩] } }

/-- The table is not read while the record is made. -/
theorem begun_opened (k : Core) :
    ({ k with wal := begun k.wal } : Core) = { k.opened with
      wal := copyRecord k.opened.wal
        { markRecord .begin k.wal.nextTxnId with lsn := k.wal.nextLsn } } := by
  unfold begun
  rw [copyRecord_txns]
  rfl

theorem LogInv.opened (h : LogInv d k) : LogInv d k.opened := by
  refine h.of_wal rfl rfl rfl (Nat.le_succ _) ?_ ?_ ?_
  · refine forall_mem_append.mpr ⟨fun x hx => ?_, forall_mem_singleton.mpr ?_⟩
    · obtain ⟨h1, h2, h3⟩ := h.txns x hx
      exact ⟨h1, Nat.lt_succ_of_lt h2, h3⟩
    · exact ⟨h.idPos, Nat.lt_succ_self _, Nat.one_le_of_lt h.base, Nat.le_refl _⟩
  · refine forall_mem_append.mpr ⟨h.firsts, forall_mem_singleton.mpr fun r hr ht => ?_⟩
    exact absurd ht (Nat.ne_of_lt (h.txnIds r hr).1)
  · show ((k.wal.activeTxns ++ [_]).map WalTxn.txnId).Nodup
    rw [map_append, map_singleton]
    refine nodup_append.mpr ⟨h.nodup, nodup_singleton _, ?_⟩
    intro t ht t' ht' heq
    obtain ⟨x, hx, rfl⟩ := mem_map.mp ht
    rw [mem_singleton.mp ht'] at heq
    exact Nat.ne_of_lt (h.txns x hx).2.1 heq

theorem LogInv.begun (h : LogInv d k) (hroom : k.wal.logBuffer.length < walBufferRecords) :
    LogInv d { k with wal := begun k.wal } := by
  rw [begun_opened]
  exact h.opened.copy hroom rfl nofun (Nat.lt_succ_self _) (fun hw => by simp [markRecord] at hw)

theorem Settled.begin (h : Settled s.core) (m : Bool) : Settled (s.walTxnBegin m).core := by
  cases m with
  | false => exact h
  | true =>
    have hs := Settled.append (s := s.setWal { s.core.wal with
        nextTxnId := s.core.wal.nextTxnId + 1 })
      { h with }
      (r := markRecord .begin s.core.wal.nextTxnId) nofun
    exact { hs with }

/-- **BEGIN RULE**: beginning a transaction keeps what the device writes keep and
    what taking the next transaction number and queueing its record keeps; the
    number of the next transaction matters to neither `C` nor `Q`. -/
theorem Safe.begin (P' : Disk → Disk → Core → Prop)
    (hP : Stable C Q P)
    (hC : ∀ {d k t} (n : Nat), C ⟨d, k, t⟩ →
      C ⟨d, { k with wal := { k.wal with nextTxnId := n } }, t⟩)
    (hQ : ∀ {d k} (n : Nat), Q d { k with wal := { k.wal with nextTxnId := n } } → Q d k)
    (h : Safe C Q P u v s) (hs : Settled s.core)
    (hbegin : ∀ d k, P d v k → Ready k →
      P' d v { k with wal := begun k.wal }) :
    Safe C Q P' u v (s.walTxnBegin true) := by
  obtain ⟨id, hid⟩ : ∃ id, s.core.wal.nextTxnId = id := ⟨_, rfl⟩
  -- the device writes see the new number, the invariant is about the old one
  have hP' : Stable C Q fun d v k =>
      P d v { k with wal := { k.wal with nextTxnId := id } } ∧ id ≤ k.wal.nextTxnId :=
    { log := by
        rintro d v k ⟨hp, hle⟩
        have hl := hP.log hp
        refine hl.of_wal rfl rfl rfl hle ?_ hl.firsts hl.nodup
        intro x hx
        obtain ⟨h1, h2, h3⟩ := hl.txns x hx
        exact ⟨h1, Nat.lt_of_lt_of_le h2 hle, h3⟩
      good := fun hp => hQ id (hP.good hp.1)
      store := fun hp hpend hc => ⟨hP.store hp.1 hpend (hC id hc), hp.2⟩
      back := fun hp ht hc => ⟨hP.back hp.1 ht (hC id hc), hp.2⟩
      view := fun hp hv => ⟨hP.view hp.1 hv, hp.2⟩
      flushed := fun n hp => ⟨hP.flushed n hp.1, hp.2⟩
      reset := fun hp hpend => ⟨hP.reset hp.1 hpend, hp.2⟩ }
  have hs1 : Settled (s.setWal { s.core.wal with nextTxnId := id + 1 }).core :=
    { hs with }
  have h1 : Safe C Q (fun d v k =>
      P d v { k with wal := { k.wal with nextTxnId := id } } ∧ id ≤ k.wal.nextTxnId) u v
      (s.setWal { s.core.wal with nextTxnId := id + 1 }) := by
    refine h.setCore fun _ hp => ⟨?_, Nat.le_succ id⟩
    rw [← hid]
    exact hp
  have h2 := h1.append hP' (fun d v k => P' d v { k with wal := { k.wal with
      activeTxns := k.wal.activeTxns ++ [⟨id, s.core.wal.nextLsn, s.core.wal.nextLsn⟩] } })
    v hs1 (markRecord .begin id) (by
    rintro d k ⟨hp, -⟩ ⟨m, buf, rfl⟩ hready
    have hset := hready.settled
    have hnew := hbegin d _ hp ⟨{ hset with }, hready.room⟩
    have hact := (copyRecord_rest { s.core.wal with
      flushedLsn := m, logBuffer := buf, nextTxnId := id + 1 }
      { markRecord .begin id with lsn := s.core.wal.nextLsn }).1
    show P' d v { s.core with
      wal := { copyRecord { s.core.wal with
        flushedLsn := m, logBuffer := buf, nextTxnId := id + 1 }
        { markRecord .begin id with lsn := s.core.wal.nextLsn } with
        activeTxns := (copyRecord { s.core.wal with
          flushedLsn := m, logBuffer := buf, nextTxnId := id + 1 }
          { markRecord .begin id with lsn := s.core.wal.nextLsn }).activeTxns
          ++ [⟨id, s.core.wal.nextLsn, s.core.wal.nextLsn⟩] }
      storedLsn := m }
    rw [hact]
    exact hnew)
  subst hid
  exact h2.setCore fun _ hp => hp

theorem pending_begun (h : k.storedLsn < k.wal.nextLsn) :
    ({ k with wal := begun k.wal } : Core).pending
      = k.pending ++ [{ markRecord .begin k.wal.nextTxnId with lsn := k.wal.nextLsn }] :=
  pending_copy (k := { k with wal := { k.wal with nextTxnId := k.wal.nextTxnId + 1 } }) h

/-! ## `last_lsn` -/

theorem mem_setLastLsn {t lsn : Nat} {y : WalTxn} (hy : y ∈ (setLastLsn w t lsn).activeTxns) :
    ∃ z ∈ w.activeTxns, z.txnId = y.txnId ∧ z.firstLsn = y.firstLsn := by
  obtain ⟨z, hz, rfl⟩ := mem_map.mp hy
  refine ⟨z, hz, ?_⟩
  split <;> exact ⟨rfl, rfl⟩

theorem setLastLsn_ids (w : WalManager) (t lsn : Nat) :
    (setLastLsn w t lsn).activeTxns.map WalTxn.txnId = w.activeTxns.map WalTxn.txnId := by
  unfold setLastLsn
  rw [map_map]
  refine map_congr_left ?_
  intro z _
  show (if z.txnId = t then _ else z).txnId = z.txnId
  split <;> rfl

theorem LogInv.setLastLsn (h : LogInv d k) (t lsn : Nat) :
    LogInv d { k with wal := setLastLsn k.wal t lsn } := by
  refine h.of_wal rfl rfl rfl (Nat.le_refl _) ?_ ?_ ?_
  · intro y hy
    obtain ⟨z, hz, hzt, hzf⟩ := mem_setLastLsn hy
    rw [← hzt, ← hzf]
    exact h.txns z hz
  · intro y hy q hq hqt
    obtain ⟨z, hz, hzt, hzf⟩ := mem_setLastLsn hy
    rw [← hzf]
    exact h.firsts z hz q hq (hqt.trans hzt.symm)
  · rw [setLastLsn_ids]
    exact h.nodup

/-! ## The end of a commit -/

/-- After the flush of `wal_txn_commit` its commit is in the log and nothing waits. -/
theorem commit_flushed (h : Settled s.core) (t : Nat) :
    ((s.appendRecord (markRecord .commit t)).walFlush s.core.wal.nextLsn).core.committing
        = some t ∧
      ((s.appendRecord (markRecord .commit t)).walFlush s.core.wal.nextLsn).core.pending
        = [] := by
  obtain ⟨k, -, hset, hcore⟩ := commit_core h t
  obtain ⟨pend, hcopy⟩ := copyRecord_shape k.wal { markRecord .commit t with lsn := k.wal.nextLsn }
  rw [hcore, hcopy]
  refine ⟨rfl, filter_eq_nil_iff.mpr fun r hr hlt => ?_⟩
  exact Nat.not_lt_of_le (forall_mem_append.mpr ⟨fun q hq => Nat.le_of_lt (hset.below.2 q hq),
    forall_mem_singleton.mpr (Nat.le_refl k.wal.nextLsn)⟩ r hr) (of_decide_eq_true hlt)

/-- After `wal_txn_commit` nothing waits. -/
theorem Settled.commit (h : Settled s.core) (t : Nat) : Settled (s.commitTxn t).core := by
  obtain ⟨k, -, hset, hcore⟩ := commit_core h t
  obtain ⟨-, hpend⟩ := commit_flushed h t
  obtain ⟨pend, hcopy⟩ := copyRecord_shape k.wal { markRecord .commit t with lsn := k.wal.nextLsn }
  show Settled (Core.commitReturns _ t)
  rw [hcore, hcopy] at hpend ⊢
  refine ⟨rfl, ⟨Nat.lt_succ_self _, forall_mem_append.mpr ⟨fun q hq =>
    Nat.lt_succ_of_lt (hset.below.2 q hq), forall_mem_singleton.mpr (Nat.lt_succ_self _)⟩⟩, rfl, ?_⟩
  intro r hr
  have hr' : r ∈ [] := hpend ▸ hr
  exact nomatch hr'

/-! ## The log under calls into the cache -/

theorem writeBacks_sameLog (ws : List Sector) (d : Disk) :
    (∀ t ∈ ws, DataSector t) → SameLog d (writeBacks v ws d) := by
  induction ws generalizing d with
  | nil => intro _ t _; rfl
  | cons w ws ih =>
    intro h t ht
    have hne : t ≠ w := by
      rintro rfl
      exact ht (h t (mem_cons_self ..))
    refine (ih (blockWrite d w (v w)) (fun t' ht' => h t' (mem_cons_of_mem _ ht')) t ht).trans ?_
    exact blockWrite_other hne

theorem call_flush (s : Sys) : (s.call .flush).2.bc = cacheFlush s.bc := by
  simp only [Sys.call, cacheStep, Sys.observe]

theorem call_sameLog (hg : Ground u s) (op : CacheOp)
    (hop : op.Accepted) (hsec : ∀ t ∈ op.sectors, DataSector t) :
    SameLog s.bc.disk (s.call op).2.bc.disk := by
  obtain ⟨c, ws, -, -, hcall, hws, -, hdisk, -⟩ := call_effect hg hop hsec
  rw [hcall]
  show SameLog s.bc.disk c.disk
  rw [hdisk]
  exact writeBacks_sameLog ws _ hws

theorem undoLsn_frame (s : Sys) (lsn : Nat) :
    (s.undoLsn lsn).core.wal = s.core.wal ∧ s.events ⊆ (s.undoLsn lsn).events := by
  unfold Sys.undoLsn
  cases walReadRecord s.bc.disk lsn with
  | none => exact ⟨rfl, fun e he => he⟩
  | some r =>
    obtain ⟨tag, hcore⟩ := call_core s (.write r.sector r.offset (payloadBytes r.oldData r.length))
    refine ⟨?_, call_events s _⟩
    show (Sys.call s _).2.core.wal = s.core.wal
    rw [hcore]

theorem undoLsns_frame (L : List Nat) (s : Sys) : (L.foldl Sys.undoLsn s).core.wal = s.core.wal ∧
      s.events ⊆ (L.foldl Sys.undoLsn s).events := by
  induction L generalizing s with
  | nil => exact ⟨rfl, fun e he => he⟩
  | cons lsn L ih =>
    obtain ⟨h1, h2⟩ := undoLsn_frame s lsn
    obtain ⟨h3, h4⟩ := ih (s.undoLsn lsn)
    exact ⟨h3.trans h1, List.Subset.trans h2 h4⟩

/-! ## A mounted system -/

theorem mounted_settled (c : BufferCache) (hw : Idle w) : Settled (mounted c w).core := by
  obtain ⟨hbuf, -, hfl, -⟩ := hw
  cases w
  obtain rfl := hbuf
  exact ⟨rfl, ⟨Nat.lt_of_lt_of_eq (Nat.lt_succ_self _) hfl.symm, nofun⟩, rfl, nofun⟩

/-- Nothing in the log, nothing in memory. -/
theorem mounted_logInv (c : BufferCache) (hw : Idle w)
    (hblank : storedLog c.disk = []) : LogInv c.disk (mounted c w).core := by
  obtain ⟨hbuf, htxns, hfl, hid⟩ := hw
  cases w
  obtain rfl := hbuf
  obtain rfl := htxns
  dsimp only at hfl
  subst hfl
  have hstored : ∀ r, r ∉ storedLog c.disk := fun r hr => by rw [hblank] at hr; exact nomatch hr
  have hin : ∀ (k : Core) r, k.wal.logBuffer = [] → ¬ InLog c.disk k r := fun k r hnil hr =>
    hr.elim (hstored r) (by rw [hnil]; nofun)
  exact ⟨fun i r hi hr => absurd (mem_storedLog.mpr ⟨i, hi, hr⟩) (hstored r),
    fun r hr => absurd hr (hstored r), fun r hr => absurd hr (hin _ r rfl),
    fun r hr => absurd hr (hin _ r rfl), rfl, Nat.zero_le _, Nat.succ_pos _, Nat.le_refl _,
    Nat.lt_succ_self _, nofun, nofun, nofun, nodup_nil, hid⟩

theorem mounted_ground (c : BufferCache) (w : WalManager) :
    Ground c.disk (mounted c w) := by
  obtain ⟨hok, hview⟩ := cacheInit_ok c
  refine ⟨rfl, hok, ?_, fun t _ => congrFun hview t⟩
  rintro t ⟨i, hi⟩
  exact absurd rfl hi.1

end MavSystem
