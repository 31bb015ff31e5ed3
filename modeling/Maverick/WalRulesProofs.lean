import Maverick.WalCallProofs

/-! # Rules for whole calls — what a run of the log and the cache keeps

Every call of a run is a sequence of device writes, appends to the buffer and changes of the cache.
`WalRules` lists what has to be shown of an invariant at each of these points, in terms of the
device, the view and the manager alone; `WalRules.run` is then the invariant for every run.

A call passes through phases. While a logged write is being logged, its records are in the log and
its bytes are not in the cache yet; while an abort undoes its writes, the view of its bytes is on
the way back. -/

namespace MavRules

open MavBlock MavRecord MavLog MavRecover MavCache MavSystem MavOverride MavRun List

/-! ## Phases -/

/-- Where the call in progress stands. -/
inductive Phase where
  | idle
  | logging (w : TxnWrite) (recs : List WalRecord)
  | plain (t : Sector) (ofs : Nat) (data : List UInt8)
  | undoing (t : Nat)

/-- A stored `WAL_WRITE` of transaction `t`. -/
def WriteOf (d : Disk) (t : Nat) (r : WalRecord) : Prop :=
  r ∈ storedLog d ∧ r.type = .write ∧ r.txnId = t

/-- Every byte with a stored record of `t` has the old value of the oldest of them. -/
def Restored (d v : Disk) (t : Nat) : Prop :=
  ∀ x r, WriteOf d t r → Covers r x → (∀ q, WriteOf d t q → Covers q x → r.lsn ≤ q.lsn) →
    oldPatch r x = some (dataBytes v x)

/-- The cache is clean: the data sectors of the device are what it presents. -/
def Clean (d v : Disk) : Prop := ∀ s, DataSector s → d s = v s

/-- The view after a write to the cache. -/
def writeView (v : Disk) (t : Sector) (ofs : Nat) (data : List UInt8) : Disk :=
  (arrayStep v (.write t ofs data)).2

/-- The manager with a record copied into its buffer. -/
def Core.push (k : Core) (r : WalRecord) : Core :=
  { k with wal := copyRecord k.wal { r with lsn := k.wal.nextLsn } }

/-- The manager at the end of `wal_checkpoint`. -/
def Core.checkpointed (k : Core) : Core :=
  { k with
    wal := { k.wal with checkpointing := false }
    quietLsns := if k.wal.activeTxns.isEmpty then k.quietLsns ++ [k.wal.nextLsn - 1]
      else k.quietLsns }

/-- What an invariant has to satisfy to hold in every run. `C` is the condition
    on device writes, `Q` what holds after each of them, `G` the guard on the
    calls, and `P` the invariant in each phase. -/
structure WalRules (C : Event → Prop) (Q : Disk → Core → Prop)
    (G : Disk → Core → Op → Prop) (P : Phase → Disk → Disk → Core → Prop) : Prop where
  stable : ∀ ph, Stable C Q (P ph)
  condId : ∀ {d k t} (n : Nat), C ⟨d, k, t⟩ →
    C ⟨d, { k with wal := { k.wal with nextTxnId := n } }, t⟩
  goodId : ∀ {d k} (n : Nat), Q d { k with wal := { k.wal with nextTxnId := n } } → Q d k
  legal : ∀ {d k op}, G d k op → op.Legal
  active : ∀ {d k w}, G d k (.write w) → (findTxn k.wal w.txnId).isSome
  memory : ∀ {d k t m1 m2}, G d k (.abort t m1 m2) → m1 = true ∧ m2 = true
  flags : ∀ {d v k} (a b : Bool), P .idle d v k →
    P .idle d v { k with wal := { k.wal with checkpointing := a, checkpointPending := b } }
  begin : ∀ {d v k}, P .idle d v k → Ready k →
    P .idle d v { k with wal := begun k.wal }
  logStart : ∀ {d v k w}, P .idle d v k → Settled k → G d k (.write w) →
    P (.logging w []) d v k
  logChunk : ∀ {d v k w recs r}, P (.logging w recs) d v k → Ready k →
    ChunkOf w (bytesAt (v w.sector) w.offset w.data.length) r →
    P (.logging w (recs ++ [{ r with lsn := k.wal.nextLsn }])) d v (Core.push k r)
  lastLsn : ∀ {d v k w recs} (t n : Nat), P (.logging w recs) d v k →
    P (.logging w recs) d v { k with wal := setLastLsn k.wal t n }
  logEnd : ∀ {d v k w recs tag}, P (.logging w recs) d v k →
    (∀ r ∈ recs, ∃ old, old.length = w.data.length ∧ ChunkOf w old r) →
    (∀ x, (w.patch x).isSome → ∃ r ∈ recs, Covers r x) →
    P .idle d (writeView v w.sector w.offset w.data)
      { k with txnWrites := k.txnWrites ++ [w], viewTag := tag }
  plainStart : ∀ {d v k t ofs data}, P .idle d v k → Settled k →
    G d k (.plainWrite t ofs data) → P (.plain t ofs data) d v k
  plainEnd : ∀ {d v k t ofs data tag}, P (.plain t ofs data) d v k →
    P .idle d (writeView v t ofs data) { k with viewTag := tag }
  commitMark : ∀ {d v k x}, P .idle d v k → Ready k → x ∈ k.wal.activeTxns →
    P .idle d v (Core.push k (markRecord .commit x.txnId))
  commitReturns : ∀ {d v k t}, P .idle d v k → k.committing = some t → k.pending = [] →
    P .idle d v (k.commitReturns t)
  checkpoint : ∀ {d v k}, P .idle d v k → Ready k →
    P .idle d v (Core.push k (markRecord .checkpoint 0))
  checkpointed : ∀ {d v k}, P .idle d v k → Settled k → k.pending = [] → Clean d v →
    P .idle d v (Core.checkpointed k)
  undoStart : ∀ {d v k x}, P .idle d v k → Settled k → k.pending = [] →
    x ∈ k.wal.activeTxns → P (.undoing x.txnId) d v k
  undoStep : ∀ {d v v' k t tag}, P (.undoing t) d v k →
    (∀ x, (∀ r, WriteOf d t r → ¬ Covers r x) → dataBytes v' x = dataBytes v x) →
    P (.undoing t) d v' { k with viewTag := tag }
  undoEnd : ∀ {d v k x}, P (.undoing x.txnId) d v k → Ready k → k.pending = [] →
    x ∈ k.wal.activeTxns → Clean d v → Restored d v x.txnId →
    P .idle d v ((Core.push k (markRecord .abort x.txnId)).abortReturns x.txnId true)

/-! ## States of a run -/

/-- Between two steps of a call: the counters agree, and the invariant holds of
    what the cache presents if all device writes so far met the condition. -/
structure Driven (C : Event → Prop) (Q : Disk → Core → Prop)
    (P : Disk → Disk → Core → Prop) (s : Sys) : Prop where
  settled : Settled s.core
  safe : Safe C Q P (cacheView s.bc) (cacheView s.bc) s

variable {t : Nat} {u d v : Disk} {s : Sys} {old : List UInt8} {r : WalRecord} {w : TxnWrite}
  {L : List Nat} {C : Event → Prop} {G : Disk → Core → Op → Prop} {Q : Disk → Core → Prop}
  {P : Phase → Disk → Disk → Core → Prop}

section General

variable {P P' : Disk → Disk → Core → Prop}

theorem safe_view (hP : OfData P) (h : Safe C Q P u u s) :
    Safe C Q P (cacheView s.bc) (cacheView s.bc) s := by
  intro hC
  obtain ⟨hg, hp, hev⟩ := h hC
  exact ⟨{ hg with view := fun _ _ => rfl }, hP _ _ _ _ hp hg.view, hev⟩

theorem Driven.setCore (h : Driven C Q P s) {k : Core} (hk : Settled k)
    (hp : P s.bc.disk (cacheView s.bc) s.core → P' s.bc.disk (cacheView s.bc) k) :
    Driven C Q P' { s with core := k } :=
  ⟨hk, h.safe.setCore fun _ => hp⟩

/-- Moving on to another phase. -/
theorem Driven.phase (h : Driven C Q P s)
    (hp : P s.bc.disk (cacheView s.bc) s.core → P' s.bc.disk (cacheView s.bc) s.core) :
    Driven C Q P' s :=
  ⟨h.settled, h.safe.setCore fun _ => hp⟩

theorem Driven.flush (hP : Stable C Q P) (h : Driven C Q P s) (upTo : Nat) :
    Driven C Q P (s.walFlush upTo) :=
  ⟨h.settled.flush upTo, safe_view hP.ofData (h.safe.walFlush hP upTo)⟩

theorem Driven.abortReturns (h : Driven C Q (fun d v k => P d v (k.abortReturns t true)) s) :
    Driven C Q P { s with core := s.core.abortReturns t true } :=
  ⟨⟨h.settled.flushed, h.settled.below, h.settled.idle, h.settled.noCommit⟩,
    h.safe.setCore fun _ hp => hp⟩

variable (hP : Stable C Q P)

include hP

/-- A call into the cache that changes nothing of what it presents. -/
theorem Driven.call (h : Driven C Q P s) (op : CacheOp)
    (hsame : ∀ u, (arrayStep u op).2 = u)
    (hop : (∀ e ∈ s.events, C e) → op.Accepted ∧ ∀ t ∈ op.sectors, DataSector t) :
    Driven C Q P (s.call op).2 := by
  refine ⟨h.settled.call op, Safe.of_events s (call_events s op) fun hC => ?_⟩
  have hcall := h.safe.call hP (hop hC).1 (hop hC).2
  rw [hsame] at hcall
  exact safe_view hP.ofData hcall

/-- A write to the cache. -/
theorem Driven.write (hP' : OfData P') (h : Driven C Q P s)
    (t : Sector) (ofs : Nat) (data : List UInt8)
    (hop : (∀ e ∈ s.events, C e) → RangeOk ofs data.length ∧ DataSector t)
    {f : Core → Core} (hf : Settled (f (s.call (.write t ofs data)).2.core))
    (hp : ∀ d k, (∀ e ∈ s.events, C e) → P d (cacheView s.bc) k →
      SameLog s.bc.disk d → P' d (writeView (cacheView s.bc) t ofs data) (f k)) :
    Driven C Q P' { (s.call (.write t ofs data)).2 with
      core := f (s.call (.write t ofs data)).2.core } := by
  refine ⟨hf, Safe.of_events s (call_events s _) fun hC => ?_⟩
  have hsec : ∀ t' ∈ (CacheOp.write t ofs data).sectors, DataSector t' :=
    forall_mem_singleton.mpr (hop hC).2
  have hacc : (CacheOp.write t ofs data).Accepted := (hop hC).1
  have hcall := h.safe.call hP hacc hsec
  have hsame := call_sameLog (h.safe hC).1 (.write t ofs data) hacc hsec
  exact safe_view hP' (hcall.setCore fun _ hpd => hp _ _ hC hpd hsame)

/-- Appending a record. -/
theorem Driven.append (hP' : OfData P') (h : Driven C Q P s)
    (r : WalRecord) (hr : r.type ≠ .commit)
    (hp : (∀ e ∈ s.events, C e) → ∀ d k, P d (cacheView s.bc) k → Roomed s.core k →
      Ready k → P' d (cacheView s.bc) (Core.push k r)) :
    Driven C Q P' (s.appendRecord r) := by
  refine ⟨h.settled.append hr, Safe.of_events s (appendRecord_events s r) fun hC => ?_⟩
  exact safe_view hP' (h.safe.append hP P' (cacheView s.bc) h.settled r (hp hC))

/-- Device writes and flushes leave the bytes of the view, the next LSN and the
    active transactions alone, so anything about them may be added. -/
theorem stable_and (F : (Addr → UInt8) → Nat → List WalTxn → Prop) :
    Stable C Q fun d v k => P d v k ∧ F (dataBytes v) k.wal.nextLsn k.wal.activeTxns where
  log h := hP.log h.1
  good h := hP.good h.1
  store h hp hc := ⟨hP.store h.1 hp hc, h.2⟩
  back h ht hc := ⟨hP.back h.1 ht hc, h.2⟩
  view h hv := ⟨hP.view h.1 hv, by rw [dataBytes_congr hv]; exact h.2⟩
  flushed n h := ⟨hP.flushed n h.1, h.2⟩
  reset h hp := ⟨hP.reset h.1 hp, h.2⟩

theorem clean_stable : Stable C Q fun d v k => P d v k ∧ Clean d v where
  log h := hP.log h.1
  good h := hP.good h.1
  store h hp hc := by
    refine ⟨hP.store h.1 hp hc, ?_⟩
    intro t ht
    rw [blockWrite_other]
    · exact h.2 t ht
    · rintro rfl
      exact not_dataSector_logSector _ ht
  back := by
    intro d v k t h ht hc
    refine ⟨hP.back h.1 ht hc, ?_⟩
    intro t' ht'
    by_cases he : t' = t
    · rw [he, blockWrite_same]
    · rw [blockWrite_other he]
      exact h.2 t' ht'
  view h hv := ⟨hP.view h.1 hv, fun t ht => (h.2 t ht).trans (hv t ht).symm⟩
  flushed n h := ⟨hP.flushed n h.1, h.2⟩
  reset h hp := ⟨hP.reset h.1 hp, h.2⟩

/-- `cache_flush` leaves the cache clean. -/
theorem Driven.flushCache (h : Driven C Q P s) :
    Driven C Q (fun d v k => P d v k ∧ Clean d v) (s.call .flush).2 := by
  have hcall := h.call hP .flush (fun _ => rfl) fun _ => ⟨trivial, nofun⟩
  refine ⟨hcall.settled, fun hC => ?_⟩
  obtain ⟨hg, hp, hev⟩ := hcall.safe hC
  refine ⟨hg, ⟨hp, ?_⟩, hev⟩
  have hok := (h.safe fun e he => hC e (call_events s _ he)).1.ok
  obtain ⟨ws, heff, hdisk, -⟩ := cacheFlush_spec hok
  rw [call_flush, hdisk, heff.view]
  exact fun t _ => rfl

/-- `wal_flush` of everything leaves nothing waiting. -/
theorem Driven.flushTo (h : Driven C Q P s) (upTo : Nat)
    (hup : s.core.wal.nextLsn - 1 ≤ upTo) :
    Driven C Q (fun d v k => P d v k ∧ k.pending = []) (s.walFlush upTo) := by
  have hflush := h.flush hP upTo
  refine ⟨hflush.settled, fun hC => ?_⟩
  obtain ⟨hg, hp, hev⟩ := hflush.safe hC
  refine ⟨hg, ⟨hp, pending_eq_nil (hP.log hp) ?_⟩, hev⟩
  obtain ⟨m, -, hcore, hall⟩ := walFlush_settled h.settled upTo
  rw [hcore]
  exact fun r hr hle => hall r hr (Nat.le_trans hle hup)

theorem Driven.flushAll (h : Driven C Q P s) :
    Driven C Q (fun d v k => P d v k ∧ k.pending = []) s.flushAll :=
  h.flushTo hP _ (Nat.le_refl _)

end General

/-! ## The calls, one by one -/

section Calls

variable (R : WalRules C Q G P)

include R

theorem WalRules.setFlags (h : Driven C Q (P .idle) s) (a b : Bool) :
    Driven C Q (P .idle) { s with core := { s.core with
      wal := { s.core.wal with checkpointing := a, checkpointPending := b } } } :=
  h.setCore ⟨h.settled.flushed, h.settled.below, h.settled.idle, h.settled.noCommit⟩ (R.flags a b)

theorem WalRules.txnBegin (h : Driven C Q (P .idle) s) (m : Bool) :
    Driven C Q (P .idle) (s.walTxnBegin m) := by
  cases m with
  | false => exact h
  | true =>
    exact ⟨h.settled.begin true, safe_view (R.stable _).ofData (h.safe.begin _ (R.stable _)
      R.condId R.goodId h.settled fun _ _ hp hready => R.begin hp hready)⟩

/-! ### Logged writes -/

omit R in
theorem findTxn_isSome {w : WalManager} :
    (findTxn w t).isSome ↔ t ∈ w.activeTxns.map WalTxn.txnId := by
  unfold findTxn
  rw [List.find?_isSome, mem_map]
  simp only [beq_iff_eq]

omit R in
/-- What logging leaves alone. -/
theorem logChunks_settled (rs recs : List WalRecord) (s : Sys) : Settled s.core →
    (∀ r ∈ rs, r.type ≠ .commit) →
    Settled (rs.foldl Sys.logChunk (s, recs)).1.core ∧
      (rs.foldl Sys.logChunk (s, recs)).1.core.wal.activeTxns.map WalTxn.txnId
        = s.core.wal.activeTxns.map WalTxn.txnId ∧
      s.events ⊆ (rs.foldl Sys.logChunk (s, recs)).1.events := by
  induction rs generalizing recs s with
  | nil => intro hs _; exact ⟨hs, rfl, fun e he => he⟩
  | cons r rs ih =>
    intro hs hrs
    have hset := hs.append (hrs r (mem_cons_self ..))
    obtain ⟨h1, h2, h3⟩ := ih (recs ++ [stampRecord s.core.wal r]) (Sys.logChunk (s, recs) r).1
      { hset with }
      (fun q hq => hrs q (mem_cons_of_mem _ hq))
    refine ⟨h1, h2.trans ?_, List.Subset.trans (appendRecord_events s r) h3⟩
    show (setLastLsn (s.appendRecord r).core.wal _ _).activeTxns.map WalTxn.txnId = _
    rw [setLastLsn_ids, (appendRecord_rest hs r).1]

/-- All records of a logged write, whose old bytes are those the cache presents. -/
theorem WalRules.chunks (rs recs : List WalRecord) (s : Sys) :
    Settled s.core → Safe C Q (P (.logging w recs)) u u s →
    (∀ r ∈ rs, ChunkOf w (bytesAt (u w.sector) w.offset w.data.length) r) →
    Safe C Q (P (.logging w (rs.foldl Sys.logChunk (s, recs)).2)) u u
      (rs.foldl Sys.logChunk (s, recs)).1 := by
  induction rs generalizing recs s with
  | nil => intro _ h _; exact h
  | cons r rs ih =>
    intro hs h hrs
    have hr := hrs r (mem_cons_self ..)
    have hset := hs.append (r := r) (by rw [hr.type]; exact nofun)
    have happ := h.append (R.stable _)
      (P (.logging w (recs ++ [stampRecord s.core.wal r]))) u hs r (by
        rintro d k hp ⟨m, buf, rfl⟩ hready
        exact R.logChunk hp hready hr)
    refine ih _ _ ?_ (happ.setCore fun _ hp => R.lastLsn _ _ hp)
      (fun q hq => hrs q (mem_cons_of_mem _ hq))
    exact { hset with }

omit R in
/-- The records that come out are the chunks with their LSNs. -/
theorem logChunks_recs (rs recs : List WalRecord) (s : Sys) :
    (∀ q ∈ (rs.foldl Sys.logChunk (s, recs)).2, q ∈ recs ∨
      ∃ r ∈ rs, ∃ n, q = { r with lsn := n }) ∧
    (∀ q ∈ recs, q ∈ (rs.foldl Sys.logChunk (s, recs)).2) ∧
    ∀ r ∈ rs, ∃ n, ({ r with lsn := n } : WalRecord) ∈ (rs.foldl Sys.logChunk (s, recs)).2 := by
  induction rs generalizing recs s with
  | nil => exact ⟨fun q hq => .inl hq, fun q hq => hq, nofun⟩
  | cons r rs ih =>
    obtain ⟨h1, h2, h3⟩ := ih (recs ++ [stampRecord s.core.wal r]) (Sys.logChunk (s, recs) r).1
    refine ⟨?_, fun q hq => h2 q (mem_append_left _ hq), ?_⟩
    · intro q hq
      rcases h1 q hq with hq | ⟨r', hr', hn⟩
      · rcases mem_append.mp hq with hq | hq
        · exact .inl hq
        · exact .inr ⟨r, mem_cons_self .., _, mem_singleton.mp hq⟩
      · exact .inr ⟨r', mem_cons_of_mem _ hr', hn⟩
    · exact forall_mem_cons.mpr ⟨⟨_, h2 _ (mem_append_right _ (mem_singleton.mpr rfl))⟩, h3⟩

omit R in
theorem ChunkOf.stamp (h : ChunkOf w old r) (n : Nat) : ChunkOf w old { r with lsn := n } :=
  { h with }

/-- `wal_log_write` of an active transaction. -/
theorem WalRules.walLogWrite (hs : Settled s.core)
    (h : Safe C Q (P (.logging w [])) u u s) (hact : (findTxn s.core.wal w.txnId).isSome)
    (hold : old = bytesAt (u w.sector) w.offset w.data.length) :
    Safe C Q (P (.logging w (s.walLogWrite w.txnId w.sector old w.data w.offset).2)) u u
      (s.walLogWrite w.txnId w.sector old w.data w.offset).1 := by
  unfold Sys.walLogWrite
  obtain ⟨x, hx⟩ := Option.isSome_iff_exists.mp hact
  rw [hx]
  have hspec := logChunks_spec w old w.data.length 0 (Nat.zero_le _) (by omega)
  refine R.chunks _ [] s hs h ?_
  rw [← hold]
  exact hspec.1

omit R in
theorem walLogWrite_settled (hs : Settled s.core) (w : TxnWrite) (old : List UInt8) :
    Settled (s.walLogWrite w.txnId w.sector old w.data w.offset).1.core ∧
      (s.walLogWrite w.txnId w.sector old w.data w.offset).1.core.wal.activeTxns.map
        WalTxn.txnId = s.core.wal.activeTxns.map WalTxn.txnId ∧
      s.events ⊆ (s.walLogWrite w.txnId w.sector old w.data w.offset).1.events := by
  unfold Sys.walLogWrite
  cases findTxn s.core.wal w.txnId with
  | none => exact ⟨hs, rfl, fun e he => he⟩
  | some x =>
    refine logChunks_settled _ [] s hs ?_
    intro r hr
    have hc := (logChunks_spec w old w.data.length 0 (Nat.zero_le _) (by omega)).1 r hr
    rw [hc.type]
    exact nofun

omit R in
/-- The records of a logged write cover its bytes. -/
theorem walLogWrite_recs (hold : old.length = w.data.length)
    (hact : (findTxn s.core.wal w.txnId).isSome) :
    (∀ r ∈ (s.walLogWrite w.txnId w.sector old w.data w.offset).2,
      ∃ old, old.length = w.data.length ∧ ChunkOf w old r) ∧
    ∀ x, (w.patch x).isSome →
      ∃ r ∈ (s.walLogWrite w.txnId w.sector old w.data w.offset).2, Covers r x := by
  unfold Sys.walLogWrite
  obtain ⟨y, hy⟩ := Option.isSome_iff_exists.mp hact
  rw [hy]
  obtain ⟨hchunk, hcover⟩ := logChunks_spec w old w.data.length 0 (Nat.zero_le _) (by omega)
  obtain ⟨h1, -, h3⟩ := logChunks_recs
    (logChunks w.txnId w.sector w.offset old w.data w.data.length 0) [] s
  refine ⟨?_, ?_⟩
  · intro q hq
    rcases h1 q hq with hq | ⟨r, hr, n, rfl⟩
    · exact nomatch hq
    · exact ⟨old, hold, ChunkOf.stamp (hchunk r hr) n⟩
  intro x hx
  obtain ⟨hs, hlo, hhi⟩ := (rangePatch_isSome ..).mp hx
  obtain ⟨r, hr, hro, hrl⟩ := hcover (x.2.val - w.offset) (Nat.zero_le _) (by omega)
  obtain ⟨n, hn⟩ := h3 r hr
  refine ⟨_, hn, ?_⟩
  show x.1 = r.sector ∧ r.offset ≤ x.2.val ∧ x.2.val < r.offset + r.length
  rw [(hchunk r hr).sector]
  exact ⟨hs, by omega, by omega⟩

/-- The `cache_write` that follows `wal_log_write`. -/
theorem WalRules.writeLogged {recs : List WalRecord}
    (hs : Settled s.core) (hact : (findTxn s.core.wal w.txnId).isSome)
    (hdata : DataSector w.sector) (hrange : RangeOk w.offset w.data.length)
    (h : (∀ e ∈ s.events, C e) → Safe C Q (P (.logging w recs)) u u s ∧
      (∀ r ∈ recs, ∃ old, old.length = w.data.length ∧ ChunkOf w old r) ∧
      ∀ x, (w.patch x).isSome → ∃ r ∈ recs, Covers r x) :
    Driven C Q (P .idle) { (s.call (.write w.sector w.offset w.data)).2 with
      core := { (s.call (.write w.sector w.offset w.data)).2.core with
        txnWrites :=
          if (findTxn (s.call (.write w.sector w.offset w.data)).2.core.wal w.txnId).isSome
          then (s.call (.write w.sector w.offset w.data)).2.core.txnWrites ++ [w]
          else (s.call (.write w.sector w.offset w.data)).2.core.txnWrites
        viewTag := tagWrite (s.call (.write w.sector w.offset w.data)).2.core.viewTag
          recs w } } := by
  have hset := hs.call (.write w.sector w.offset w.data)
  obtain ⟨tag, hcore⟩ := call_core s (.write w.sector w.offset w.data)
  have hact' : (findTxn (s.call (.write w.sector w.offset w.data)).2.core.wal w.txnId).isSome := by
    rw [hcore]
    exact hact
  rw [if_pos hact']
  refine ⟨{ hset with }, Safe.of_events s (call_events s _) fun hC => ?_⟩
  obtain ⟨hsafe, hchunk, hcover⟩ := h hC
  have hacc : (CacheOp.write w.sector w.offset w.data).Accepted := hrange
  have hcall := hsafe.call (R.stable _) hacc (forall_mem_singleton.mpr hdata)
  exact safe_view (R.stable _).ofData (hcall.setCore fun _ hp => R.logEnd hp hchunk hcover)

/-- The body of the loop of `inode_write_at`. -/
theorem WalRules.loggedWrite (h : Driven C Q (P .idle) s)
    (hG : G s.bc.disk s.core (.write w)) : Driven C Q (P .idle) (s.loggedWrite w) := by
  obtain ⟨hdata, hrange⟩ : DataSector w.sector ∧ RangeOk w.offset w.data.length := R.legal hG
  have hsec : ∀ t ∈ [w.sector], DataSector t := forall_mem_singleton.mpr hdata
  have hact0 := R.active hG
  obtain ⟨u, hu⟩ : ∃ u, cacheView s.bc = u := ⟨_, rfl⟩
  -- the old bytes are read while the write is already announced
  have hstart : Safe C Q (P (.logging w [])) u u s := by
    rw [← hu]
    exact h.safe.setCore fun _ hp => R.logStart hp h.settled hG
  have hacc : (CacheOp.readAt w.sector w.offset w.data.length).Accepted := hrange
  have hread := hstart.call (R.stable _) hacc hsec
  have hset := h.settled.call (.readAt w.sector w.offset w.data.length)
  have hsub := call_events s (.readAt w.sector w.offset w.data.length)
  have hbytes : (∀ e ∈ s.events, C e) → (s.call (.readAt w.sector w.offset w.data.length)).1
      = bytesAt (u w.sector) w.offset w.data.length := by
    intro hC
    obtain ⟨c, ws, -, -, hcall, -⟩ := call_effect (hstart hC).1 hacc hsec
    rw [hcall]
    rfl
  obtain ⟨tag, hcore⟩ := call_core s (.readAt w.sector w.offset w.data.length)
  have hact : (findTxn (s.call (.readAt w.sector w.offset w.data.length)).2.core.wal
      w.txnId).isSome := by
    rw [hcore]
    exact hact0
  unfold Sys.loggedWrite
  generalize s.call (.readAt w.sector w.offset w.data.length) = read at *
  obtain ⟨old, s1⟩ := read
  have hread' : Safe C Q (P (.logging w [])) u u s1 := hread
  obtain ⟨hset2, hids, hsub2⟩ := walLogWrite_settled hset w old
  refine R.writeLogged hset2 (findTxn_isSome.mpr ?_) hdata hrange (u := u) ?_
  · rw [hids]
    exact findTxn_isSome.mp hact
  · intro hC
    have hC0 : ∀ e ∈ s.events, C e := fun e he => hC e (hsub2 (hsub he))
    have hlen : old.length = w.data.length := by
      rw [show old = _ from hbytes hC0, length_bytesAt]
    exact ⟨R.walLogWrite hset hread' hact (hbytes hC0), walLogWrite_recs hlen hact⟩

/-- A write outside any transaction. -/
theorem WalRules.plainWrite (h : Driven C Q (P .idle) s) {t : Sector} {ofs : Nat}
    {data : List UInt8} (hG : G s.bc.disk s.core (.plainWrite t ofs data)) :
    Driven C Q (P .idle) (s.plainWrite t ofs data) := by
  obtain ⟨hdata, hrange⟩ : DataSector t ∧ RangeOk ofs data.length := R.legal hG
  have hset := h.settled.call (.write t ofs data)
  refine (h.phase fun hp => R.plainStart hp h.settled hG).write (R.stable _) (R.stable _).ofData
    t ofs data (fun _ => ⟨hrange, hdata⟩)
    (f := fun k => { k with viewTag := tagWrite k.viewTag [] ⟨0, t, ofs, data⟩ })
    { hset with } ?_
  intro d k _ hp _
  exact R.plainEnd hp

/-! ### Checkpoint and commit -/

theorem WalRules.checkpointDone
    (h : Driven C Q (fun d v k => (P .idle d v k ∧ Clean d v) ∧ k.pending = []) s) :
    Driven C Q (P .idle) s.checkpointDone := by
  have hset := h.settled
  refine h.setCore { hset with } ?_
  rintro ⟨⟨hp, hclean⟩, hpend⟩
  exact R.checkpointed hp h.settled hpend hclean

/-- `wal_checkpoint`. -/
theorem WalRules.walCheckpoint (h : Driven C Q (P .idle) s) :
    Driven C Q (P .idle) s.walCheckpoint := by
  unfold Sys.walCheckpoint
  split
  · exact h
  · have hst := clean_stable (R.stable .idle)
    have hclean := (R.setFlags h true s.core.wal.checkpointPending).flushCache (R.stable .idle)
    have hmark := ((hclean.flushAll hst).phase And.left).append hst hst.ofData
      (markRecord .checkpoint 0) nofun
      fun _ d k hp _ hready => ⟨R.checkpoint hp.1 hready, hp.2⟩
    exact R.checkpointDone (hmark.flushAll hst)

/-- `wal_txn_commit` up to the removal of the transaction. -/
theorem WalRules.commitTxn (h : Driven C Q (P .idle) s) {x : WalTxn}
    (hx : x ∈ s.core.wal.activeTxns) : Driven C Q (P .idle) (s.commitTxn x.txnId) := by
  refine ⟨h.settled.commit x.txnId, ?_⟩
  have happ := h.safe.append (R.stable _) (P .idle) (cacheView s.bc) h.settled
    (markRecord .commit x.txnId) (by
      rintro d k hp ⟨m, buf, rfl⟩ hready
      exact R.commitMark hp hready hx)
  obtain ⟨hcom, hpend⟩ := commit_flushed h.settled x.txnId
  refine safe_view (R.stable _).ofData ((happ.walFlush (R.stable _) _).setCore fun _ hp => ?_)
  exact R.commitReturns hp hcom hpend

/-- `wal_txn_commit`. -/
theorem WalRules.walTxnCommit (h : Driven C Q (P .idle) s) (t : Nat) :
    Driven C Q (P .idle) (s.walTxnCommit t) := by
  unfold Sys.walTxnCommit
  cases hfind : findTxn s.core.wal t with
  | none => exact h
  | some x =>
    obtain ⟨hx, rfl⟩ := findTxn_some hfind
    have hcommit := R.commitTxn h hx
    show Driven C Q (P .idle) (s.commitTxn x.txnId).deferredCheckpoint
    unfold Sys.deferredCheckpoint
    split
    · exact R.walCheckpoint (R.setFlags hcommit _ false)
    · exact hcommit

end Calls

/-! ### Abort -/

/-- The undo of transaction `t` with the LSNs `L` still to come, newest first:
    every byte of a record done has the old value of the oldest of those. -/
structure Undone (d v : Disk) (t : Nat) (L : List Nat) : Prop where
  bytes : ∀ x r, WriteOf d t r → r.lsn ∉ L → Covers r x →
    (∀ q, WriteOf d t q → q.lsn ∉ L → Covers q x → r.lsn ≤ q.lsn) →
    oldPatch r x = some (dataBytes v x)
  above : ∀ r, WriteOf d t r → r.lsn ∉ L → ∀ l ∈ L, l < r.lsn
  here : ∀ l ∈ L, ∃ r, WriteOf d t r ∧ r.lsn = l
  down : L.Pairwise (fun a b => b < a)

theorem Undone.restored (h : Undone d v t []) : Restored d v t := by
  intro x r hr hrx hmin
  exact h.bytes x r hr not_mem_nil hrx fun q hq _ hqx => hmin q hq hqx

theorem writeOf_sameLog {d' : Disk} (h : storedLog d' = storedLog d)
    : WriteOf d' t r ↔ WriteOf d t r := by
  unfold WriteOf
  rw [h]

theorem Undone.congr {d' v' : Disk} (h : Undone d v t L)
    (hlog : storedLog d' = storedLog d) (hv : dataBytes v' = dataBytes v) :
    Undone d' v' t L := by
  have hiff : ∀ r, WriteOf d' t r ↔ WriteOf d t r := fun r => writeOf_sameLog hlog
  refine ⟨?_, ?_, ?_, h.down⟩
  · intro x r hr hrl hrx hmin
    rw [hv]
    exact h.bytes x r ((hiff r).mp hr) hrl hrx fun q hq => hmin q ((hiff q).mpr hq)
  · intro r hr
    exact h.above r ((hiff r).mp hr)
  · intro l hl
    obtain ⟨r, hr, hrl⟩ := h.here l hl
    exact ⟨r, (hiff r).mpr hr, hrl⟩

/-- The data bytes after a write to the cache. -/
theorem dataBytes_writeView (v : Disk) {t : Sector} {ofs : Nat} {data : List UInt8}
    (ht : DataSector t) (x : Addr) :
    dataBytes (writeView v t ofs data) x = (rangePatch t ofs data x).getD (dataBytes v x) := by
  have hb : toBytes (writeView v t ofs data) = applyPatch (toBytes v) (rangePatch t ofs data) :=
    toBytes_blockWrite ..
  unfold dataBytes
  by_cases hx : DataSector x.1
  · rw [if_pos hx, if_pos hx]
    exact congrFun hb x
  · rw [if_neg hx, if_neg hx]
    cases hp : rangePatch t ofs data x with
    | none => rfl
    | some b =>
      have hs := ((rangePatch_isSome t ofs data x).mp (by rw [hp]; rfl)).1
      rw [hs] at hx
      exact absurd ht hx

/-- Undoing the next record. -/
theorem Undone.step {l : Nat}
    (h : Undone d v t (l :: L)) (hin : InPlace d) (hr : WriteOf d t r) (hl : r.lsn = l)
    (hs : DataSector r.sector) :
    Undone d (writeView v r.sector r.offset (payloadBytes r.oldData r.length)) t L := by
  obtain ⟨hlt, hdown⟩ := pairwise_cons.mp h.down
  have hlL : l ∉ L := fun hm => Nat.lt_irrefl _ (hlt l hm)
  have hnew : ∀ x, dataBytes (writeView v r.sector r.offset
      (payloadBytes r.oldData r.length)) x = (oldPatch r x).getD (dataBytes v x) :=
    dataBytes_writeView v hs
  refine ⟨?_, ?_, fun l' hl' => h.here l' (mem_cons_of_mem _ hl'), hdown⟩
  · intro x q hq hqL hqx hmin
    rw [hnew]
    by_cases hrx : Covers r x
    · -- no record done before is older than this one
      have hle := hmin r hr (by rw [hl]; exact hlL) hrx
      have hqr : q = r := by
        by_cases hql : q.lsn = l
        · exact hin.lsn_inj hq.1 hr.1 (hql.trans hl.symm)
        · have := h.above q hq (not_mem_cons_of_ne_of_not_mem hql hqL) l (mem_cons_self ..)
          omega
      rw [hqr]
      obtain ⟨b, hb⟩ := Option.isSome_iff_exists.mp (oldPatch_isSome.mpr hrx)
      rw [hb]
      rfl
    · have hnone : oldPatch r x = none :=
        Option.not_isSome_iff_eq_none.mp fun hc => hrx (oldPatch_isSome.mp hc)
      have hql : q.lsn ∉ l :: L := by
        intro hm
        rcases mem_cons.mp hm with hm | hm
        · rw [hin.lsn_inj hq.1 hr.1 (hm.trans hl.symm)] at hqx
          exact hrx hqx
        · exact hqL hm
      rw [hnone]
      refine h.bytes x q hq hql hqx ?_
      intro q' hq' hql' hqx'
      exact hmin q' hq' (fun hm => hql' (mem_cons_of_mem _ hm)) hqx'
  · intro q hq hqL l' hl'
    by_cases hql : q.lsn = l
    · rw [hql]
      exact hlt l' hl'
    · exact h.above q hq (not_mem_cons_of_ne_of_not_mem hql hqL) l' (mem_cons_of_mem _ hl')

/-- The property `P` while the LSNs `L` of an active transaction are still to be undone. -/
def Undoing (P : Disk → Disk → Core → Prop) (txn : WalTxn) (L : List Nat)
    (d v : Disk) (k : Core) : Prop :=
  P d v k ∧ k.pending = [] ∧ txn ∈ k.wal.activeTxns ∧ Undone d v txn.txnId L

/-- Before the first turn nothing is undone, and `undo_lsns` has it all. -/
theorem undone_start {k : Core} (h : LogInv d k) {txn : WalTxn} (hx : txn ∈ k.wal.activeTxns) :
    Undone d v txn.txnId (undoLsns d txn k.wal.nextLsn).reverse := by
  obtain ⟨hmem, hup⟩ := h.undoLsns_spec hx
  have hall : ∀ r, WriteOf d txn.txnId r →
      r.lsn ∈ (undoLsns d txn k.wal.nextLsn).reverse := by
    rintro r ⟨hr, hw, ht⟩
    exact mem_reverse.mpr ((hmem r.lsn).mpr ⟨r, hr, rfl, ht, hw⟩)
  refine ⟨fun x r hr hl => absurd (hall r hr) hl, fun r hr hl => absurd (hall r hr) hl, ?_,
    pairwise_reverse.mpr hup⟩
  intro l hl
  obtain ⟨r, hr, hrl, ht, hw⟩ := (hmem l).mp (mem_reverse.mp hl)
  exact ⟨r, ⟨hr, hw, ht⟩, hrl⟩

section Abort

variable {P Pi P' : Disk → Disk → Core → Prop}
  {txn : WalTxn}

theorem undoing_stable (hP : Stable C Q P) (txn : WalTxn) (L : List Nat) :
    Stable C Q (Undoing P txn L) where
  log h := hP.log h.1
  good h := hP.good h.1
  store := by
    rintro d v k p ps ⟨-, hpend, -⟩ hp
    rw [hpend] at hp
    exact nomatch hp
  back := by
    rintro d v k t ⟨hp, hpend, hx, hu⟩ ht hc
    exact ⟨hP.back hp ht hc, hpend, hx, hu.congr (storedLog_write_data d ht _) rfl⟩
  view := by
    rintro d v v' k ⟨hp, hpend, hx, hu⟩ hv
    exact ⟨hP.view hp hv, hpend, hx, hu.congr rfl (dataBytes_congr hv)⟩
  flushed n h := ⟨hP.flushed n h.1, h.2⟩
  reset := by
    rintro d v k ⟨hp, hpend, hx, hu⟩ _
    exact ⟨hP.reset hp hpend, rfl, hx, hu⟩

/-- The property survives a change of the view where the transaction has stored records. -/
def UndoStep (txn : WalTxn) (P : Disk → Disk → Core → Prop) : Prop :=
  ∀ {d v v' k tag}, P d v k →
    (∀ x, (∀ r, WriteOf d txn.txnId r → ¬ Covers r x) → dataBytes v' x = dataBytes v x) →
    P d v' { k with viewTag := tag }

/-- One turn of the undo loop of `wal_txn_abort`. -/
theorem Driven.undoLsn (hP : Stable C Q P) (hstep : UndoStep txn P) {l : Nat}
    (h : Driven C Q (Undoing P txn (l :: L)) s) :
    Driven C Q (Undoing P txn L) (s.undoLsn l) := by
  have hst := undoing_stable hP txn (l :: L)
  have hst' := undoing_stable hP txn L
  -- the record is read back, and is one of the transaction's
  have hread : (∀ e ∈ s.events, C e) → ∃ r, walReadRecord s.bc.disk l = some r ∧
      WriteOf s.bc.disk txn.txnId r ∧ r.lsn = l ∧ WriteOk r := by
    intro hC
    obtain ⟨-, ⟨hp, -, -, hu⟩, -⟩ := h.safe hC
    obtain ⟨r, hr, hl⟩ := hu.here l (mem_cons_self ..)
    have hlog := hP.log hp
    exact ⟨r, hlog.walReadRecord_eq.mpr ⟨hr.1, hl⟩, hr, hl, hlog.writeOk r (.inl hr.1) hr.2.1⟩
  unfold Sys.undoLsn
  cases hr0 : walReadRecord s.bc.disk l with
  | none =>
    refine ⟨h.settled, fun hC => ?_⟩
    obtain ⟨r, hr, -⟩ := hread hC
    rw [hr0] at hr
    exact nomatch hr
  | some r =>
    have hset := h.settled.call (.write r.sector r.offset (payloadBytes r.oldData r.length))
    have hok : (∀ e ∈ s.events, C e) → WriteOf s.bc.disk txn.txnId r ∧ r.lsn = l ∧
        WriteOk r := by
      intro hC
      obtain ⟨r', hr', hrest⟩ := hread hC
      rw [hr0] at hr'
      rw [Option.some.inj hr']
      exact hrest
    refine h.write hst hst'.ofData r.sector r.offset (payloadBytes r.oldData r.length)
      (fun hC => ⟨by rw [length_payloadBytes]; exact (hok hC).2.2.range, (hok hC).2.2.data⟩)
      (f := fun k => { k with viewTag := untag k.viewTag r })
      { hset with } ?_
    rintro d k hC ⟨hp, hpend, hx, hu⟩ hsame
    obtain ⟨hr, hl, hw⟩ := hok hC
    have hr' : WriteOf d txn.txnId r := (writeOf_sameLog hsame.storedLog).mpr hr
    have hlog := hP.log hp
    refine ⟨hstep hp ?_, hpend, hx, hu.step hlog.inPlace hr' hl hw.data⟩
    intro x hx
    rw [dataBytes_writeView _ hw.data, show rangePatch r.sector r.offset
      (payloadBytes r.oldData r.length) x = none from
      Option.not_isSome_iff_eq_none.mp fun hc => hx r hr' (oldPatch_isSome.mp hc)]
    rfl

theorem Driven.undoLsns (hP : Stable C Q P) (hstep : UndoStep txn P) (L : List Nat) (s : Sys) :
    Driven C Q (Undoing P txn L) s →
      Driven C Q (Undoing P txn []) (L.foldl Sys.undoLsn s) := by
  induction L generalizing s with
  | nil => intro h; exact h
  | cons l L ih => intro h; exact ih _ (h.undoLsn hP hstep)

/-- The property at the end of an abort, from what the undo has brought about. -/
def AbortEnd (txn : WalTxn) (P P' : Disk → Disk → Core → Prop) : Prop :=
  ∀ {d v k}, P d v k → Ready k → k.pending = [] → txn ∈ k.wal.activeTxns → Clean d v →
    Restored d v txn.txnId →
    P' d v ((Core.push k (markRecord .abort txn.txnId)).abortReturns txn.txnId true)

/-- The rest of `wal_txn_abort` after its undo. -/
theorem Driven.finishAbort (hP : Stable C Q P) (hdata : OfData P') (hend : AbortEnd txn P P')
    (h : Driven C Q (Undoing P txn []) s) :
    Driven C Q P' (s.finishAbort txn.txnId) := by
  have hst := undoing_stable hP txn []
  have happ : Driven C Q (fun d v k => P' d v (k.abortReturns txn.txnId true))
      ((s.call .flush).2.appendRecord (markRecord .abort txn.txnId)) := by
    have hdata' : OfData fun d v k => P' d v (k.abortReturns txn.txnId true) :=
      fun _ _ _ _ hp hv => hdata _ _ _ _ hp hv
    refine (h.flushCache hst).append (clean_stable hst) hdata' _ (fun hc => ?_) ?_
    · exact nomatch (show RecordType.abort = .commit from hc)
    rintro _ d k ⟨⟨hp, hpend, hx, hu⟩, hclean⟩ _ hready
    exact hend hp hready hpend hx hclean hu.restored
  exact happ.abortReturns

/-- **ABORT RULE**: `wal_txn_abort` of an active transaction, memory given. -/
theorem Driven.walTxnAbort (hPi : Stable C Q Pi) (hP : Stable C Q P)
    (hstart : ∀ {d v k}, Pi d v k → Settled k → k.pending = [] → txn ∈ k.wal.activeTxns →
      P d v k) (hstep : UndoStep txn P) (hdata : OfData P') (hend : AbortEnd txn P P')
    (h : Driven C Q Pi s) (hfind : findTxn s.core.wal t = some txn) :
    Driven C Q P' (s.walTxnAbort t true true) := by
  unfold Sys.walTxnAbort
  rw [hfind]
  obtain ⟨hx, rfl⟩ := findTxn_some hfind
  have hflush := h.flushTo hPi s.core.wal.nextLsn (Nat.sub_le _ _)
  obtain ⟨m, -, hcore, -⟩ := walFlush_settled h.settled s.core.wal.nextLsn
  refine Driven.finishAbort hP hdata hend (Driven.undoLsns hP hstep _ _ (hflush.phase ?_))
  rintro ⟨hp, hpend⟩
  have hx' : txn ∈ (s.walFlush s.core.wal.nextLsn).core.wal.activeTxns := by
    rw [hcore]
    exact hx
  have hlsn : (s.walFlush s.core.wal.nextLsn).core.wal.nextLsn = s.core.wal.nextLsn := by
    rw [hcore]
  have hstart' := undone_start (v := cacheView (s.walFlush s.core.wal.nextLsn).bc) (hPi.log hp) hx'
  rw [hlsn] at hstart'
  exact ⟨hstart hp hflush.settled hpend hx', hpend, hx', hstart'⟩

end Abort

/-- `wal_txn_abort`. -/
theorem WalRules.walTxnAbort (R : WalRules C Q G P) (h : Driven C Q (P .idle) s) {m1 m2 : Bool}
    (hG : G s.bc.disk s.core (.abort t m1 m2)) :
    Driven C Q (P .idle) (s.walTxnAbort t m1 m2) := by
  obtain ⟨rfl, rfl⟩ := R.memory hG
  cases hfind : findTxn s.core.wal t with
  | none =>
    unfold Sys.walTxnAbort
    rw [hfind]
    exact h
  | some txn =>
    exact h.walTxnAbort (R.stable _) (R.stable (.undoing txn.txnId)) R.undoStart R.undoStep
      (R.stable _).ofData R.undoEnd hfind

/-! ## Whole runs -/

theorem WalRules.step (R : WalRules C Q G P) (h : Driven C Q (P .idle) s) {op : Op}
    (hG : G s.bc.disk s.core op) : Driven C Q (P .idle) (s.step op) := by
  have hlegal := R.legal hG
  cases op with
  | begin m => exact R.txnBegin h m
  | write w => exact R.loggedWrite h hG
  | plainWrite t ofs data => exact R.plainWrite h hG
  | commit t => exact R.walTxnCommit h t
  | abort t m1 m2 => exact R.walTxnAbort h hG
  | checkpoint => exact R.walCheckpoint h
  | cacheFlush =>
    exact h.call (R.stable _) .flush (fun _ => rfl) fun _ => ⟨trivial, nofun⟩
  | read t ofs len =>
    exact h.call (R.stable _) _ (fun _ => rfl) fun _ =>
      ⟨hlegal.2, forall_mem_singleton.mpr hlegal.1⟩
  | prefetch t =>
    exact h.call (R.stable _) _ (fun _ => rfl) fun _ =>
      ⟨trivial, forall_mem_singleton.mpr hlegal⟩

/-- The calls of a run as a stepping system. -/
def sysStep (s : Sys) (op : Op) : Option Sys := some (s.step op)

theorem exec_sysStep (ops : List Op) (s : Sys) : exec sysStep s ops = some (s.run ops) := by
  induction ops generalizing s with
  | nil => rfl
  | cons op ops ih => exact ih (s.step op)

/-- **RUN RULE**: an invariant with the rules holds in every guarded run. -/
theorem WalRules.run (R : WalRules C Q G P) {ops : List Op} (h : Driven C Q (P .idle) s)
    (hG : Guarded sysStep (fun s op => G s.bc.disk s.core op) s ops) :
    Driven C Q (P .idle) (s.run ops) := by
  refine exec_inv (I := fun s => Driven C Q (P .idle) s) ?_ ops s (s.run ops) h hG
    (exec_sysStep ops s)
  intro s op s' h hG hstep
  rw [← Option.some.inj hstep]
  exact R.step h hG

/-- A mounted system starts in the idle phase. -/
theorem driven_mounted
    {P : Disk → Disk → Core → Prop} (c : BufferCache) {w : WalManager} (hw : Idle w)
    (hP : OfData P) (hp : P c.disk c.disk (mounted c w).core) :
    Driven C Q P (mounted c w) := by
  have hg := mounted_ground c w
  refine ⟨mounted_settled c hw, fun _ => ⟨{ hg with view := fun _ _ => rfl }, ?_, nofun⟩⟩
  exact hP _ _ _ _ hp hg.view

end MavRules
