import Maverick.RunProofs
import Maverick.LogProofs

/-! # Threads appending to the log

Each section of `wal_append_record` and `wal_flush` under `wal_lock` is one step of its thread. The
append of a full buffer has three sections: it stamps the record, drops the lock, flushes, takes the
lock again, empties the buffer and copies. `next_lsn` moves only in the last one.

A thread that enters while another is between its first and its last section is stamped with the
same LSN, and the later of the two empties the buffer over the other's record. That is the only
way: a run keeps the LSNs distinct and every record in the buffer or in its log sector exactly when
no thread ever enters during another's append (`append_safe_iff`). -/

namespace MavThreadLog

open MavBlock MavRecord MavLog MavRun List Option

/-- Where a thread stands in `wal_append_record`. -/
inductive AppendPc where
  | idle
  /-- the buffer was full, the lock is dropped, `wal_flush(upTo)` comes next -/
  | flushing (record : WalRecord) (upTo : Nat)
  /-- `wal_flush` has returned, the lock is to be taken again -/
  | reacquiring (record : WalRecord)

/-- The manager, the device and the threads, with three ghost lists: the log
    sectors written, the LSNs assigned and the records copied. -/
structure LogSystem where
  wal : WalManager
  disk : Disk
  pc : Nat → AppendPc
  logWrites : List (Sector × WalRecord)
  assigned : List Nat
  appended : List WalRecord

/-- One section of one thread. -/
inductive LogStep where
  | enter (tid : Nat) (record : WalRecord)
  | flushFull (tid : Nat)
  | finish (tid : Nat)
  | flush (upTo : Nat)

/-- `block_write` of each record to its log sector. -/
def storeRecords (d : Disk) (rs : List WalRecord) : Disk :=
  rs.foldl (fun d r => blockWrite d (logSector r.lsn) (bytesOf r)) d

/-- The section of `wal_flush`. -/
def LogSystem.flushSection (s : LogSystem) (upTo : Nat) : LogSystem :=
  { s with
    wal := (walFlush s.wal upTo).2
    disk := storeRecords s.disk (walFlush s.wal upTo).1
    logWrites := s.logWrites
      ++ (walFlush s.wal upTo).1.map fun r => (logSector r.lsn, r) }

/-- The copying section, for the record stamped before. -/
def LogSystem.copySection (s : LogSystem) (record : WalRecord) : LogSystem :=
  { s with wal := copyRecord s.wal record, appended := s.appended ++ [record] }

def LogSystem.setPc (s : LogSystem) (tid : Nat) (p : AppendPc) : LogSystem :=
  { s with pc := Function.update s.pc tid p }

def LogSystem.assign (s : LogSystem) : LogSystem :=
  { s with assigned := s.assigned ++ [s.wal.nextLsn] }

/-- One step of the system. -/
def logStep (s : LogSystem) : LogStep → Option LogSystem
  | .enter tid record =>
    match s.pc tid with
    | .idle =>
      let record := stampRecord s.wal record
      if bufferFull s.wal then
        some (s.assign.setPc tid (.flushing record (s.wal.nextLsn - 1)))
      else some (s.assign.copySection record)
    | _ => none
  | .flushFull tid =>
    match s.pc tid with
    | .flushing record upTo =>
      some ((s.flushSection upTo).setPc tid (.reacquiring record))
    | _ => none
  | .finish tid =>
    match s.pc tid with
    | .reacquiring record =>
      some (({ s with wal := resetBuffer s.wal }.copySection record).setPc tid .idle)
    | _ => none
  | .flush upTo => some (s.flushSection upTo)

/-! ## The property -/

/-- The record was written to its log sector, and what was written there since
    is that record again or one a whole number of laps younger. -/
def Stored (s : LogSystem) (r : WalRecord) : Prop :=
  (∃ older newer, s.logWrites = older ++ (logSector r.lsn, r) :: newer ∧
    ∀ e ∈ newer, e.1 = logSector r.lsn → ∃ k, e.2.lsn = r.lsn + 64 * k) ∧
  ∃ q k, s.disk (logSector r.lsn) = bytesOf q ∧ q.lsn = r.lsn + 64 * k

/-- Distinct LSNs, and no record dropped. -/
def LogSafe (s : LogSystem) : Prop :=
  s.assigned.Nodup ∧ ∀ r ∈ s.appended, r ∈ s.wal.logBuffer ∨ Stored s r

/-- The condition: a thread enters `wal_append_record` only while no thread is inside it. -/
def EntersAlone (s : LogSystem) : LogStep → Prop
  | .enter _ _ => ∀ tid, s.pc tid = .idle
  | _ => True

/-- A freshly mounted log: everything assigned so far is flushed, the buffer is
    empty and no thread is inside. -/
structure Mounted (s : LogSystem) : Prop where
  next : s.wal.nextLsn = s.wal.flushedLsn + 1
  buffer : s.wal.logBuffer = []
  idle : ∀ tid, s.pc tid = .idle
  writes : s.logWrites = []
  assigned : s.assigned = []
  appended : s.appended = []

/-! ## Writing log sectors -/

/-- A log sector holds the last record written to it. -/
theorem storeRecords_at (rs : List WalRecord) (d : Disk) (t : Sector) :
    (∃ q ∈ rs, logSector q.lsn = t ∧ storeRecords d rs t = bytesOf q) ∨
    ((∀ q ∈ rs, logSector q.lsn ≠ t) ∧ storeRecords d rs t = d t) := by
  induction rs generalizing d t with
  | nil => exact .inr ⟨nofun, rfl⟩
  | cons r rs ih =>
    rcases ih (blockWrite d (logSector r.lsn) (bytesOf r)) t with ⟨q, hq, hs, hd⟩ | ⟨hn, hd⟩
    · exact .inl ⟨q, mem_cons_of_mem _ hq, hs, hd⟩
    · by_cases ht : logSector r.lsn = t
      · refine .inl ⟨r, mem_cons_self .., ht, ?_⟩
        refine hd.trans ?_
        rw [← ht]
        exact blockWrite_same ..
      · refine .inr ⟨?_, hd.trans (blockWrite_other (Ne.symm ht))⟩
        exact forall_mem_cons.mpr ⟨ht, hn⟩

/-- The state after the records `rs` are written out. -/
def LogSystem.store (s : LogSystem) (rs : List WalRecord) : LogSystem :=
  { s with
    disk := storeRecords s.disk rs
    logWrites := s.logWrites ++ rs.map fun r => (logSector r.lsn, r) }

variable {r : WalRecord} {s s' : LogSystem} {t : Nat} {l : LogStep}

section Store

variable {rs : List WalRecord} (hr : 1 ≤ r.lsn) (hrs : ∀ q ∈ rs, 1 ≤ q.lsn ∧ r.lsn < q.lsn + 64)

include hr hrs

theorem lap_of_sector {q : WalRecord} (hq : q ∈ rs) (he : logSector q.lsn = logSector r.lsn) :
    ∃ k, q.lsn = r.lsn + 64 * k :=
  lsn_of_logSector_eq hr (hrs q hq).1 he (hrs q hq).2

/-- Records not more than a lap behind do no harm to a stored one. -/
theorem Stored.store (h : Stored s r) : Stored (s.store rs) r := by
  obtain ⟨⟨older, newer, hw, hnew⟩, q, k, hd, hk⟩ := h
  refine ⟨⟨older, newer ++ rs.map (fun r => (logSector r.lsn, r)), ?_, ?_⟩, ?_⟩
  · show s.logWrites ++ _ = _
    rw [hw, append_assoc, cons_append]
  · intro e he hs
    rcases mem_append.mp he with he | he
    · exact hnew e he hs
    · obtain ⟨q', hq', rfl⟩ := mem_map.mp he
      exact lap_of_sector hr hrs hq' hs
  · rcases storeRecords_at rs s.disk (logSector r.lsn) with ⟨q', hq', hs, hd'⟩ | ⟨-, hd'⟩
    · obtain ⟨k', hk'⟩ := lap_of_sector hr hrs hq' hs
      exact ⟨q', k', hd', hk'⟩
    · exact ⟨q, k, hd'.trans hd, hk⟩

/-- A record among those written out is stored. -/
theorem stored_of_mem (hmem : r ∈ rs) : Stored (s.store rs) r := by
  obtain ⟨before, after, hsplit⟩ := append_of_mem hmem
  refine ⟨⟨s.logWrites ++ before.map (fun r => (logSector r.lsn, r)),
    after.map (fun r => (logSector r.lsn, r)), ?_, ?_⟩, ?_⟩
  · show s.logWrites ++ rs.map _ = _
    rw [hsplit, map_append, map_cons, append_assoc]
  · intro e he hs
    obtain ⟨q, hq, rfl⟩ := mem_map.mp he
    refine lap_of_sector hr hrs ?_ hs
    rw [hsplit]
    exact mem_append_right _ (mem_cons_of_mem _ hq)
  · rcases storeRecords_at rs s.disk (logSector r.lsn) with ⟨q, hq, hs, hd⟩ | ⟨hn, -⟩
    · obtain ⟨k, hk⟩ := lap_of_sector hr hrs hq hs
      exact ⟨q, k, hd, hk⟩
    · exact absurd rfl (hn r hmem)

end Store

/-! ## The invariant of runs that meet the condition -/

/-- The log between two sections: the buffer holds the last few LSNs in a row, everything up to
    `flushed_lsn` is stored and everything beyond is still buffered; at most one thread is inside,
    its record has the next LSN, and once its flush is over nothing is left unflushed. -/
structure LogInv (s : LogSystem) : Prop where
  flushed : s.wal.flushedLsn < s.wal.nextLsn
  short : s.wal.logBuffer.length ≤ 8
  buffered : ∀ r ∈ s.wal.logBuffer, 1 ≤ r.lsn ∧ r.lsn < s.wal.nextLsn ∧
    s.wal.nextLsn ≤ r.lsn + s.wal.logBuffer.length
  newest : s.wal.logBuffer ≠ [] → ∃ r ∈ s.wal.logBuffer, r.lsn + 1 = s.wal.nextLsn
  allFlushed : s.wal.logBuffer = [] → s.wal.flushedLsn + 1 = s.wal.nextLsn
  past : ∀ r ∈ s.appended, 1 ≤ r.lsn ∧ r.lsn < s.wal.nextLsn
  pending : ∀ r ∈ s.appended, s.wal.flushedLsn < r.lsn → r ∈ s.wal.logBuffer
  stored : ∀ r ∈ s.appended, r.lsn ≤ s.wal.flushedLsn → Stored s r
  distinct : s.assigned.Nodup
  assigned : ∀ n ∈ s.assigned, n ≤ s.wal.nextLsn ∧
    (n = s.wal.nextLsn → ∃ tid, s.pc tid ≠ .idle)
  inside : ∀ t, s.pc t ≠ .idle → s.wal.nextLsn ∈ s.assigned
  alone : ∀ t u, s.pc t ≠ .idle → s.pc u ≠ .idle → t = u
  flushing : ∀ t r n, s.pc t = .flushing r n →
    r.lsn = s.wal.nextLsn ∧ n + 1 = s.wal.nextLsn
  reacquiring : ∀ t r, s.pc t = .reacquiring r →
    r.lsn = s.wal.nextLsn ∧ s.wal.flushedLsn + 1 = s.wal.nextLsn

theorem LogInv.safe (h : LogInv s) : LogSafe s := by
  refine ⟨h.distinct, ?_⟩
  intro r hr
  by_cases hf : s.wal.flushedLsn < r.lsn
  · exact .inl (h.pending r hr hf)
  · exact .inr (h.stored r hr (by omega))

theorem LogInv.others_idle (h : LogInv s) {u : Nat}
    (ht : s.pc t ≠ .idle) (hu : u ≠ t) : s.pc u = .idle := by
  by_contra hne
  exact hu (h.alone u t hne ht)

theorem logInv_of_mounted (h : Mounted s) : LogInv s := by
  have hidle : ∀ t, s.pc t = .idle := h.idle
  refine ⟨by rw [h.next]; omega, by rw [h.buffer]; exact Nat.zero_le 8, ?_, ?_,
    fun _ => h.next.symm, ?_, ?_, ?_, ?_, ?_, fun t ht => absurd (hidle t) ht,
    ?_, ?_, ?_⟩
  · rw [h.buffer]; intro r hr; exact nomatch hr
  · intro hne; exact absurd h.buffer hne
  · rw [h.appended]; intro r hr; exact nomatch hr
  · rw [h.appended]; intro r hr; exact nomatch hr
  · rw [h.appended]; intro r hr; exact nomatch hr
  · rw [h.assigned]; exact nodup_nil
  · rw [h.assigned]; intro n hn; exact nomatch hn
  · intro t u ht; exact absurd (hidle t) ht
  · intro t r n ht; rw [hidle t] at ht; exact nomatch ht
  · intro t r ht; rw [hidle t] at ht; exact nomatch ht

/-- A flush keeps the invariant, and a flush up to the last LSN leaves nothing unflushed. -/
theorem LogInv.flushSection (h : LogInv s) (upTo : Nat) : LogInv (s.flushSection upTo) ∧
      (upTo + 1 = s.wal.nextLsn →
        (s.flushSection upTo).wal.flushedLsn + 1 = s.wal.nextLsn) := by
  rcases walFlush_cases s.wal upTo with ⟨hf, hwhy⟩ | ⟨hf, hlt, hne⟩
  · have hs : s.flushSection upTo = s := by
      unfold LogSystem.flushSection
      rw [hf]
      show { s with logWrites := s.logWrites ++ [] } = s
      rw [append_nil]
    rw [hs]
    refine ⟨h, ?_⟩
    intro hup
    rcases hwhy with hle | hnil
    · have := h.flushed
      omega
    · exact h.allFlushed hnil
  · have hs : s.flushSection upTo = { s.store s.wal.logBuffer with
        wal := { s.wal with flushedLsn := maxLsn s.wal.flushedLsn s.wal.logBuffer } } := by
      unfold LogSystem.flushSection
      rw [hf]
      rfl
    obtain ⟨hle, hmax⟩ := le_maxLsn s.wal.logBuffer s.wal.flushedLsn
    have hltNext : maxLsn s.wal.flushedLsn s.wal.logBuffer < s.wal.nextLsn :=
      maxLsn_lt _ _ _ h.flushed (fun r hr => (h.buffered r hr).2.1)
    obtain ⟨last, hlast, hlsn⟩ := h.newest hne
    have hall : maxLsn s.wal.flushedLsn s.wal.logBuffer + 1 = s.wal.nextLsn := by
      have := hmax last hlast
      omega
    -- every buffered record is within a lap of every appended one
    have hnear : ∀ r ∈ s.appended, ∀ q ∈ s.wal.logBuffer, 1 ≤ q.lsn ∧ r.lsn < q.lsn + 64 := by
      intro r hr q hq
      have h1 := h.past r hr
      have h2 := h.buffered q hq
      have h3 := h.short
      omega
    rw [hs]
    refine ⟨{ h with
      flushed := hltNext, allFlushed := fun hnil => absurd hnil hne, pending := ?_, stored := ?_
      reacquiring := ?_ },
      fun _ => hall⟩
    · intro r hr hgt
      have hgt' : maxLsn s.wal.flushedLsn s.wal.logBuffer < r.lsn := hgt
      exact h.pending r hr (by omega)
    · intro r hr _
      have hpos := (h.past r hr).1
      by_cases hold : r.lsn ≤ s.wal.flushedLsn
      · exact (h.stored r hr hold).store hpos (hnear r hr)
      · exact stored_of_mem hpos (hnear r hr) (h.pending r hr (by omega))
    · intro t r ht
      exact ⟨(h.reacquiring t r ht).1, hall⟩

/-- Copying the record with the next LSN, all threads being outside afterwards. -/
theorem logInv_copySection
    (hr : r.lsn = s.wal.nextLsn) (hflushed : s.wal.flushedLsn < s.wal.nextLsn)
    (hroom : s.wal.logBuffer.length < 8)
    (hbuffered : ∀ q ∈ s.wal.logBuffer, 1 ≤ q.lsn ∧ q.lsn < s.wal.nextLsn ∧
      s.wal.nextLsn ≤ q.lsn + s.wal.logBuffer.length)
    (hpast : ∀ q ∈ s.appended, 1 ≤ q.lsn ∧ q.lsn < s.wal.nextLsn)
    (hpending : ∀ q ∈ s.appended, s.wal.flushedLsn < q.lsn → q ∈ s.wal.logBuffer)
    (hstored : ∀ q ∈ s.appended, q.lsn ≤ s.wal.flushedLsn → Stored s q)
    (hdistinct : s.assigned.Nodup) (hassigned : ∀ n ∈ s.assigned, n ≤ s.wal.nextLsn)
    (hidle : ∀ t, s.pc t = .idle) : LogInv (s.copySection r) := by
  have hbuf : (s.copySection r).wal.logBuffer = s.wal.logBuffer ++ [r] :=
    copyRecord_logBuffer ..
  have hnext : (s.copySection r).wal.nextLsn = s.wal.nextLsn + 1 := copyRecord_nextLsn ..
  have hfl : (s.copySection r).wal.flushedLsn = s.wal.flushedLsn :=
    copyRecord_flushedLsn ..
  have hlen : (s.wal.logBuffer ++ [r]).length = s.wal.logBuffer.length + 1 :=
    length_append ..
  have hrin : r ∈ s.wal.logBuffer ++ [r] :=
    mem_append_right _ (mem_singleton.mpr rfl)
  refine ⟨?_, ?_, ?_, ?_, ?_, ?_, ?_, ?_, hdistinct, ?_,
    fun t ht => absurd (hidle t) ht, ?_, ?_, ?_⟩
  · rw [hnext, hfl]; omega
  · rw [hbuf, hlen]; omega
  · rw [hbuf, hnext, hlen]
    intro q hq
    rcases mem_append.mp hq with hq | hq
    · have := hbuffered q hq
      omega
    · rw [mem_singleton.mp hq, hr]
      omega
  · rw [hbuf, hnext]
    intro _
    exact ⟨r, hrin, by rw [hr]⟩
  · rw [hbuf]
    intro hnil
    rw [hnil] at hrin
    exact nomatch hrin
  · intro q hq
    rcases mem_append.mp hq with hq | hq
    · have := hpast q hq
      omega
    · rw [mem_singleton.mp hq, hr]
      omega
  · rw [hbuf, hfl]
    intro q hq hlt
    rcases mem_append.mp hq with hq | hq
    · exact mem_append_left _ (hpending q hq hlt)
    · rw [mem_singleton.mp hq]
      exact hrin
  · rw [hfl]
    intro q hq hle
    rcases mem_append.mp hq with hq | hq
    · exact hstored q hq hle
    · rw [mem_singleton.mp hq, hr] at hle
      omega
  · intro n hn
    have := hassigned n hn
    refine ⟨by omega, ?_⟩
    intro heq
    omega
  · intro t u ht
    exact absurd (hidle t) ht
  · intro t q n ht
    rw [show (s.copySection r).pc t = .idle from hidle t] at ht
    exact nomatch ht
  · intro t q ht
    rw [show (s.copySection r).pc t = .idle from hidle t] at ht
    exact nomatch ht

/-- With nobody inside, the next LSN has not been assigned. -/
theorem LogInv.next_not_assigned (h : LogInv s)
    (hidle : ∀ t, s.pc t = .idle) : s.wal.nextLsn ∉ s.assigned := by
  intro hmem
  obtain ⟨t, ht⟩ := (h.assigned _ hmem).2 rfl
  exact ht (hidle t)

theorem LogInv.assign_nodup (h : LogInv s)
    (hidle : ∀ t, s.pc t = .idle) : (s.assigned ++ [s.wal.nextLsn]).Nodup := by
  refine nodup_append.mpr ⟨h.distinct, nodup_singleton _, ?_⟩
  intro a ha b hb hab
  rw [mem_singleton.mp hb] at hab
  exact h.next_not_assigned hidle (hab ▸ ha)

theorem LogInv.assign_le (h : LogInv s) :
    ∀ n ∈ s.assigned ++ [s.wal.nextLsn], n ≤ s.wal.nextLsn := by
  intro n hn
  rcases mem_append.mp hn with hn | hn
  · exact (h.assigned n hn).1
  · exact Nat.le_of_eq (mem_singleton.mp hn)

/-! ## One step -/

/-- Everything a step can do. -/
theorem logStep_cases (h : logStep s l = some s') :
    (∃ t r, l = .enter t r ∧ s.pc t = .idle ∧ bufferFull s.wal ∧
      s' = s.assign.setPc t (.flushing (stampRecord s.wal r) (s.wal.nextLsn - 1))) ∨
    (∃ t r, l = .enter t r ∧ s.pc t = .idle ∧ ¬ bufferFull s.wal ∧
      s' = s.assign.copySection (stampRecord s.wal r)) ∨
    (∃ t r n, l = .flushFull t ∧ s.pc t = .flushing r n ∧
      s' = (s.flushSection n).setPc t (.reacquiring r)) ∨
    (∃ t r, l = .finish t ∧ s.pc t = .reacquiring r ∧
      s' = ({ s with wal := resetBuffer s.wal }.setPc t .idle).copySection r) ∨
    (∃ n, l = .flush n ∧ s' = s.flushSection n) := by
  cases l with
  | enter t r =>
    simp only [logStep] at h
    split at h
    · rename_i hp
      split at h
      · exact .inl ⟨t, r, rfl, hp, ‹_›, (some.inj h).symm⟩
      · exact .inr (.inl ⟨t, r, rfl, hp, ‹_›, (some.inj h).symm⟩)
    · exact nomatch h
  | flushFull t =>
    simp only [logStep] at h
    split at h
    · exact .inr (.inr (.inl ⟨t, _, _, rfl, ‹_›, (some.inj h).symm⟩))
    · exact nomatch h
  | finish t =>
    simp only [logStep] at h
    split at h
    · exact .inr (.inr (.inr (.inl ⟨t, _, rfl, ‹_›, (some.inj h).symm⟩)))
    · exact nomatch h
  | flush n =>
    exact .inr (.inr (.inr (.inr ⟨n, rfl, (some.inj h).symm⟩)))

private theorem setPc_pc_same (s : LogSystem) (t : Nat) (p : AppendPc) :
    (s.setPc t p).pc t = p := Function.update_self ..

private theorem setPc_pc_other {u : Nat} {p : AppendPc} (h : u ≠ t) :
    (s.setPc t p).pc u = s.pc u := Function.update_of_ne h ..

/-- With the others idle, what is inside is the thread that was set. -/
theorem inside_of_setPc {u : Nat} {p q : AppendPc} (hidle : ∀ u ≠ t, s.pc u = .idle)
    (h : (s.setPc t p).pc u = q) (hq : q ≠ .idle) : u = t ∧ p = q := by
  rcases update_cases h with h | ⟨hu, h⟩
  · exact h
  · exact absurd (h.symm.trans (hidle u hu)) hq

/-- A thread at the full buffer goes inside. -/
theorem LogInv.enterFull (h : LogInv s) (hidle : ∀ t, s.pc t = .idle) (t : Nat) (r : WalRecord) :
    LogInv (s.assign.setPc t (.flushing (stampRecord s.wal r) (s.wal.nextLsn - 1))) := by
  have hothers : ∀ u ≠ t, s.assign.pc u = .idle := fun u _ => hidle u
  have hpos := h.flushed
  refine { h with
    distinct := h.assign_nodup hidle, assigned := ?_, alone := ?_, flushing := ?_, reacquiring := ?_
    inside := fun _ _ => mem_append_right _ (mem_singleton.mpr rfl) }
  · intro n hn
    exact ⟨h.assign_le n hn, fun _ => ⟨t, by rw [setPc_pc_same]; exact AppendPc.noConfusion⟩⟩
  · intro u v hu hv
    rw [(inside_of_setPc hothers rfl hu).1, (inside_of_setPc hothers rfl hv).1]
  · intro u q n hu
    injection (inside_of_setPc hothers hu nofun).2 with hq hn
    rw [← hq, ← hn]
    refine ⟨rfl, ?_⟩
    show s.wal.nextLsn - 1 + 1 = s.wal.nextLsn
    omega
  · exact fun u q hu => nomatch (inside_of_setPc hothers hu nofun).2

theorem LogInv.flushFull (h : LogInv s) {n : Nat} (hp : s.pc t = .flushing r n) :
    LogInv ((s.flushSection n).setPc t (.reacquiring r)) := by
  obtain ⟨hi, hall⟩ := h.flushSection n
  obtain ⟨hlsn, hn⟩ := h.flushing t r n hp
  have hin : s.pc t ≠ .idle := by rw [hp]; exact AppendPc.noConfusion
  have hnext : (s.flushSection n).wal.nextLsn = s.wal.nextLsn := by
    rcases walFlush_cases s.wal n with ⟨hf, -⟩ | ⟨hf, -⟩
    · show (walFlush s.wal n).2.nextLsn = _
      rw [hf]
    · show (walFlush s.wal n).2.nextLsn = _
      rw [hf]
  have hothers : ∀ u ≠ t, (s.flushSection n).pc u = .idle := fun u hu => h.others_idle hin hu
  refine { hi with
    assigned := ?_, inside := fun _ _ => hi.inside t hin, alone := ?_, flushing := ?_
    reacquiring := ?_ }
  · intro m hm
    exact ⟨(hi.assigned m hm).1, fun _ => ⟨t, by rw [setPc_pc_same]; exact AppendPc.noConfusion⟩⟩
  · intro u v hu hv
    rw [(inside_of_setPc hothers rfl hu).1, (inside_of_setPc hothers rfl hv).1]
  · exact fun u q m hu => nomatch (inside_of_setPc hothers hu nofun).2
  · intro u q hu
    injection (inside_of_setPc hothers hu nofun).2 with hq
    rw [← hq]
    show r.lsn = (s.flushSection n).wal.nextLsn ∧
      (s.flushSection n).wal.flushedLsn + 1 = (s.flushSection n).wal.nextLsn
    rw [hnext]
    exact ⟨hlsn, hall hn⟩

theorem LogInv.finish (h : LogInv s) (hp : s.pc t = .reacquiring r) :
    LogInv (({ s with wal := resetBuffer s.wal }.setPc t .idle).copySection r) := by
  obtain ⟨hlsn, hall⟩ := h.reacquiring t r hp
  refine logInv_copySection hlsn h.flushed (Nat.zero_lt_succ 7) nofun h.past ?_ h.stored h.distinct
    (fun n hn => (h.assigned n hn).1) ?_
  · -- nothing appended is beyond `flushed_lsn`, so emptying the buffer drops nothing
    intro q hq hlt
    have hlt' : s.wal.flushedLsn < q.lsn := hlt
    have := h.past q hq
    omega
  · intro u
    by_cases hut : u = t
    · rw [hut]
      exact setPc_pc_same ..
    · rw [setPc_pc_other hut]
      exact h.others_idle (by rw [hp]; exact AppendPc.noConfusion) hut

/-- **STEP LEMMA**: a step that meets the condition keeps the invariant. -/
theorem logStep_inv (s : LogSystem) (l : LogStep) (s' : LogSystem) (h : LogInv s)
    (hc : EntersAlone s l) (hstep : logStep s l = some s') : LogInv s' := by
  rcases logStep_cases hstep with ⟨t, r, rfl, -, -, rfl⟩ | ⟨t, r, rfl, -, hroom, rfl⟩ |
    ⟨t, r, n, rfl, hp, rfl⟩ | ⟨t, r, rfl, hp, rfl⟩ | ⟨n, rfl, rfl⟩
  · exact h.enterFull hc t r
  · have hlen : s.wal.logBuffer.length < 8 := by
      have hnot : ¬ 8 < s.wal.logBuffer.length + 1 := hroom
      omega
    exact logInv_copySection rfl h.flushed hlen h.buffered h.past h.pending h.stored
      (h.assign_nodup hc) h.assign_le hc
  · exact h.flushFull hp
  · exact h.finish hp
  · exact (h.flushSection n).1

/-! ## Whole runs -/

/-- Assigned LSNs are only ever added to. -/
theorem logStep_assigned (h : logStep s l = some s') : s.assigned.Sublist s'.assigned := by
  rcases logStep_cases h with ⟨t, r, -, -, -, rfl⟩ | ⟨t, r, -, -, -, rfl⟩ |
    ⟨t, r, n, -, -, rfl⟩ | ⟨t, r, -, -, rfl⟩ | ⟨n, -, rfl⟩
  · exact sublist_append_left ..
  · exact sublist_append_left ..
  · exact List.Sublist.refl _
  · exact List.Sublist.refl _
  · exact List.Sublist.refl _

theorem exec_assigned (run : List LogStep) (s s' : LogSystem) :
    exec logStep s run = some s' → s.assigned.Sublist s'.assigned := by
  induction run generalizing s s' with
  | nil =>
    intro h
    rw [some.inj h]
  | cons l run ih =>
    intro h
    obtain ⟨u, hu, hr⟩ := exec_cons h
    exact (logStep_assigned hu).trans (ih u s' hr)

/-- Entering while a thread is inside assigns its LSN a second time. -/
theorem entersAlone_of_nodup (h : LogInv s)
    (hstep : logStep s l = some s') (hnd : s'.assigned.Nodup) : EntersAlone s l := by
  have hdup : ∀ u, s.pc u ≠ .idle → ¬ (s.assigned ++ [s.wal.nextLsn]).Nodup := by
    intro u hu hn
    exact (nodup_append.mp hn).2.2 _ (h.inside u hu) _ (mem_singleton.mpr rfl) rfl
  rcases logStep_cases hstep with ⟨t, r, rfl, -, -, rfl⟩ | ⟨t, r, rfl, -, -, rfl⟩ |
    ⟨t, r, n, rfl, -, -⟩ | ⟨t, r, rfl, -, -⟩ | ⟨n, rfl, -⟩
  · intro u
    exact Classical.byContradiction fun hu => hdup u hu hnd
  · intro u
    exact Classical.byContradiction fun hu => hdup u hu hnd
  · exact trivial
  · exact trivial
  · exact trivial

theorem guarded_of_nodup (run : List LogStep) (s s' : LogSystem) : LogInv s →
    exec logStep s run = some s' → s'.assigned.Nodup →
    Guarded logStep EntersAlone s run := by
  induction run generalizing s s' with
  | nil => intro _ _ _; exact trivial
  | cons l run ih =>
    intro hI h hnd
    obtain ⟨u, hu, hr⟩ := exec_cons h
    have hc := entersAlone_of_nodup hI hu (hnd.sublist (exec_assigned run u s' hr))
    refine ⟨hc, ?_⟩
    intro v hv
    rw [hu] at hv
    rw [← some.inj hv]
    exact ih u s' (logStep_inv s l u hI hc hu) hr hnd

/-- **THE LOG IS SAFE EXACTLY WHEN APPENDS DO NOT OVERLAP**: for every number
    of threads and every interleaving, the assigned LSNs are distinct and every
    appended record is buffered or stored in its log sector if and only if no
    thread entered `wal_append_record` while another was inside. -/
theorem append_safe_iff (s0 s : LogSystem) (run : List LogStep) (h0 : Mounted s0)
    (hrun : exec logStep s0 run = some s) :
    LogSafe s ↔ Guarded logStep EntersAlone s0 run := by
  constructor
  · intro hsafe
    exact guarded_of_nodup run s0 s (logInv_of_mounted h0) hrun hsafe.1
  · intro hg
    exact (exec_inv logStep_inv run s0 s (logInv_of_mounted h0) hg hrun).safe

/-- A log mounted on a blank device. -/
def blankLog : LogSystem where
  wal := ⟨1, 0, 1, [], [], 0, false, false⟩
  disk := fun _ _ => 0
  pc := fun _ => .idle
  logWrites := []
  assigned := []
  appended := []

/-- A `WAL_BEGIN` record before it is stamped. -/
def beginRecord (txn : Nat) : WalRecord :=
  ⟨0, txn, .begin, 0, 0, 0, fun _ => 0, fun _ => 0⟩

/-- One thread appending nine records, the ninth over a full buffer. -/
def nineAppends : List LogStep :=
  (List.range 9).map (fun k => .enter 0 (beginRecord (k + 1))) ++ [.flushFull 0, .finish 0]

theorem mounted_blankLog : Mounted blankLog :=
  ⟨rfl, rfl, fun _ => rfl, rfl, rfl, rfl⟩

theorem append_safe_nineAppends :
    ∃ s, exec logStep blankLog nineAppends = some s ∧ LogSafe s := by
  have hsome : (exec logStep blankLog nineAppends).map (fun s => s.assigned)
      = some [1, 2, 3, 4, 5, 6, 7, 8, 9] := by rfl
  obtain ⟨s, hs, hassigned⟩ := Option.map_eq_some_iff.mp hsome
  have hnd : s.assigned.Nodup := by rw [hassigned]; decide
  exact ⟨s, hs, (append_safe_iff blankLog s nineAppends mounted_blankLog hs).mpr
    (guarded_of_nodup nineAppends blankLog s (logInv_of_mounted mounted_blankLog) hs hnd)⟩

/-- Thread 0 fills the buffer and stops inside its ninth append; thread 1 appends; both finish. -/
def overlappingAppends : List LogStep :=
  (List.range 9).map (fun k => .enter 0 (beginRecord (k + 1))) ++
    [.enter 1 (beginRecord 10), .flushFull 0, .finish 0, .flushFull 1, .finish 1]

/-- LSN 9 is assigned twice, and thread 0's record is in no place: thread 1
    emptied the buffer over it. -/
theorem append_overlap_unsafe :
    ∃ s, exec logStep blankLog overlappingAppends = some s ∧ ¬ s.assigned.Nodup ∧
      ∃ r ∈ s.appended, ¬ (r ∈ s.wal.logBuffer ∨ Stored s r) := by
  have hsome : (exec logStep blankLog overlappingAppends).map (fun s =>
      (s.assigned, s.appended.map WalRecord.txnId, s.wal.logBuffer.map WalRecord.txnId,
        s.logWrites.map fun e => e.2.txnId))
      = some ([1, 2, 3, 4, 5, 6, 7, 8, 9, 9], [1, 2, 3, 4, 5, 6, 7, 8, 9, 10], [10],
        [1, 2, 3, 4, 5, 6, 7, 8]) := by rfl
  obtain ⟨s, hs, hs'⟩ := Option.map_eq_some_iff.mp hsome
  obtain ⟨hassigned, hrest⟩ := Prod.mk.inj hs'
  obtain ⟨happended, hrest⟩ := Prod.mk.inj hrest
  obtain ⟨hbuffer, hwrites⟩ := Prod.mk.inj hrest
  have hmem : 9 ∈ s.appended.map WalRecord.txnId := by rw [happended]; decide
  obtain ⟨r, hr, hid⟩ := List.mem_map.mp hmem
  refine ⟨s, hs, by rw [hassigned]; decide, r, hr, ?_⟩
  rintro (hbuf | ⟨⟨older, newer, hw, -⟩, -⟩)
  · have hin : 9 ∈ s.wal.logBuffer.map WalRecord.txnId := List.mem_map.mpr ⟨r, hbuf, hid⟩
    rw [hbuffer] at hin
    exact absurd hin (by decide)
  · have hin : 9 ∈ s.logWrites.map fun e => e.2.txnId := by
      rw [hw]
      exact List.mem_map.mpr ⟨_, List.mem_append_right _ (List.mem_cons_self ..), hid⟩
    rw [hwrites] at hin
    exact absurd hin (by decide)

end MavThreadLog
