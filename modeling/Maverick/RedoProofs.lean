import Maverick.MountProofs
import Maverick.WalCallProofs

/-! # Redo — the records of one write, and the order they are replayed in

`wal_log_write` cuts a write of one sector into records of at most `WAL_MAX_DATA_SIZE` bytes. The
first half shows that nothing is lost by it: the records tile the range, their new bytes in LSN
order make the write, their old bytes in the reverse order take it back.

The second half is about the order of the redo phase. Redo goes through the log sector by sector.
Up to the first wrap of the log that is the order of the LSNs; afterwards the newest records are in
the first sectors and are replayed first. The device comes out as in LSN order exactly if, at every
byte, the committed record in the highest sector and the one with the highest LSN say the same. -/

namespace MavRedo

open MavBlock MavRecord MavLog MavOverride MavRecover MavSystem MavMount MavCache List

/-! ## The loop of `wal_log_write` -/

/-- The loop of `wal_log_write` from `bytes_logged` on, with the `uint16_t`
    variables of the source; the first argument bounds its turns. -/
def logWriteLoop (txnId : Nat) (sector : Sector) (offset length : Nat)
    (oldBytes newBytes : List UInt8) : Nat → Nat → List WalRecord
  | 0, _ => []
  | fuel + 1, bytesLogged =>
    if bytesLogged < length then
      let chunkSize := (length - bytesLogged) % 2 ^ 16
      let chunkSize := if walMaxDataSize < chunkSize then walMaxDataSize else chunkSize
      { lsn := 0
        txnId := txnId
        type := .write
        sector := sector
        offset := (offset + bytesLogged) % 2 ^ 16
        length := chunkSize
        oldData := payloadOf ((oldBytes.drop bytesLogged).take chunkSize)
        newData := payloadOf ((newBytes.drop bytesLogged).take chunkSize) } ::
      logWriteLoop txnId sector offset length oldBytes newBytes fuel
        ((bytesLogged + chunkSize) % 2 ^ 16)
    else []

/-- Inside a sector no counter wraps. -/
theorem logWriteLoop_eq {offset : Nat} {new : List UInt8} (hlen : offset + new.length ≤ 512)
    (txnId : Nat) (sector : Sector) (old : List UInt8) : ∀ fuel logged, logged ≤ new.length →
    logWriteLoop txnId sector offset new.length old new fuel logged
      = logChunks txnId sector offset old new fuel logged := by
  intro fuel
  induction fuel with
  | zero => intro logged _; rfl
  | succ fuel ih =>
    intro logged hle
    rw [logWriteLoop, logChunks]
    by_cases hlt : logged < new.length
    · have hsub : (new.length - logged) % 2 ^ 16 = new.length - logged :=
        Nat.mod_eq_of_lt (by omega)
      simp only [hsub]
      have hchunk : logged + (if walMaxDataSize < new.length - logged then walMaxDataSize
          else new.length - logged) ≤ new.length := by
        split <;> omega
      rw [Nat.mod_eq_of_lt (by omega), Nat.mod_eq_of_lt (by omega), ih _ hchunk]
    · rw [if_neg hlt, if_neg hlt]

/-- The records go from byte `a` to byte `b` without gap or overlap, each with 1
    to `WAL_MAX_DATA_SIZE` bytes. -/
def Tiles (a b : Nat) : List WalRecord → Prop
  | [] => a = b
  | r :: rs => r.offset = a ∧ (1 ≤ r.length ∧ r.length ≤ walMaxDataSize) ∧
      Tiles (a + r.length) b rs

/-- `memcpy` of the new bytes of a record to its place, as redo does it. -/
def redoInto (b : Block) (r : WalRecord) : Block :=
  memcpyInto b r.offset (payloadBytes r.newData r.length)

/-- The same with the old bytes, as undo does it. -/
def undoInto (b : Block) (r : WalRecord) : Block :=
  memcpyInto b r.offset (payloadBytes r.oldData r.length)

/-- Two copies that meet are one. -/
theorem memcpyInto_append (b : Block) (ofs : Nat) (xs ys : List UInt8) :
    memcpyInto (memcpyInto b ofs xs) (ofs + xs.length) ys = memcpyInto b ofs (xs ++ ys) ∧
      memcpyInto (memcpyInto b (ofs + xs.length) ys) ofs xs = memcpyInto b ofs (xs ++ ys) := by
  constructor <;>
  · funext i
    simp only [memcpyInto, length_append, getD_eq_getElem?_getD]
    by_cases h1 : i.val < ofs
    · simp [Nat.not_le.mpr h1, show ¬ ofs + xs.length ≤ i.val by omega]
    · by_cases h2 : i.val < ofs + xs.length
      · simp [Nat.not_lt.mp h1, h2, show ¬ ofs + xs.length ≤ i.val by omega,
          show i.val < ofs + (xs.length + ys.length) by omega,
          List.getElem?_append_left (show i.val - ofs < xs.length by omega)]
      · simp [Nat.not_lt.mp h1, h2, Nat.not_lt.mp h2, Nat.add_assoc,
          List.getElem?_append_right (show xs.length ≤ i.val - ofs by omega), Nat.sub_sub]

/-- A copy of what was there before takes back a copy of the same range. -/
theorem memcpyInto_restore (b : Block) {ofs : Nat} (data : List UInt8)
    (h : ofs + data.length ≤ 512) :
    memcpyInto (memcpyInto b ofs data) ofs (bytesAt b ofs data.length) = b := by
  funext i
  by_cases hi : ofs ≤ i.val ∧ i.val < ofs + data.length
  · rw [memcpyInto_inside hi.1 (by rw [length_bytesAt]; exact hi.2),
      getD_bytesAt (show i.val - ofs < data.length by omega) (by omega)]
    exact congrArg b (Fin.ext (by show ofs + (i.val - ofs) = i.val; omega))
  · rw [memcpyInto_outside (by rw [length_bytesAt]; omega), memcpyInto_outside (by omega)]

/-- What the chunks from `logged` on do to a sector, forwards and backwards. -/
theorem logChunks_into (txnId : Nat) (sector : Sector) (offset : Nat) {old new : List UInt8}
    (hold : old.length = new.length) : ∀ fuel logged, logged ≤ new.length →
    new.length ≤ logged + fuel →
    Tiles (offset + logged) (offset + new.length)
      (logChunks txnId sector offset old new fuel logged) ∧
    ∀ b, (logChunks txnId sector offset old new fuel logged).foldl redoInto b
        = memcpyInto b (offset + logged) (new.drop logged) ∧
      (logChunks txnId sector offset old new fuel logged).foldr (fun r b => undoInto b r) b
        = memcpyInto b (offset + logged) (old.drop logged) := by
  intro fuel
  -- nothing is left when the bytes are used up
  have hdone : ∀ b, b = memcpyInto b (offset + new.length) (new.drop new.length) ∧
      b = memcpyInto b (offset + new.length) (old.drop new.length) := by
    intro b
    constructor <;>
    · funext i
      exact (memcpyInto_outside (by simp; omega)).symm
  induction fuel with
  | zero =>
    intro logged hle hfuel
    obtain rfl : logged = new.length := by omega
    exact ⟨rfl, hdone⟩
  | succ fuel ih =>
    intro logged hle hfuel
    rw [logChunks]
    split
    · generalize hchunk : (if walMaxDataSize < new.length - logged then walMaxDataSize
        else new.length - logged) = chunk
      have hsize : (1 ≤ chunk ∧ chunk ≤ walMaxDataSize) ∧ logged + chunk ≤ new.length := by
        rw [← hchunk]
        unfold walMaxDataSize
        split <;> omega
      obtain ⟨htiles, hinto⟩ := ih (logged + chunk) hsize.2 (by omega)
      -- a range is its first chunk and the rest
      have hcut : ∀ l : List UInt8, l.length = new.length → ∃ x : List UInt8,
          x.length = chunk ∧ l.drop logged = x ++ l.drop (logged + chunk) ∧
          payloadBytes (payloadOf ((l.drop logged).take chunk)) chunk = x := by
        intro l hl
        have hx : ((l.drop logged).take chunk).length = chunk := by
          rw [length_take, length_drop]
          omega
        refine ⟨(l.drop logged).take chunk, hx, ?_, ?_⟩
        · rw [← drop_drop, take_append_drop]
        · have h := payloadBytes_payloadOf ((l.drop logged).take chunk)
            (by rw [hx]; exact hsize.1.2)
          rwa [hx] at h
      obtain ⟨x, hx, hnew, hpx⟩ := hcut new rfl
      obtain ⟨y, hy, hol, hpy⟩ := hcut old hold
      refine ⟨⟨rfl, hsize.1, by rw [Nat.add_assoc]; exact htiles⟩, fun b => ⟨?_, ?_⟩⟩
      · have hb := (memcpyInto_append b (offset + logged) x (new.drop (logged + chunk))).1
        rw [← hnew, hx, Nat.add_assoc] at hb
        rw [foldl_cons, (hinto _).1, ← hb]
        simp only [redoInto, hpx]
      · have hb := (memcpyInto_append b (offset + logged) y (old.drop (logged + chunk))).2
        rw [← hol, hy, Nat.add_assoc] at hb
        rw [foldr_cons, (hinto _).2, ← hb]
        simp only [undoInto, hpy]
    · obtain rfl : logged = new.length := by omega
      exact ⟨rfl, hdone⟩

/-! ## The LSNs they get -/

/-- The records with consecutive LSNs from `n` on. -/
def stampFrom (n : Nat) : List WalRecord → List WalRecord
  | [] => []
  | r :: rs => { r with lsn := n } :: stampFrom (n + 1) rs

theorem nextLsn_appendRecord (s : Sys) (r : WalRecord) :
    (s.appendRecord r).core.wal.nextLsn = s.core.wal.nextLsn + 1 := by
  show (walAppendRecord s.core.wal r).2.nextLsn = _
  unfold walAppendRecord
  split
  · rw [copyRecord_nextLsn]
    unfold MavLog.walFlush
    split
    · rfl
    · split <;> rfl
  · exact copyRecord_nextLsn ..

theorem foldl_logChunk (rs recs : List WalRecord) (s : Sys) :
    (rs.foldl Sys.logChunk (s, recs)).2 = recs ++ stampFrom s.core.wal.nextLsn rs := by
  induction rs generalizing recs s with
  | nil => exact (append_nil recs).symm
  | cons r rs ih =>
    have hstep : Sys.logChunk (s, recs) r
        = ((Sys.logChunk (s, recs) r).1, recs ++ [{ r with lsn := s.core.wal.nextLsn }]) := rfl
    have hnext : (Sys.logChunk (s, recs) r).1.core.wal.nextLsn = s.core.wal.nextLsn + 1 :=
      nextLsn_appendRecord s r
    rw [foldl_cons, hstep, ih, hnext, append_assoc]
    rfl

/-- Numbering the records changes neither where they lie nor what they do. -/
theorem stampFrom_spec {a b : Nat} (rs : List WalRecord) (n : Nat) : Tiles a b rs →
    Tiles a b (stampFrom n rs) ∧ (∀ r ∈ stampFrom n rs, n ≤ r.lsn) ∧
    (stampFrom n rs).Pairwise (fun r q => r.lsn < q.lsn) ∧
    ∀ c, (stampFrom n rs).foldl redoInto c = rs.foldl redoInto c ∧
      (stampFrom n rs).foldr (fun r b => undoInto b r) c
        = rs.foldr (fun r b => undoInto b r) c := by
  induction rs generalizing a n with
  | nil => intro h; exact ⟨h, nofun, .nil, fun c => ⟨rfl, rfl⟩⟩
  | cons r rs ih =>
    intro h
    obtain ⟨htiles, hge, hpair, hinto⟩ := ih (n + 1) h.2.2
    refine ⟨⟨h.1, h.2.1, htiles⟩, ?_, pairwise_cons.mpr ⟨hge, hpair⟩, ?_⟩
    · exact forall_mem_cons.mpr ⟨Nat.le_refl n, fun q hq => Nat.le_of_succ_le (hge q hq)⟩
    · intro c
      exact ⟨(hinto _).1, congrArg (fun b => undoInto b r) (hinto c).2⟩

/-- **SPLITTING**: a write of `new` to byte `offset` of a sector with contents
    `b`. The records of `wal_log_write` are those of its loop with 16-bit
    counters; they tile the range in the order of their LSNs, their new bytes
    make the write and their old bytes, last record first, take it back. -/
theorem walLogWrite_lossless (s : Sys) {txnId : Nat} (sector : Sector) (b : Block)
    {offset : Nat} {new : List UInt8} (hlen : offset + new.length ≤ 512)
    (hact : (findTxn s.core.wal txnId).isSome) :
    ∃ recs, (s.walLogWrite txnId sector (bytesAt b offset new.length) new offset).2 = recs ∧
      recs = stampFrom s.core.wal.nextLsn (logWriteLoop txnId sector offset new.length
        (bytesAt b offset new.length) new new.length 0) ∧
      Tiles offset (offset + new.length) recs ∧
      recs.Pairwise (fun r q => r.lsn < q.lsn) ∧
      recs.foldl redoInto b = memcpyInto b offset new ∧
      recs.reverse.foldl undoInto (memcpyInto b offset new) = b := by
  obtain ⟨x, hx⟩ := Option.isSome_iff_exists.mp hact
  obtain ⟨htiles, hinto⟩ := logChunks_into txnId sector offset
    (length_bytesAt b offset new.length) new.length 0 (Nat.zero_le _) (by omega)
  rw [Nat.add_zero] at htiles hinto
  obtain ⟨hst, -, hpair, hsinto⟩ := stampFrom_spec _ s.core.wal.nextLsn htiles
  have hrecs : (s.walLogWrite txnId sector (bytesAt b offset new.length) new offset).2
      = stampFrom s.core.wal.nextLsn
        (logChunks txnId sector offset (bytesAt b offset new.length) new new.length 0) := by
    unfold Sys.walLogWrite
    rw [hx]
    exact foldl_logChunk _ _ _
  refine ⟨_, hrecs, ?_, hst, hpair, ?_, ?_⟩
  · rw [logWriteLoop_eq hlen _ _ _ _ _ (Nat.zero_le _)]
  · rw [(hsinto b).1, (hinto b).1, List.drop_zero]
  · rw [List.foldl_reverse, (hsinto _).2, (hinto _).2, List.drop_zero,
      memcpyInto_restore b new hlen]

/-- A manager with transaction 1 active. -/
def oneActive : WalManager := { freshManager 1 0 2 with activeTxns := [⟨1, 1, 1⟩] }

/-- 300 bytes over zeros go into two records. -/
theorem walLogWrite_lossless_split :
    ∃ recs, ((mounted blankCache oneActive).walLogWrite 1 70
        (bytesAt (fun _ => 0) 100 300) (List.replicate 300 7) 100).2 = recs ∧ recs.length = 2 ∧
      Tiles 100 400 recs ∧
      recs.foldl redoInto (fun _ => 0) = memcpyInto (fun _ => 0) 100 (List.replicate 300 7) := by
  have hlen : 100 + (List.replicate 300 (7 : UInt8)).length ≤ 512 :=
    length_replicate ▸ (by decide : 100 + 300 ≤ 512)
  have hact : (findTxn (mounted blankCache oneActive).core.wal 1).isSome := by decide
  obtain ⟨recs, hrecs, -, htiles, -, hredo, -⟩ := walLogWrite_lossless _ 70 (fun _ => 0) hlen hact
  rw [List.length_replicate] at hrecs htiles
  exact ⟨recs, hrecs, by rw [← hrecs]; decide +kernel, htiles, hredo⟩

/-! ## The order of the redo phase -/

/-- The `WAL_WRITE` records of committed transactions, in slot order. -/
def committedWrites (d : Disk) : List WalRecord :=
  writesOf (walAnalyze d).committedTxns d

variable {d : Disk} {r : WalRecord}

theorem mem_committedWrites :
    r ∈ committedWrites d ↔ r ∈ storedLog d ∧ r.type = .write ∧ WinnerIn d r.txnId := by
  unfold committedWrites
  rw [mem_writesOf, mem_committedTxns]

/-- The same records by LSN. -/
def byLsn (d : Disk) : List WalRecord :=
  (committedWrites d).mergeSort fun r q => decide (r.lsn ≤ q.lsn)

/-- What the device is to hold after redo: the new bytes of the committed
    records, applied in the order of their LSNs. -/
def redoneByLsn (d : Disk) : Addr → UInt8 := applyAll newPatch (toBytes d) (byLsn d)

/-- At every byte, the committed record in the highest log sector and the one
    with the highest LSN carry the same new byte. -/
def SlotsAgree (d : Disk) : Prop :=
  ∀ a r q, LastAt newPatch (fun r => logSector r.lsn) (committedWrites d) a r →
    LastAt newPatch (fun r => r.lsn) (committedWrites d) a q → newPatch r a = newPatch q a

theorem mem_byLsn (r : WalRecord) : r ∈ byLsn d ↔ r ∈ committedWrites d :=
  (mergeSort_perm ..).mem_iff

theorem byLsn_pairwise (h : InPlace d) : (byLsn d).Pairwise (fun r q => r.lsn < q.lsn) := by
  have hne : (committedWrites d).Pairwise (fun r q => r.lsn ≠ q.lsn) := by
    refine (writesOf_pairwise h _).imp ?_
    intro r q hlt he
    rw [he] at hlt
    exact Nat.lt_irrefl _ hlt
  have hne' := ((mergeSort_perm (committedWrites d) fun r q =>
    decide (r.lsn ≤ q.lsn)).pairwise_iff (fun he => Ne.symm he)).mpr hne
  have hsort : (byLsn d).Pairwise (fun r q => decide (r.lsn ≤ q.lsn) = true) := by
    refine pairwise_mergeSort ?_ ?_ _
    · intro a b c hab hbc
      rw [decide_eq_true_iff] at hab hbc ⊢
      exact Nat.le_trans hab hbc
    · intro a b
      rw [Bool.or_eq_true, decide_eq_true_iff, decide_eq_true_iff]
      exact Nat.le_total ..
  refine (hsort.and hne').imp ?_
  intro r q hrq
  exact Nat.lt_of_le_of_ne (of_decide_eq_true hrq.1) hrq.2

/-- The bytes after redo: the committed records in slot order. -/
theorem walRedo_bytes {v : Device} (hn : NamesData v.disk) :
    toBytes (walRedo (walAnalyze v.disk).committedTxns v).disk
      = applyAll newPatch (toBytes v.disk) (committedWrites v.disk) :=
  (walRedo_phase hn).bytes

/-- **REDO ORDER**: for a log with every record in the slot of its LSN, redo
    leaves what a replay in LSN order leaves exactly if the slots agree. -/
theorem walRedo_by_lsn_iff {v : Device} (hp : InPlace v.disk) (hn : NamesData v.disk) :
    toBytes (walRedo (walAnalyze v.disk).committedTxns v).disk = redoneByLsn v.disk ↔
      SlotsAgree v.disk := by
  rw [walRedo_bytes hn]
  exact applyAll_eq_iff (writesOf_pairwise hp _) (byLsn_pairwise hp) mem_byLsn

/-! ## A log that has wrapped -/

/-- The records of a log after 66 appends: transaction 1 writes the byte 1 with
    LSN 64 and then the byte 2 with LSN 65 to the same place, and commits. -/
def wrappedRecord (lsn : Nat) : WalRecord where
  lsn := lsn
  txnId := 1
  type := if lsn < 64 then .begin else if lsn < 66 then .write else .commit
  sector := 70
  offset := 0
  length := 1
  oldData := fun _ => 0
  newData := fun _ => if lsn = 64 then 1 else 2

/-- The LSN of the record in a slot. -/
def wrappedLsn (i : Nat) : Nat := if i < 2 then i + 65 else i + 1

/-- The device with that log. -/
def wrappedDisk : Disk := fun s =>
  if walLogStartSector ≤ s ∧ s < walLogStartSector + walLogSectors
  then bytesOf (wrappedRecord (wrappedLsn (s - walLogStartSector))) else fun _ => 0

theorem wrappedLsn_slot {i : Nat} (hi : i < walLogSectors) :
    wrappedLsn i ≤ 66 ∧ logSector (wrappedLsn i) = walLogStartSector + i := by
  have h64 : i < 64 := hi
  show wrappedLsn i ≤ 66 ∧ 2 + (wrappedLsn i - 1) % 64 = 2 + i
  unfold wrappedLsn
  split <;> omega

theorem slotRecord_wrapped {i : Nat} (hi : i < walLogSectors) :
    slotRecord wrappedDisk i = some (wrappedRecord (wrappedLsn i)) := by
  have hfits : Fits (wrappedRecord (wrappedLsn i)) :=
    ⟨Nat.lt_of_le_of_lt (wrappedLsn_slot hi).1 (by decide),
      (by decide : 1 < 256 ^ 4), (by decide : 70 < 256 ^ 4), (by decide : 0 < 256 ^ 2),
      (by decide : 1 < 256 ^ 2)⟩
  have hdisk : wrappedDisk (walLogStartSector + i) = bytesOf (wrappedRecord (wrappedLsn i)) := by
    unfold wrappedDisk
    rw [if_pos ⟨Nat.le_add_right .., Nat.add_lt_add_left hi _⟩, Nat.add_sub_cancel_left]
  unfold slotRecord
  rw [hdisk, if_pos (checksumOk_bytesOf _), recordOf_bytesOf hfits]

theorem mem_storedLog_wrapped (h : r ∈ storedLog wrappedDisk) : ∃ n ≤ 66, r = wrappedRecord n := by
  obtain ⟨i, hi, hr⟩ := mem_storedLog.mp h
  rw [slotRecord_wrapped hi] at hr
  exact ⟨_, (wrappedLsn_slot hi).1, (Option.some.inj hr).symm⟩

theorem wrapped_mem {i : Nat} (hi : i < walLogSectors) :
    wrappedRecord (wrappedLsn i) ∈ storedLog wrappedDisk :=
  mem_storedLog.mpr ⟨i, hi, slotRecord_wrapped hi⟩

theorem inPlace_wrapped : InPlace wrappedDisk := by
  intro i r hi hr
  rw [slotRecord_wrapped hi] at hr
  rw [← Option.some.inj hr]
  exact (wrappedLsn_slot hi).2

theorem namesData_wrapped : NamesData wrappedDisk := by
  intro r hr _
  obtain ⟨n, -, rfl⟩ := mem_storedLog_wrapped hr
  exact .inr (by decide : 66 < 70)

/-- The committed writes are those with LSN 64 and 65. -/
theorem mem_committed_wrapped :
    r ∈ committedWrites wrappedDisk ↔ r = wrappedRecord 64 ∨ r = wrappedRecord 65 := by
  have hwin : WinnerIn wrappedDisk 1 := by
    refine ⟨by decide, wrappedRecord 66, mem_notedLog.mpr ⟨?_, by decide⟩, rfl, rfl⟩
    exact wrapped_mem (i := 1) (by decide)
  rw [mem_committedWrites]
  constructor
  · rintro ⟨hr, hw, -⟩
    obtain ⟨n, hn, rfl⟩ := mem_storedLog_wrapped hr
    have hn' : n = 64 ∨ n = 65 := by
      simp only [wrappedRecord] at hw
      split at hw
      · exact nomatch hw
      · split at hw
        · omega
        · exact nomatch hw
    rcases hn' with rfl | rfl
    · exact .inl rfl
    · exact .inr rfl
  · rintro (rfl | rfl)
    · exact ⟨wrapped_mem (i := 63) (by decide), rfl, hwin⟩
    · exact ⟨wrapped_mem (i := 0) (by decide), rfl, hwin⟩

/-- On the wrapped log the record with LSN 65 is replayed first. -/
theorem wrapped_redo_out_of_order : InPlace wrappedDisk ∧ NamesData wrappedDisk ∧
    toBytes (walRedo (walAnalyze wrappedDisk).committedTxns ⟨wrappedDisk, []⟩).disk
      ≠ redoneByLsn wrappedDisk := by
  refine ⟨inPlace_wrapped, namesData_wrapped, fun heq => ?_⟩
  have hslot : LastAt newPatch (fun r => logSector r.lsn) (committedWrites wrappedDisk) (70, 0)
      (wrappedRecord 64) := by
    refine ⟨mem_committed_wrapped.mpr (Or.inl rfl), rfl, fun q hq _ => ?_⟩
    rcases mem_committed_wrapped.mp hq with rfl | rfl <;> decide
  have hlsn : LastAt newPatch (fun r => r.lsn) (byLsn wrappedDisk) (70, 0) (wrappedRecord 65) := by
    refine ⟨(mem_byLsn _).mpr (mem_committed_wrapped.mpr (Or.inr rfl)), rfl, fun q hq _ => ?_⟩
    rcases mem_committed_wrapped.mp ((mem_byLsn q).mp hq) with rfl | rfl <;> decide
  have h1 : some (applyAll newPatch (toBytes wrappedDisk) (committedWrites wrappedDisk) (70, 0))
      = _ := applyAll_lastAt (writesOf_pairwise inPlace_wrapped _) hslot
  have h2 := applyAll_lastAt (f := toBytes wrappedDisk) (byLsn_pairwise inPlace_wrapped) hlsn
  have hbytes := (walRedo_bytes (v := ⟨wrappedDisk, []⟩) namesData_wrapped).symm.trans heq
  rw [show applyAll newPatch (toBytes wrappedDisk) (committedWrites wrappedDisk)
    = redoneByLsn wrappedDisk from hbytes] at h1
  exact absurd (h1.symm.trans h2) (by decide)

/-- The criterion at the wrapped log. -/
theorem walRedo_by_lsn_iff_wrapped : InPlace wrappedDisk ∧ NamesData wrappedDisk ∧
    (toBytes (walRedo (walAnalyze wrappedDisk).committedTxns ⟨wrappedDisk, []⟩).disk
      = redoneByLsn wrappedDisk ↔ SlotsAgree wrappedDisk) :=
  ⟨inPlace_wrapped, namesData_wrapped,
    walRedo_by_lsn_iff (v := ⟨wrappedDisk, []⟩) inPlace_wrapped namesData_wrapped⟩

theorem recovery_restartable_wrapped :
    let w := freshManager 1 0 1
    let d := [(true, 1), (false, 0)].foldl (cutOff w) wrappedDisk
    toBytes (walRecover true ⟨d, []⟩ w).1.disk =
      toBytes (walRecover true ⟨wrappedDisk, []⟩ w).1.disk :=
  (recovery_restartable wrappedDisk namesData_wrapped _ _ rfl).1

end MavRedo
