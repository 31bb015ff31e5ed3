import Mathlib

/-! # Undo/redo logging over a ring

A log of numbered records in a ring of `n` slots, a disk, and a volatile view of it. A `write`
record covers some addresses and carries their old and new values; a transaction ends with a
`commit` or `abort` record. Records wait in `pending` until they are stored, in order; storing a
record drops the one `n` numbers before it.

`durable` is what the disk ought to hold: the values of the transactions whose commit record is
stored. `exempt` are addresses about which nothing is promised, and `busy` those whose view is
being changed right now.

The invariant comes in two parts. `ViewInv` ties the log to the view and to `durable`; `DiskInv`
ties them to the disk. Each elementary step (append, store, write back, change of the view, end of
a rollback) keeps them under the condition named in its lemma, and from them what recovery finds for
an address is its durable value (`recovered_value`). -/

namespace MavUndoRedo

open List

variable {ρ α β : Type}

/-- The kinds of records that matter here. -/
inductive Kind where
  | write
  | commit
  | abort
  | mark
  deriving DecidableEq

/-- How records of type `ρ` are read. -/
structure LogSig (ρ α β : Type) where
  lsn : ρ → Nat
  txn : ρ → Nat
  kind : ρ → Kind
  old : ρ → α → Option β
  new : ρ → α → Option β

/-- The log, the disk and the volatile state over them. -/
structure LogState (ρ α β : Type) where
  stored : Set ρ
  pending : List ρ
  top : Nat
  active : Set Nat
  disk : α → β
  view : α → β
  durable : α → β
  exempt : Set α
  busy : Set α

/-- A record that is stored or waits to be. -/
def LogState.InLog (s : LogState ρ α β) (r : ρ) : Prop := r ∈ s.stored ∨ r ∈ s.pending

namespace LogSig

variable (L : LogSig ρ α β)

/-- The record is a write of the address. -/
def Covers (r : ρ) (x : α) : Prop := L.kind r = .write ∧ (L.new r x).isSome = true

/-- The record ends its transaction. -/
def Ends (r : ρ) : Prop := L.kind r = .commit ∨ L.kind r = .abort

/-- An end of the transaction is stored. -/
def Ended (s : LogState ρ α β) (t : Nat) : Prop :=
  ∃ e ∈ s.stored, L.txn e = t ∧ L.Ends e

/-- A commit of the transaction is stored. -/
def Won (s : LogState ρ α β) (t : Nat) : Prop :=
  ∃ e ∈ s.stored, L.txn e = t ∧ L.kind e = .commit

/-- The transaction has a stored write of the address. -/
def Wrote (s : LogState ρ α β) (t : Nat) (x : α) : Prop :=
  ∃ r ∈ s.stored, L.txn r = t ∧ L.Covers r x

/-- The oldest record of its transaction on the address. -/
def First (s : LogState ρ α β) (r : ρ) (x : α) : Prop :=
  s.InLog r ∧ L.Covers r x ∧
    ∀ q, s.InLog q → L.Covers q x → L.txn q = L.txn r → L.lsn r ≤ L.lsn q

/-- The youngest record of its transaction on the address. -/
def Last (s : LogState ρ α β) (r : ρ) (x : α) : Prop :=
  s.InLog r ∧ L.Covers r x ∧
    ∀ q, s.InLog q → L.Covers q x → L.txn q = L.txn r → L.lsn q ≤ L.lsn r

/-- The youngest stored record of a committed transaction on the address. -/
def Newest (s : LogState ρ α β) (r : ρ) (x : α) : Prop :=
  r ∈ s.stored ∧ L.Covers r x ∧ L.Won s (L.txn r) ∧
    ∀ q ∈ s.stored, L.Covers q x → L.Won s (L.txn q) → L.lsn q ≤ L.lsn r

/-- The shape of the log: the ring, the queue, and where transactions end. -/
structure Shape (n : Nat) (s : LogState ρ α β) : Prop where
  ring : ∀ r ∈ s.stored, L.lsn r ≤ s.top ∧ s.top < L.lsn r + n
  storedInj : ∀ r ∈ s.stored, ∀ q ∈ s.stored, L.lsn r = L.lsn q → r = q
  pendingLsn : s.pending.map L.lsn = List.range' (s.top + 1) s.pending.length
  endsLast : ∀ e r, s.InLog e → s.InLog r → L.Ends e → L.txn r = L.txn e → r ≠ e →
    L.lsn r < L.lsn e
  activeOpen : ∀ t ∈ s.active, ¬ L.Ended s t
  pendingWrite : ∀ p ∈ s.pending, L.kind p = .write → L.txn p ∈ s.active
  pendingCommit : ∀ p ∈ s.pending, L.kind p = .commit → L.txn p ∈ s.active
  pendingAbort : ∀ p ∈ s.pending, L.kind p = .abort → L.txn p ∉ s.active

/-- The log against the view. `slot` is the place of a number in the ring. -/
structure ViewInv (n : Nat) (slot : Nat → Nat) (s : LogState ρ α β) : Prop
    extends L.Shape n s where
  first : ∀ x, x ∉ s.exempt → ∀ r, L.First s r x → L.txn r ∈ s.active →
    L.old r x = some (s.durable x)
  newest : ∀ x, x ∉ s.exempt → ∀ r, L.Newest s r x → L.new r x = some (s.durable x)
  order : ∀ x, ∀ r ∈ s.stored, ∀ q ∈ s.stored, L.Covers r x → L.Covers q x →
    L.Won s (L.txn r) → L.Won s (L.txn q) → L.lsn r < L.lsn q →
    slot (L.lsn r) < slot (L.lsn q)
  later : ∀ x r q, s.InLog r → s.InLog q → L.Covers r x → L.Covers q x →
    L.txn r ∈ s.active → L.txn q ≠ L.txn r → L.lsn q < L.lsn r
  idle : ∀ x, x ∉ s.exempt → (∀ r, s.InLog r → L.Covers r x → L.txn r ∉ s.active) →
    s.view x = s.durable x
  last : ∀ x, x ∉ s.busy → ∀ r, L.Last s r x → L.txn r ∈ s.active →
    L.new r x = some (s.view x)

/-- The log against the disk. -/
structure DiskInv (s : LogState ρ α β) : Prop where
  unended : ∀ x, x ∉ s.exempt → ∀ r, L.First s r x → ¬ L.Ended s (L.txn r) →
    L.old r x = some (s.durable x)
  onDisk : ∀ x, x ∉ s.exempt → s.disk x = s.durable x ∨
    ∃ r ∈ s.stored, L.Covers r x ∧ (L.Won s (L.txn r) ∨ L.txn r ∈ s.active)

variable {L} {n : Nat} {slot : Nat → Nat} {s : LogState ρ α β}

/-! ## Consequences of the shape -/

variable {t : Nat} {r p q : ρ} {x : α}

theorem Won.ended (h : L.Won s t) : L.Ended s t := by
  obtain ⟨e, he, ht, hk⟩ := h
  exact ⟨e, he, ht, .inl hk⟩

theorem Covers.not_ends (h : L.Covers r x) : ¬ L.Ends r := by
  rintro (hc | ha)
  · rw [h.1] at hc; exact nomatch hc
  · rw [h.1] at ha; exact nomatch ha

theorem Shape.pending_bounds (h : L.Shape n s) (hp : p ∈ s.pending) :
    s.top < L.lsn p ∧ L.lsn p ≤ s.top + s.pending.length := by
  have hm : L.lsn p ∈ s.pending.map L.lsn := mem_map.mpr ⟨p, hp, rfl⟩
  rw [h.pendingLsn, mem_range'_1] at hm
  omega

theorem Shape.inLog_le (h : L.Shape n s) (hr : s.InLog r) : L.lsn r ≤ s.top + s.pending.length := by
  rcases hr with hr | hr
  · have := (h.ring r hr).1
    omega
  · exact (h.pending_bounds hr).2

/-- The head of the queue is the next number, and the rest goes on from it. -/
theorem Shape.head (h : L.Shape n s) {ps : List ρ} (hp : s.pending = p :: ps) :
    L.lsn p = s.top + 1 ∧ ps.map L.lsn = List.range' (s.top + 1 + 1) ps.length := by
  have hm := h.pendingLsn
  rw [hp, map_cons, length_cons, List.range'_succ] at hm
  exact ⟨(List.cons.inj hm).1, (List.cons.inj hm).2⟩

/-- Two active transactions never cover one address. -/
theorem ViewInv.active_unique (h : L.ViewInv n slot s)
    (hr : s.InLog r) (hq : s.InLog q) (hrx : L.Covers r x) (hqx : L.Covers q x)
    (hra : L.txn r ∈ s.active) (hqa : L.txn q ∈ s.active) : L.txn q = L.txn r := by
  by_contra hne
  have h1 := h.later x r q hr hq hrx hqx hra hne
  have h2 := h.later x q r hq hr hqx hrx hqa (Ne.symm hne)
  omega

/-! ## Appending a record -/

theorem inLog_append {s : LogState ρ α β} :
    ({ s with pending := s.pending ++ [p] } : LogState ρ α β).InLog r ↔
      s.InLog r ∨ r = p := by
  show r ∈ s.stored ∨ r ∈ s.pending ++ [p] ↔ (r ∈ s.stored ∨ r ∈ s.pending) ∨ r = p
  rw [mem_append, mem_singleton, or_assoc]

/-- The shape after a record with the next number joins the queue. -/
theorem Shape.append (h : L.Shape n s) (hlsn : L.lsn p = s.top + s.pending.length + 1)
    (hopen : ∀ e, s.InLog e → L.Ends e → L.txn e ≠ L.txn p)
    (hw : L.kind p = .write → L.txn p ∈ s.active)
    (hc : L.kind p = .commit → L.txn p ∈ s.active)
    (ha : L.kind p = .abort → L.txn p ∉ s.active) :
    L.Shape n { s with pending := s.pending ++ [p] } := by
  refine ⟨h.ring, h.storedInj, ?_, ?_, h.activeOpen, ?_, ?_, ?_⟩
  · rw [map_append, length_append, h.pendingLsn]
    show _ = List.range' (s.top + 1) (s.pending.length + 1)
    rw [List.range'_1_concat, map_singleton, hlsn,
      show s.top + 1 + s.pending.length = s.top + s.pending.length + 1 by omega]
  · intro e r he hr hends htxn hne
    rcases inLog_append.mp he with he' | rfl
    · rcases inLog_append.mp hr with hr' | rfl
      · exact h.endsLast e r he' hr' hends htxn hne
      · exact absurd htxn.symm (hopen e he' hends)
    · rcases inLog_append.mp hr with hr' | rfl
      · have := h.inLog_le hr'
        omega
      · exact absurd rfl hne
  · exact forall_mem_append.mpr ⟨h.pendingWrite, forall_mem_singleton.mpr hw⟩
  · exact forall_mem_append.mpr ⟨h.pendingCommit, forall_mem_singleton.mpr hc⟩
  · exact forall_mem_append.mpr ⟨h.pendingAbort, forall_mem_singleton.mpr ha⟩

theorem inLog_of_append (hp : ¬ L.Covers p x)
    (hr : ({ s with pending := s.pending ++ [p] } : LogState ρ α β).InLog r)
    (hrx : L.Covers r x) : s.InLog r :=
  (inLog_append.mp hr).resolve_right fun heq => hp (heq ▸ hrx)

/-- A record that covers nothing changes nobody's first or last record. -/
theorem first_append (hp : ¬ L.Covers p x)
    (h : L.First { s with pending := s.pending ++ [p] } r x) : L.First s r x :=
  ⟨inLog_of_append hp h.1 h.2.1, h.2.1, fun q hq => h.2.2 q (inLog_append.mpr (.inl hq))⟩

theorem last_append (hp : ¬ L.Covers p x)
    (h : L.Last { s with pending := s.pending ++ [p] } r x) : L.Last s r x :=
  ⟨inLog_of_append hp h.1 h.2.1, h.2.1, fun q hq => h.2.2 q (inLog_append.mpr (.inl hq))⟩

/-- Appending a begin, commit, abort or other mark. -/
theorem ViewInv.append_mark (h : L.ViewInv n slot s) (hk : L.kind p ≠ .write)
    (hlsn : L.lsn p = s.top + s.pending.length + 1)
    (hopen : ∀ e, s.InLog e → L.Ends e → L.txn e ≠ L.txn p)
    (hc : L.kind p = .commit → L.txn p ∈ s.active)
    (ha : L.kind p = .abort → L.txn p ∉ s.active) :
    L.ViewInv n slot { s with pending := s.pending ++ [p] } := by
  have hp : ∀ x, ¬ L.Covers p x := fun x hx => hk hx.1
  refine ⟨h.toShape.append hlsn hopen (fun hw => absurd hw hk) hc ha, ?_, h.newest,
    h.order, ?_, ?_, ?_⟩
  · intro x hx r hr hra
    exact h.first x hx r (first_append (hp x) hr) hra
  · intro x r q hr hq hrx hqx
    exact h.later x r q (inLog_of_append (hp x) hr hrx) (inLog_of_append (hp x) hq hqx) hrx hqx
  · intro x hx hno
    exact h.idle x hx fun r hr => hno r (inLog_append.mpr (.inl hr))
  · intro x hx r hr hra
    exact h.last x hx r (last_append (hp x) hr) hra

theorem DiskInv.append_mark (h : L.DiskInv s) (hk : L.kind p ≠ .write) :
    L.DiskInv { s with pending := s.pending ++ [p] } := by
  refine ⟨?_, h.onDisk⟩
  intro x hx r hr hne
  exact h.unended x hx r (first_append (fun hc => hk hc.1) hr) hne

section Write

variable (hv : L.ViewInv n slot s) (hlsn : L.lsn p = s.top + s.pending.length + 1)
  (hold : ∀ x, L.Covers p x → L.old p x = some (s.view x))
  (hdisj : ∀ x q, s.InLog q → L.Covers p x → L.Covers q x → L.txn q ∈ s.active →
    L.txn q = L.txn p)

include hv hlsn hold hdisj

/-- A write over the bytes of the view is the first of its transaction only where
    nobody active covers the address yet. -/
theorem ViewInv.first_append_write (hx : x ∉ s.exempt)
    (hr : L.First { s with pending := s.pending ++ [p] } r x) :
    L.First s r x ∨ L.old r x = some (s.durable x) := by
  obtain ⟨hr, hrx, hmin⟩ := hr
  have hmin' : ∀ q, s.InLog q → L.Covers q x → L.txn q = L.txn r → L.lsn r ≤ L.lsn q :=
    fun q hq => hmin q (inLog_append.mpr (.inl hq))
  rcases inLog_append.mp hr with hr | rfl
  · exact .inl ⟨hr, hrx, hmin'⟩
  · rw [hold x hrx]
    refine .inr (congrArg some (hv.idle x hx ?_))
    intro q hq hqx hqa
    have hle := hmin' q hq hqx (hdisj x q hq hrx hqx hqa)
    have := hv.toShape.inLog_le hq
    omega

/-- Appending a write of an active transaction; its addresses are busy until the view follows. -/
theorem ViewInv.append_write (hk : L.kind p = .write)
    (hopen : ∀ e, s.InLog e → L.Ends e → L.txn e ≠ L.txn p) (ha : L.txn p ∈ s.active) :
    L.ViewInv n slot { s with
      pending := s.pending ++ [p], busy := s.busy ∪ {x | L.Covers p x} } := by
  have hshape : L.Shape n { s with
      pending := s.pending ++ [p], busy := s.busy ∪ {x | L.Covers p x} } := by
    have hs := hv.toShape.append hlsn hopen (fun _ => ha)
      (fun hc => absurd (hk.symm.trans hc) nofun) (fun hc => absurd (hk.symm.trans hc) nofun)
    exact { hs with }
  refine ⟨hshape, ?_, hv.newest, hv.order, ?_, ?_, ?_⟩
  · intro x hx r hr hra
    rcases hv.first_append_write hlsn hold hdisj hx hr with hr | heq
    · exact hv.first x hx r hr hra
    · exact heq
  · intro x r q hr hq hrx hqx hra hne
    rcases inLog_append.mp hr with hr' | rfl
    · rcases inLog_append.mp hq with hq' | rfl
      · exact hv.later x r q hr' hq' hrx hqx hra hne
      · exact absurd (hdisj x r hr' hqx hrx hra).symm hne
    · rcases inLog_append.mp hq with hq' | rfl
      · have := hv.toShape.inLog_le hq'
        omega
      · exact absurd rfl hne
  · intro x hx hno
    exact hv.idle x hx fun r hr => hno r (inLog_append.mpr (.inl hr))
  · intro x hx r hr hra
    have hpx : ¬ L.Covers p x := fun hc => hx (.inr hc)
    exact hv.last x (fun hb => hx (.inl hb)) r (last_append hpx hr) hra

theorem DiskInv.append_write (h : L.DiskInv s) (b : Set α) :
    L.DiskInv { s with pending := s.pending ++ [p], busy := b } := by
  refine ⟨?_, h.onDisk⟩
  intro x hx r hr hne
  rcases hv.first_append_write hlsn hold hdisj hx hr with hr | heq
  · exact h.unended x hx r hr hne
  · exact heq

end Write

/-! ## Changing the view, writing back, beginning -/

/-- The view may change where an active transaction covers, and the addresses
    it settles at its last record are no longer busy. -/
theorem ViewInv.setView (h : L.ViewInv n slot s) (v : α → β) (b : Set α)
    (hidle : ∀ x, x ∉ s.exempt → (∀ r, s.InLog r → L.Covers r x → L.txn r ∉ s.active) →
      v x = s.view x)
    (hlast : ∀ x, x ∉ b → ∀ r, L.Last s r x → L.txn r ∈ s.active → L.new r x = some (v x)) :
    L.ViewInv n slot { s with view := v, busy := b } := by
  refine { h with idle := ?_, last := hlast }
  intro x hx hno
  exact (hidle x hx hno).trans (h.idle x hx hno)

theorem DiskInv.setView (h : L.DiskInv s) (v : α → β) (b : Set α) :
    L.DiskInv { s with view := v, busy := b } := ⟨h.unended, h.onDisk⟩

theorem ViewInv.setDisk (h : L.ViewInv n slot s) (d : α → β) :
    L.ViewInv n slot { s with disk := d } :=
  { h with }

/-- **WRITE-AHEAD**: writing the view back is harmless where no record of the queue covers. -/
theorem DiskInv.writeBack (h : L.DiskInv s) (hv : L.ViewInv n slot s) (d : α → β)
    (hd : ∀ x, d x = s.disk x ∨ (d x = s.view x ∧ ∀ p ∈ s.pending, ¬ L.Covers p x)) :
    L.DiskInv { s with disk := d } := by
  refine ⟨h.unended, ?_⟩
  intro x hx
  rcases hd x with hdx | ⟨hdx, hnone⟩
  · show d x = s.durable x ∨ _
    rw [hdx]
    exact h.onDisk x hx
  by_cases hact : ∃ r, s.InLog r ∧ L.Covers r x ∧ L.txn r ∈ s.active
  · obtain ⟨r, hr, hrx, hra⟩ := hact
    rcases hr with hr | hr
    · exact .inr ⟨r, hr, hrx, .inr hra⟩
    · exact absurd hrx (hnone r hr)
  · refine .inl (hdx.trans (hv.idle x hx ?_))
    intro r hr hrx hra
    exact hact ⟨r, hr, hrx, hra⟩

/-- Other transactions are active: none with a record that was not, all with a
    write or a commit in the queue, and where none of them covers the view is durable. -/
theorem ViewInv.setActive (h : L.ViewInv n slot s) (a : Set Nat)
    (hsub : ∀ r, s.InLog r → L.txn r ∈ a → L.txn r ∈ s.active) (hopen : ∀ t ∈ a, ¬ L.Ended s t)
    (hpend : ∀ p ∈ s.pending, L.kind p = .write ∨ L.kind p = .commit → L.txn p ∈ s.active →
      L.txn p ∈ a)
    (hidle : ∀ x, x ∉ s.exempt → (∀ r, s.InLog r → L.Covers r x → L.txn r ∉ a) →
      s.view x = s.durable x) : L.ViewInv n slot { s with active := a } :=
  { h with
    activeOpen := hopen
    pendingWrite := fun p hp hk => hpend p hp (.inl hk) (h.pendingWrite p hp hk)
    pendingCommit := fun p hp hk => hpend p hp (.inr hk) (h.pendingCommit p hp hk)
    pendingAbort := fun p hp hk hpa => h.pendingAbort p hp hk (hsub p (.inr hp) hpa)
    first := fun x hx r hr hra => h.first x hx r hr (hsub r hr.1 hra)
    later := fun x r q hr hq hrx hqx hra => h.later x r q hr hq hrx hqx (hsub r hr hra)
    idle := hidle
    last := fun x hx r hr hra => h.last x hx r hr (hsub r hr.1 hra) }

theorem DiskInv.setActive (h : L.DiskInv s) (a : Set Nat)
    (ha : ∀ x, x ∉ s.exempt → ∀ r ∈ s.stored, L.Covers r x → L.txn r ∈ s.active →
      s.disk x = s.durable x ∨ L.txn r ∈ a) : L.DiskInv { s with active := a } := by
  refine ⟨h.unended, fun x hx => ?_⟩
  rcases h.onDisk x hx with hd | ⟨r, hr, hrx, hw | hra⟩
  · exact .inl hd
  · exact .inr ⟨r, hr, hrx, .inl hw⟩
  · exact (ha x hx r hr hrx hra).imp_right fun hra => ⟨r, hr, hrx, .inr hra⟩

/-- A transaction nobody has heard of begins. -/
theorem ViewInv.begin (h : L.ViewInv n slot s) (hfresh : ∀ r, s.InLog r → L.txn r ≠ t) :
    L.ViewInv n slot { s with active := s.active ∪ {t} } := by
  refine h.setActive _ (fun r hr hra => hra.resolve_right (hfresh r hr)) ?_
    (fun _ _ _ hpa => .inl hpa)
    fun x hx hno => h.idle x hx fun r hr hrx hra => hno r hr hrx (.inl hra)
  rintro u (hu | hu)
  · exact h.activeOpen u hu
  · rintro ⟨e, he, hte, -⟩
    exact hfresh e (.inl he) (hte.trans hu)

theorem DiskInv.begin (h : L.DiskInv s) (t : Nat) :
    L.DiskInv { s with active := s.active ∪ {t} } :=
  h.setActive _ fun _ _ _ _ _ hra => .inr (.inl hra)

/-! ## The end of a rollback -/

/-- A transaction whose addresses are all back at their durable values is no longer active. -/
theorem ViewInv.rolledBack (h : L.ViewInv n slot s)
    (hpend : ∀ p ∈ s.pending, L.kind p ≠ .abort → L.txn p ≠ t)
    (hback : ∀ x, x ∉ s.exempt → ∀ r, s.InLog r → L.Covers r x → L.txn r = t →
      s.view x = s.durable x) :
    L.ViewInv n slot { s with active := s.active \ {t} } := by
  refine h.setActive _ (fun _ _ hra => hra.1) (fun u hu => h.activeOpen u hu.1)
    (fun p hp hk hpa => ⟨hpa, hpend p hp ?_⟩) fun x hx hno => ?_
  · rcases hk with hk | hk <;> rw [hk] <;> exact nofun
  · by_cases ht : ∃ r, s.InLog r ∧ L.Covers r x ∧ L.txn r = t
    · obtain ⟨r, hr, hrx, hrt⟩ := ht
      exact hback x hx r hr hrx hrt
    · refine h.idle x hx ?_
      intro r hr hrx hra
      exact hno r hr hrx ⟨hra, fun hrt => ht ⟨r, hr, hrx, hrt⟩⟩

theorem DiskInv.rolledBack (h : L.DiskInv s)
    (hback : ∀ x, x ∉ s.exempt → ∀ r ∈ s.stored, L.Covers r x → L.txn r = t →
      s.disk x = s.durable x) :
    L.DiskInv { s with active := s.active \ {t} } := by
  refine h.setActive _ fun x hx r hr hrx hra => ?_
  by_cases ht : L.txn r = t
  · exact .inl (hback x hx r hr hrx ht)
  · exact .inr ⟨hra, ht⟩

/-! ## Storing the head of the queue -/

variable (L n s) in
/-- The head of the queue goes to its slot, over the record one lap older. -/
def store (p : ρ) (ps : List ρ) : LogState ρ α β :=
  { s with
    stored := {r | (r ∈ s.stored ∧ L.lsn r + n ≠ L.lsn p) ∨ r = p}
    pending := ps
    top := L.lsn p }

variable (L n s) in
/-- Addresses of an active transaction whose record is dropped. -/
def lost (p : ρ) : Set α :=
  {x | ∃ r ∈ s.stored, L.lsn r + n = L.lsn p ∧ L.Covers r x ∧ L.txn r ∈ s.active}

section Store

variable {ps : List ρ}

theorem Covers.ne_of_ends {e : ρ} (hr : L.Covers r x) (he : L.Ends e) : r ≠ e := by
  rintro rfl
  exact hr.not_ends he

theorem won_of_store (hw : L.Won (L.store n s p ps) t) :
    L.Won s t ∨ (L.kind p = .commit ∧ L.txn p = t) := by
  obtain ⟨e, (⟨he, -⟩ | rfl), hte, hk⟩ := hw
  · exact .inl ⟨e, he, hte, hk⟩
  · exact .inr ⟨hk, hte⟩

theorem ended_of_store (hw : L.Ended (L.store n s p ps) t) :
    L.Ended s t ∨ (L.Ends p ∧ L.txn p = t) := by
  obtain ⟨e, (⟨he, -⟩ | rfl), hte, hk⟩ := hw
  · exact .inl ⟨e, he, hte, hk⟩
  · exact .inr ⟨hk, hte⟩

/-- A write in the queue is of no committed transaction. -/
theorem Shape.not_won_pending (h : L.Shape n s) (hq : q ∈ s.pending)
    (hqx : L.Covers q x) : ¬ L.Won s (L.txn q) :=
  fun hw => h.activeOpen _ (h.pendingWrite q hq hqx.1) hw.ended

/-- Among records with bounded numbers there is one with the largest. -/
theorem exists_max_lsn {P : ρ → Prop} {b : Nat} (hb : ∀ r, P r → L.lsn r ≤ b)
    (hex : ∃ r, P r) : ∃ r, P r ∧ ∀ q, P q → L.lsn q ≤ L.lsn r := by
  obtain ⟨r, hr, hmin⟩ := WellFounded.has_min (measure fun r => b - L.lsn r).wf {r | P r} hex
  refine ⟨r, hr, fun q hq => ?_⟩
  have hle : ¬ b - L.lsn q < b - L.lsn r := hmin q hq
  have := hb q hq
  omega

theorem exists_min_lsn {P : ρ → Prop} (hex : ∃ r, P r) :
    ∃ r, P r ∧ ∀ q, P q → L.lsn r ≤ L.lsn q := by
  obtain ⟨r, hr, hmin⟩ := WellFounded.has_min (measure L.lsn).wf {r | P r} hex
  exact ⟨r, hr, fun q hq => Nat.le_of_not_lt (hmin q hq)⟩

theorem Shape.exists_last (h : L.Shape n s) (hq : s.InLog q)
    (hqx : L.Covers q x) : ∃ r, L.Last s r x ∧ L.txn r = L.txn q := by
  obtain ⟨r, ⟨hr, hrx, hrt⟩, hmax⟩ := exists_max_lsn (L := L)
    (P := fun r => s.InLog r ∧ L.Covers r x ∧ L.txn r = L.txn q)
    (fun r hr => h.inLog_le hr.1) ⟨q, hq, hqx, rfl⟩
  exact ⟨r, ⟨hr, hrx, fun q' hq' hqx' hqt' => hmax q' ⟨hq', hqx', hqt'.trans hrt⟩⟩, hrt⟩

variable (L n s) in
/-- What the record about to be dropped may be: no write of an active transaction; of a committed
    one only if its bytes are on disk or a younger record covers them; of one without an end only if
    that transaction has no younger record on the same address. -/
structure SafeDrop (p : ρ) : Prop where
  active : ∀ r ∈ s.stored, L.lsn r + n = L.lsn p → L.kind r = .write →
    L.txn r ∉ s.active
  won : ∀ r ∈ s.stored, L.lsn r + n = L.lsn p → L.Won s (L.txn r) →
    ∀ x, x ∉ s.exempt → L.Covers r x → L.new r x = some (s.disk x) ∨
      ∃ q ∈ s.stored, L.lsn r < L.lsn q ∧ L.Covers q x ∧
        (L.Won s (L.txn q) ∨ L.txn q ∈ s.active)
  unended : ∀ r ∈ s.stored, L.lsn r + n = L.lsn p → ¬ L.Ended s (L.txn r) →
    ¬ (L.Ends p ∧ L.txn p = L.txn r) → ∀ x, ∀ q ∈ s.stored, L.txn q = L.txn r →
      L.lsn r < L.lsn q → L.Covers q x → ¬ L.Covers r x

theorem SafeDrop.lost_eq (h : L.SafeDrop n s p) : L.lost n s p = ∅ := by
  refine Set.eq_empty_iff_forall_notMem.mpr ?_
  rintro x ⟨r, hr, hdrop, hrx, hra⟩
  exact h.active r hr hdrop hrx.1 hra

variable (hp : s.pending = p :: ps)

include hp

theorem head_mem : p ∈ s.pending := by
  rw [hp]
  exact mem_cons_self ..

theorem tail_mem (hq : q ∈ ps) : q ∈ s.pending := by
  rw [hp]
  exact mem_cons_of_mem _ hq

theorem inLog_of_store (hr : (L.store n s p ps).InLog r) : s.InLog r := by
  rcases hr with (⟨hr, -⟩ | rfl) | hr
  · exact .inl hr
  · exact .inr (head_mem hp)
  · exact .inr (tail_mem hp hr)

theorem inLog_store (hr : s.InLog r) :
    (L.store n s p ps).InLog r ∨ (r ∈ s.stored ∧ L.lsn r + n = L.lsn p) := by
  rcases hr with hr | hr
  · by_cases hn : L.lsn r + n = L.lsn p
    · exact .inr ⟨hr, hn⟩
    · exact .inl (.inl (.inl ⟨hr, hn⟩))
  · rw [hp] at hr
    rcases mem_cons.mp hr with rfl | hr
    · exact .inl (.inl (.inr rfl))
    · exact .inl (.inr hr)

/-- The dropped record is the oldest of the log. -/
theorem Shape.dropped_le (h : L.Shape n s) (hr : L.lsn r + n = L.lsn p) (hq : s.InLog q) :
    L.lsn r ≤ L.lsn q := by
  have hhead := (h.head hp).1
  rcases hq with hq | hq
  · have := (h.ring q hq).2
    omega
  · have := h.pending_bounds hq
    omega

/-- A transaction with a record left keeps its end record. -/
theorem Shape.end_kept (h : L.Shape n s) {e : ρ} (he : e ∈ s.stored) (hends : L.Ends e)
    (hr : s.InLog r) (ht : L.txn r = L.txn e) (hne : r ≠ e) : e ∈ (L.store n s p ps).stored := by
  refine .inl ⟨he, ?_⟩
  intro hdrop
  have h1 := h.dropped_le hp hdrop hr
  have h2 := h.endsLast e r (.inl he) hr hends ht hne
  omega

theorem Shape.won_store (h : L.Shape n s) (hr : s.InLog r) (hrx : L.Covers r x)
    (hw : L.Won s (L.txn r)) : L.Won (L.store n s p ps) (L.txn r) := by
  obtain ⟨e, he, hte, hk⟩ := hw
  exact ⟨e, h.end_kept hp he (.inl hk) hr hte.symm (hrx.ne_of_ends (.inl hk)), hte, hk⟩

theorem Shape.ended_store (h : L.Shape n s) (hr : s.InLog r) (hrx : L.Covers r x)
    (hend : L.Ended s (L.txn r)) : L.Ended (L.store n s p ps) (L.txn r) := by
  obtain ⟨e, he, hte, hends⟩ := hend
  exact ⟨e, h.end_kept hp he hends hr hte.symm (hrx.ne_of_ends hends), hte, hends⟩

theorem mem_stored_store (hr : r ∈ (L.store n s p ps).stored) :
    r ∈ s.stored ∨ (r = p ∧ r ∈ s.pending) := by
  rcases hr with ⟨hr, -⟩ | rfl
  · exact .inl hr
  · exact .inr ⟨rfl, head_mem hp⟩

/-- The ring and the queue after the store; `a` are the active transactions from then on. -/
theorem Shape.store (h : L.Shape n s) (hn : 0 < n)
    (a : Set Nat) (ha : ∀ t ∈ a, t ∈ s.active) (hend : L.Ends p → L.txn p ∉ a)
    (hkeep : ∀ q ∈ ps, L.kind q = .write ∨ L.kind q = .commit → L.txn q ∈ a)
    (d : α → β) (e : Set α) :
    L.Shape n { L.store n s p ps with active := a, durable := d, exempt := e } := by
  obtain ⟨hhead, hrest⟩ := h.head hp
  refine ⟨?_, ?_, ?_, ?_, ?_, ?_, ?_, ?_⟩
  · rintro r (⟨hr, hne⟩ | rfl)
    · have := h.ring r hr
      show L.lsn r ≤ L.lsn p ∧ L.lsn p < L.lsn r + n
      omega
    · show L.lsn r ≤ L.lsn r ∧ L.lsn r < L.lsn r + n
      omega
  · rintro r (⟨hr, -⟩ | rfl) q (⟨hq, -⟩ | rfl) heq
    · exact h.storedInj r hr q hq heq
    · have := (h.ring r hr).1
      omega
    · have := (h.ring q hq).1
      omega
    · rfl
  · show ps.map L.lsn = List.range' (L.lsn p + 1) ps.length
    rw [hhead]
    exact hrest
  · intro e r he hr
    exact h.endsLast e r (inLog_of_store hp he) (inLog_of_store hp hr)
  · rintro t ht ⟨e, (⟨he, -⟩ | rfl), hte, hends⟩
    · exact h.activeOpen t (ha t ht) ⟨e, he, hte, hends⟩
    · exact hend hends (by rw [hte]; exact ht)
  · intro q hq hk
    exact hkeep q hq (.inl hk)
  · intro q hq hk
    exact hkeep q hq (.inr hk)
  · intro q hq hk hqa
    exact h.pendingAbort q (tail_mem hp hq) hk (ha _ hqa)

/-- Outside the lost addresses, the first record of an active transaction is still its first. -/
theorem first_of_store (hx : x ∉ L.lost n s p) (hra : L.txn r ∈ s.active)
    (hr : L.First (L.store n s p ps) r x) : L.First s r x := by
  refine ⟨inLog_of_store hp hr.1, hr.2.1, ?_⟩
  intro q hq hqx hqt
  rcases inLog_store (L := L) (n := n) hp hq with hq' | ⟨hq', hdrop⟩
  · exact hr.2.2 q hq' hqx hqt
  · exact absurd ⟨q, hq', hdrop, hqx, by rw [hqt]; exact hra⟩ hx

theorem Shape.last_of_store (h : L.Shape n s) (hr : L.Last (L.store n s p ps) r x) :
    L.Last s r x := by
  refine ⟨inLog_of_store hp hr.1, hr.2.1, ?_⟩
  intro q hq hqx hqt
  rcases inLog_store (L := L) (n := n) hp hq with hq' | ⟨-, hdrop⟩
  · exact hr.2.2 q hq' hqx hqt
  · exact h.dropped_le hp hdrop (inLog_of_store hp hr.1)

/-- A write of a transaction that had committed was stored before. -/
theorem Shape.stored_of_won (h : L.Shape n s) (hr : r ∈ (L.store n s p ps).stored)
    (hrx : L.Covers r x) (hrw : L.Won s (L.txn r)) : r ∈ s.stored := by
  rcases mem_stored_store hp hr with hr' | ⟨-, hr'⟩
  · exact hr'
  · exact absurd hrw (h.not_won_pending hr' hrx)

/-- Among transactions committed before, the newest record is still the newest:
    only the oldest record of the log goes. -/
theorem Shape.newest_of_store (h : L.Shape n s)
    (hr : r ∈ (L.store n s p ps).stored) (hrx : L.Covers r x) (hrw : L.Won s (L.txn r))
    (hmax : ∀ q ∈ (L.store n s p ps).stored, L.Covers q x →
      L.Won (L.store n s p ps) (L.txn q) → L.lsn q ≤ L.lsn r) : L.Newest s r x := by
  have hrs := h.stored_of_won hp hr hrx hrw
  refine ⟨hrs, hrx, hrw, ?_⟩
  intro q hq hqx hqw
  by_cases hdrop : L.lsn q + n = L.lsn p
  · exact h.dropped_le hp hdrop (.inl hrs)
  · exact hmax q (.inl ⟨hq, hdrop⟩) hqx (h.won_store hp (.inl hq) hqx hqw)

/-- Storing anything but a commit keeps `ViewInv`, the lost addresses becoming exempt. -/
theorem ViewInv.store_mark (h : L.ViewInv n slot s) (hn : 0 < n) (hk : L.kind p ≠ .commit) :
    L.ViewInv n slot { L.store n s p ps with exempt := s.exempt ∪ L.lost n s p } := by
  have hshape := h.toShape.store hp hn s.active (fun t ht => ht)
    (fun hends => h.pendingAbort p (head_mem hp) (hends.resolve_left hk))
    (fun q hq hkq =>
      hkq.elim (h.pendingWrite q (tail_mem hp hq)) (h.pendingCommit q (tail_mem hp hq)))
    s.durable (s.exempt ∪ L.lost n s p)
  have hwon : ∀ t, L.Won (L.store n s p ps) t → L.Won s t :=
    fun t ht => (won_of_store ht).resolve_right fun hc => hk hc.1
  refine ⟨hshape, ?_, ?_, ?_, ?_, ?_, ?_⟩
  · intro x hx r hr hra
    exact h.first x (fun he => hx (.inl he)) r
      (first_of_store hp (fun he => hx (.inr he)) hra hr) hra
  · rintro x hx r ⟨hr, hrx, hrw, hmax⟩
    exact h.newest x (fun he => hx (.inl he)) r
      (h.toShape.newest_of_store hp hr hrx (hwon _ hrw) hmax)
  · intro x r hr q hq hrx hqx hrw hqw hlt
    have hrw' := hwon _ hrw
    have hqw' := hwon _ hqw
    exact h.order x r (h.toShape.stored_of_won hp hr hrx hrw') q
      (h.toShape.stored_of_won hp hq hqx hqw') hrx hqx hrw' hqw' hlt
  · intro x r q hr hq
    exact h.later x r q (inLog_of_store hp hr) (inLog_of_store hp hq)
  · intro x hx hno
    refine h.idle x (fun he => hx (.inl he)) ?_
    intro r hr hrx hra
    rcases inLog_store (L := L) (n := n) hp hr with hr' | ⟨hr', hdrop⟩
    · exact hno r hr' hrx hra
    · exact hx (.inr ⟨r, hr', hdrop, hrx, hra⟩)
  · intro x hx r hr hra
    exact h.last x hx r (h.toShape.last_of_store hp hr) hra

/-- Of the transaction being committed only the commit itself is left in the queue. -/
theorem Shape.txn_ne_commit (h : L.Shape n s) (hends : L.Ends p) (hq : q ∈ ps) :
    L.txn q ≠ L.txn p := by
  intro ht
  obtain ⟨hhead, hrest⟩ := h.head hp
  have hm : L.lsn q ∈ ps.map L.lsn := mem_map.mpr ⟨q, hq, rfl⟩
  rw [hrest, mem_range'_1] at hm
  have hne : q ≠ p := by
    rintro rfl
    omega
  have := h.endsLast p q (.inr (head_mem hp)) (.inr (tail_mem hp hq)) hends ht hne
  omega

/-- When its commit reaches the head of the queue, the records of a transaction are all stored. -/
theorem Shape.commit_stored (h : L.Shape n s) (hends : L.Ends p) (hr : s.InLog r)
    (ht : L.txn r = L.txn p) :
    r ∈ (L.store n s p ps).stored ∨ (r ∈ s.stored ∧ L.lsn r + n = L.lsn p) :=
  (inLog_store hp hr).imp_left fun hr =>
    hr.resolve_right fun hq => h.txn_ne_commit hp hends hq ht

/-- Storing the commit of `t`: its addresses become durable at its last records. `d` and `e` are
    the durable values and the exempt addresses from then on; the ring must hold the records of `t`
    in the order of their numbers. -/
theorem ViewInv.store_commit (h : L.ViewInv n slot s) (hn : 0 < n) (hk : L.kind p = .commit)
    (hbusy : s.busy = ∅) (d : α → β) (e : Set α)
    (he : ∀ x, x ∉ e → (x ∉ s.exempt ∧ x ∉ L.lost n s p) ∨
      L.Wrote (L.store n s p ps) (L.txn p) x)
    (hkeep : ∀ x, x ∉ e → ¬ L.Wrote (L.store n s p ps) (L.txn p) x → d x = s.durable x)
    (hset : ∀ x, ∀ r ∈ (L.store n s p ps).stored, L.txn r = L.txn p → L.Covers r x →
      (∀ q ∈ (L.store n s p ps).stored, L.txn q = L.txn p → L.Covers q x →
        L.lsn q ≤ L.lsn r) → L.new r x = some (d x))
    (horder : ∀ x, ∀ r ∈ (L.store n s p ps).stored, ∀ q ∈ (L.store n s p ps).stored,
      L.Covers r x → L.Covers q x → L.txn q = L.txn p →
      (L.txn r = L.txn p ∨ L.Won s (L.txn r)) → L.lsn r < L.lsn q →
      slot (L.lsn r) < slot (L.lsn q)) :
    L.ViewInv n slot { L.store n s p ps with
      active := s.active \ {L.txn p}, durable := d, exempt := e } := by
  have hta : L.txn p ∈ s.active := h.pendingCommit p (head_mem hp) hk
  have hact : ∀ {r}, L.txn r = L.txn p → L.txn r ∈ s.active := fun hr => by rw [hr]; exact hta
  have hin : ∀ {r}, r ∈ (L.store n s p ps).stored → s.InLog r := fun hr =>
    inLog_of_store hp (.inl hr)
  have hends : L.Ends p := .inl hk
  have hwonp : L.Won (L.store n s p ps) (L.txn p) := ⟨p, .inr rfl, rfl, hk⟩
  have hwon : ∀ t, t ≠ L.txn p → L.Won (L.store n s p ps) t → L.Won s t :=
    fun t ht hw => (won_of_store hw).resolve_right fun hc => ht hc.2.symm
  have hshape := h.toShape.store hp hn (s.active \ {L.txn p}) (fun t ht => ht.1)
    (fun _ hc => hc.2 rfl)
    (fun q hq hkq =>
      ⟨hkq.elim (h.pendingWrite q (tail_mem hp hq)) (h.pendingCommit q (tail_mem hp hq)),
        h.toShape.txn_ne_commit hp hends hq⟩) d e
  refine ⟨hshape, ?_, ?_, ?_, ?_, ?_, ?_⟩
  · rintro x hx r hr ⟨hra, hrne⟩
    have hno : ¬ L.Wrote (L.store n s p ps) (L.txn p) x := by
      rintro ⟨q, hq, hqt, hqx⟩
      have heq := h.active_unique (hin hq) (inLog_of_store hp hr.1) hqx hr.2.1 (hact hqt) hra
      exact hrne (heq.trans hqt)
    -- where the transaction has no record left, nothing changes
    obtain ⟨hxe, hxl⟩ := (he x hx).resolve_right hno
    show L.old r x = some (d x)
    rw [hkeep x hx hno]
    exact h.first x hxe r (first_of_store hp hxl hra hr) hra
  · rintro x hx r ⟨hr, hrx, hrw, hmax⟩
    by_cases hno : L.Wrote (L.store n s p ps) (L.txn p) x
    · -- the newest committed record is one of `t`: all others are older
      obtain ⟨q, hq, hqt, hqx⟩ := hno
      have hqr := hmax q hq hqx (by rw [hqt]; exact hwonp)
      have hrt : L.txn r = L.txn p := by
        by_contra hne
        have := h.later x q r (hin hq) (hin hr) hqx hrx (hact hqt) (by rw [hqt]; exact hne)
        omega
      refine hset x r hr hrt hrx ?_
      intro q' hq' hqt' hqx'
      exact hmax q' hq' hqx' (by rw [hqt']; exact hwonp)
    · have hrt : L.txn r ≠ L.txn p := fun hrt => hno ⟨r, hr, hrt, hrx⟩
      show L.new r x = some (d x)
      rw [hkeep x hx hno]
      exact h.newest x ((he x hx).resolve_right hno).1 r
        (h.toShape.newest_of_store hp hr hrx (hwon _ hrt hrw) hmax)
  · intro x r hr q hq hrx hqx hrw hqw hlt
    by_cases hqt : L.txn q = L.txn p
    · refine horder x r hr q hq hrx hqx hqt ?_ hlt
      by_cases hrt : L.txn r = L.txn p
      · exact .inl hrt
      · exact .inr (hwon _ hrt hrw)
    have hqw' := hwon _ hqt hqw
    by_cases hrt : L.txn r = L.txn p
    · have := h.later x r q (hin hr) (hin hq) hrx hqx (hact hrt) (by rw [hrt]; exact hqt)
      omega
    · have hrw' := hwon _ hrt hrw
      exact h.order x r (h.toShape.stored_of_won hp hr hrx hrw') q
        (h.toShape.stored_of_won hp hq hqx hqw') hrx hqx hrw' hqw' hlt
  · intro x r q hr hq hrx hqx hra hne
    exact h.later x r q (inLog_of_store hp hr) (inLog_of_store hp hq) hrx hqx hra.1 hne
  · intro x hx hno
    show s.view x = d x
    by_cases hwrote : L.Wrote (L.store n s p ps) (L.txn p) x
    · obtain ⟨q, hq, hqt, hqx⟩ := hwrote
      obtain ⟨r, hlast, hrt⟩ := h.toShape.exists_last (hin hq) hqx
      have hrt' : L.txn r = L.txn p := hrt.trans hqt
      have hqr := hlast.2.2 q (hin hq) hqx hrt.symm
      have hr : r ∈ (L.store n s p ps).stored := by
        refine (h.toShape.commit_stored hp hends hlast.1 hrt').resolve_right fun hdrop => ?_
        -- the record that goes is the oldest, and no younger one of `t` would stay
        have hle := h.toShape.dropped_le hp hdrop.2 (hin hq)
        rcases hq with ⟨-, hkept⟩ | rfl
        · omega
        · exact hqx.not_ends hends
      have hview := h.last x (by rw [hbusy]; exact Set.notMem_empty x) r hlast (hact hrt')
      have hdur := hset x r hr hrt' hlast.2.1 (fun q' hq' hqt' hqx' =>
        hlast.2.2 q' (hin hq') hqx' (hqt'.trans hrt'.symm))
      rw [hview] at hdur
      exact Option.some.inj hdur
    · obtain ⟨hxe, hxl⟩ := (he x hx).resolve_right hwrote
      rw [hkeep x hx hwrote]
      refine h.idle x hxe ?_
      intro r hr hrx hra
      rcases inLog_store (L := L) (n := n) hp hr with hr' | ⟨hr', hdrop⟩
      · refine hno r hr' hrx ⟨hra, fun hrt => hwrote ⟨r, ?_, hrt, hrx⟩⟩
        exact hr'.resolve_right fun hq => h.toShape.txn_ne_commit hp hends hq hrt
      · exact hxl ⟨r, hr', hdrop, hrx, hra⟩
  · intro x hx r hr hra
    exact h.last x hx r (h.toShape.last_of_store hp hr) hra.1

/-- Under a safe drop, the first record of an open transaction is still its first. -/
theorem SafeDrop.first_of_store (hsafe : L.SafeDrop n s p) (h : L.Shape n s)
    (hr : L.First (L.store n s p ps) r x) (hne : ¬ L.Ended (L.store n s p ps) (L.txn r)) :
    L.First s r x ∧ ¬ L.Ended s (L.txn r) := by
  have hrin := inLog_of_store hp hr.1
  have hopen : ¬ L.Ended s (L.txn r) := fun hend => hne (h.ended_store hp hrin hr.2.1 hend)
  refine ⟨⟨hrin, hr.2.1, ?_⟩, hopen⟩
  intro q hq hqx hqt
  rcases inLog_store (L := L) (n := n) hp hq with hq' | ⟨hq', hdrop⟩
  · exact hr.2.2 q hq' hqx hqt
  have hpend : ¬ (L.Ends p ∧ L.txn p = L.txn q) := by
    rintro ⟨hends, htp⟩
    exact hne ⟨p, .inr rfl, htp.trans hqt, hends⟩
  rcases hrin with hrs | hrp
  · by_contra hlt
    exact hsafe.unended q hq' hdrop (by rw [hqt]; exact hopen) hpend x r hrs hqt.symm
      (by omega) hr.2.1 hqx
  · refine absurd (h.pendingWrite r hrp hr.2.1.1) ?_
    rw [← hqt]
    exact hsafe.active q hq' hdrop hqx.1

/-- Under a safe drop, what the disk owes to a record it still owes to one. -/
theorem SafeDrop.onDisk (hsafe : L.SafeDrop n s p) (hd : L.DiskInv s)
    (h : L.ViewInv n slot s) (hx : x ∉ s.exempt) :
    s.disk x = s.durable x ∨ ∃ r ∈ (L.store n s p ps).stored, L.Covers r x ∧
      (L.Won (L.store n s p ps) (L.txn r) ∨ L.txn r ∈ s.active) := by
  have hyounger : ∀ r q, L.lsn r + n = L.lsn p → L.lsn r < L.lsn q → q ∈ s.stored →
      q ∈ (L.store n s p ps).stored :=
    fun r q hr hlt hq => .inl ⟨hq, by omega⟩
  have hwon : ∀ q ∈ s.stored, L.Covers q x → L.Won s (L.txn q) →
      L.Won (L.store n s p ps) (L.txn q) :=
    fun q hq hqx hqw => h.toShape.won_store hp (.inl hq) hqx hqw
  rcases hd.onDisk x hx with hdisk | ⟨r, hr, hrx, hr'⟩
  · exact .inl hdisk
  by_cases hdrop : L.lsn r + n = L.lsn p
  · have hrw : L.Won s (L.txn r) := hr'.resolve_right (hsafe.active r hr hdrop hrx.1)
    by_cases hmore : ∃ q ∈ s.stored, L.lsn r < L.lsn q ∧ L.Covers q x ∧
        (L.Won s (L.txn q) ∨ L.txn q ∈ s.active)
    · obtain ⟨q, hq, hlt, hqx, hqw | hqa⟩ := hmore
      · exact .inr ⟨q, hyounger r q hdrop hlt hq, hqx, .inl (hwon q hq hqx hqw)⟩
      · exact .inr ⟨q, hyounger r q hdrop hlt hq, hqx, .inr hqa⟩
    -- the dropped record is the newest: its bytes are durable, and on disk
    have hnew : L.Newest s r x := by
      refine ⟨hr, hrx, hrw, ?_⟩
      intro q hq hqx hqw
      by_contra hlt
      exact hmore ⟨q, hq, by omega, hqx, .inl hqw⟩
    have hdur := h.newest x hx r hnew
    rcases hsafe.won r hr hdrop hrw x hx hrx with hdisk | hmore'
    · rw [hdisk] at hdur
      exact .inl (Option.some.inj hdur)
    · exact absurd hmore' hmore
  · refine .inr ⟨r, .inl ⟨hr, hdrop⟩, hrx, ?_⟩
    rcases hr' with hrw | hra
    · exact .inl (hwon r hr hrx hrw)
    · exact .inr hra

theorem DiskInv.store_mark (hd : L.DiskInv s) (h : L.ViewInv n slot s) (hsafe : L.SafeDrop n s p) :
    L.DiskInv (L.store n s p ps) := by
  refine ⟨?_, ?_⟩
  · intro x hx r hr hne
    obtain ⟨hfirst, hopen⟩ := hsafe.first_of_store hp h.toShape hr hne
    exact hd.unended x hx r hfirst hopen
  · intro x hx
    exact hsafe.onDisk hp hd h hx

/-- Storing the commit of `t` keeps the disk recoverable if no other
    transaction without an end has a record on an address of `t`. -/
theorem DiskInv.store_commit (hd : L.DiskInv s) (h : L.ViewInv n slot s) (hk : L.kind p = .commit)
    (hsafe : L.SafeDrop n s p) (d : α → β) (e : Set α)
    (he : ∀ x, x ∉ e → x ∉ s.exempt ∨ L.Wrote (L.store n s p ps) (L.txn p) x)
    (hkeep : ∀ x, x ∉ e → ¬ L.Wrote (L.store n s p ps) (L.txn p) x → d x = s.durable x)
    (hstale : ∀ x, ∀ r ∈ (L.store n s p ps).stored, ∀ q ∈ (L.store n s p ps).stored,
      L.txn r ≠ L.txn p → ¬ L.Ended s (L.txn r) → L.txn q = L.txn p →
      L.Covers q x → ¬ L.Covers r x) :
    L.DiskInv { L.store n s p ps with
      active := s.active \ {L.txn p}, durable := d, exempt := e } := by
  have hta : L.txn p ∈ s.active := h.pendingCommit p (head_mem hp) hk
  have hends : L.Ends p := .inl hk
  refine ⟨?_, ?_⟩
  · intro x hx r hr hne
    obtain ⟨hfirst, hopen⟩ := hsafe.first_of_store hp h.toShape hr hne
    have hrt : L.txn r ≠ L.txn p := fun hrt => hne ⟨p, .inr rfl, hrt.symm, hends⟩
    have hno : ¬ L.Wrote (L.store n s p ps) (L.txn p) x := by
      rintro ⟨q, hq, hqt, hqx⟩
      rcases hr.1 with hr' | hr'
      · exact hstale x r hr' q hq hrt hopen hqt hqx hr.2.1
      · have hrp : r ∈ s.pending := tail_mem hp hr'
        have heq := h.active_unique (inLog_of_store hp (.inl hq)) (.inr hrp) hqx hr.2.1
          (by rw [hqt]; exact hta) (h.pendingWrite r hrp hr.2.1.1)
        exact hrt (heq.trans hqt)
    show L.old r x = some (d x)
    rw [hkeep x hx hno]
    exact hd.unended x ((he x hx).resolve_right hno) r hfirst hopen
  · intro x hx
    show s.disk x = d x ∨ _
    by_cases hno : L.Wrote (L.store n s p ps) (L.txn p) x
    · obtain ⟨q, hq, hqt, hqx⟩ := hno
      exact .inr ⟨q, hq, hqx, .inl ⟨p, .inr rfl, hqt.symm, hk⟩⟩
    · rw [hkeep x hx hno]
      rcases hsafe.onDisk hp hd h ((he x hx).resolve_right hno) with hdisk | ⟨r, hr, hrx, hrw | hra⟩
      · exact .inl hdisk
      · exact .inr ⟨r, hr, hrx, .inl hrw⟩
      · exact .inr ⟨r, hr, hrx, .inr ⟨hra, fun hrt => hno ⟨r, hr, hrt, hrx⟩⟩⟩

end Store

/-! ## Crash and recovery -/

variable (L n slot s) in
/-- What a crash leaves: the stored log and the disk. -/
structure CrashInv : Prop where
  ring : ∀ r ∈ s.stored, L.lsn r ≤ s.top ∧ s.top < L.lsn r + n
  storedInj : ∀ r ∈ s.stored, ∀ q ∈ s.stored, L.lsn r = L.lsn q → r = q
  endsLast : ∀ e ∈ s.stored, ∀ r ∈ s.stored, L.Ends e → L.txn r = L.txn e → r ≠ e →
    L.lsn r < L.lsn e
  newest : ∀ x, x ∉ s.exempt → ∀ r, L.Newest s r x → L.new r x = some (s.durable x)
  order : ∀ x, ∀ r ∈ s.stored, ∀ q ∈ s.stored, L.Covers r x → L.Covers q x →
    L.Won s (L.txn r) → L.Won s (L.txn q) → L.lsn r < L.lsn q →
    slot (L.lsn r) < slot (L.lsn q)
  unended : ∀ x, x ∉ s.exempt → ∀ r ∈ s.stored, L.Covers r x → ¬ L.Ended s (L.txn r) →
    (∀ q ∈ s.stored, L.Covers q x → L.txn q = L.txn r → L.lsn r ≤ L.lsn q) →
    L.old r x = some (s.durable x)
  onDisk : ∀ x, x ∉ s.exempt → s.disk x = s.durable x ∨
    ∃ r ∈ s.stored, L.Covers r x ∧ (L.Won s (L.txn r) ∨ ¬ L.Ended s (L.txn r))

theorem ViewInv.crash (h : L.ViewInv n slot s) (hd : L.DiskInv s) : L.CrashInv n slot s := by
  refine ⟨h.ring, h.storedInj, ?_, h.newest, h.order, ?_, ?_⟩
  · intro e he r hr
    exact h.endsLast e r (.inl he) (.inl hr)
  · intro x hx r hr hrx hne hmin
    refine hd.unended x hx r ⟨.inl hr, hrx, ?_⟩ hne
    rintro q (hq | hq) hqx hqt
    · exact hmin q hq hqx hqt
    · have h1 := h.toShape.pending_bounds hq
      have h2 := (h.ring r hr).1
      omega
  · intro x hx
    rcases hd.onDisk x hx with hdisk | ⟨r, hr, hrx, hw | ha⟩
    · exact .inl hdisk
    · exact .inr ⟨r, hr, hrx, .inl hw⟩
    · exact .inr ⟨r, hr, hrx, .inr (h.activeOpen _ ha)⟩

/-- **WHAT RECOVERY FINDS**: for every address either the oldest record of a transaction without an
    end has the durable value as its old one; or there is no such record, and the committed record
    in the last slot has it as its new one; or there is neither, and the disk has it. -/
theorem CrashInv.recovered_value (h : L.CrashInv n slot s) (hx : x ∉ s.exempt) :
    (∃ r ∈ s.stored, L.Covers r x ∧ ¬ L.Ended s (L.txn r) ∧
      L.old r x = some (s.durable x) ∧
      ∀ q ∈ s.stored, L.Covers q x → ¬ L.Ended s (L.txn q) → L.lsn r ≤ L.lsn q) ∨
    ((∀ q ∈ s.stored, L.Covers q x → L.Ended s (L.txn q)) ∧
      ∃ r ∈ s.stored, L.Covers r x ∧ L.Won s (L.txn r) ∧ L.new r x = some (s.durable x) ∧
        ∀ q ∈ s.stored, L.Covers q x → L.Won s (L.txn q) → slot (L.lsn q) ≤ slot (L.lsn r)) ∨
    ((∀ q ∈ s.stored, L.Covers q x → L.Ended s (L.txn q) ∧ ¬ L.Won s (L.txn q)) ∧
      s.disk x = s.durable x) := by
  by_cases hlose : ∃ r ∈ s.stored, L.Covers r x ∧ ¬ L.Ended s (L.txn r)
  · obtain ⟨r, ⟨hr, hrx, hne⟩, hmin⟩ := exists_min_lsn (L := L)
      (P := fun r => r ∈ s.stored ∧ L.Covers r x ∧ ¬ L.Ended s (L.txn r))
      (by obtain ⟨r, hr, h⟩ := hlose; exact ⟨r, hr, h⟩)
    refine .inl ⟨r, hr, hrx, hne, h.unended x hx r hr hrx hne ?_,
      fun q hq hqx hqe => hmin q ⟨hq, hqx, hqe⟩⟩
    intro q hq hqx hqt
    exact hmin q ⟨hq, hqx, by rw [hqt]; exact hne⟩
  have hended : ∀ q ∈ s.stored, L.Covers q x → L.Ended s (L.txn q) := by
    intro q hq hqx
    by_contra hne
    exact hlose ⟨q, hq, hqx, hne⟩
  by_cases hwin : ∃ r ∈ s.stored, L.Covers r x ∧ L.Won s (L.txn r)
  · obtain ⟨r, ⟨hr, hrx, hrw⟩, hmax⟩ := exists_max_lsn (L := L) (b := s.top)
      (P := fun r => r ∈ s.stored ∧ L.Covers r x ∧ L.Won s (L.txn r))
      (fun r hr => (h.ring r hr.1).1)
      (by obtain ⟨r, hr, h⟩ := hwin; exact ⟨r, hr, h⟩)
    have hnew : L.Newest s r x := ⟨hr, hrx, hrw, fun q hq hqx hqw => hmax q ⟨hq, hqx, hqw⟩⟩
    refine .inr (.inl ⟨hended, r, hr, hrx, hrw, h.newest x hx r hnew, ?_⟩)
    intro q hq hqx hqw
    rcases Nat.lt_or_eq_of_le (hmax q ⟨hq, hqx, hqw⟩) with hlt | heq
    · exact Nat.le_of_lt (h.order x q hq r hr hqx hrx hqw hrw hlt)
    · rw [heq]
  · refine .inr (.inr ⟨fun q hq hqx => ⟨hended q hq hqx, fun hw =>
      hwin ⟨q, hq, hqx, hw⟩⟩, ?_⟩)
    rcases h.onDisk x hx with hdisk | ⟨r, hr, hrx, hw | hne⟩
    · exact hdisk
    · exact absurd ⟨r, hr, hrx, hw⟩ hwin
    · exact absurd (hended r hr hrx) hne

/-- A session starts on a recovered disk: nothing pending, nothing active. -/
theorem CrashInv.restart (h : L.CrashInv n slot s) (d : α → β)
    (hd : ∀ x, x ∉ s.exempt → d x = s.durable x) :
    L.ViewInv n slot { s with pending := [], active := ∅, disk := d, view := d, busy := ∅ } ∧
      L.DiskInv { s with pending := [], active := ∅, disk := d, view := d, busy := ∅ } := by
  have hin : ∀ r, ({ s with pending := [], active := ∅, disk := d, view := d, busy := ∅ } :
      LogState ρ α β).InLog r → r ∈ s.stored := fun r hr => hr.resolve_right nofun
  refine ⟨⟨⟨h.ring, h.storedInj, rfl, ?_, fun t ht => ht.elim, nofun,
    nofun, nofun⟩, fun _ _ _ _ ha => ha.elim, h.newest,
    h.order, fun _ _ _ _ _ _ _ ha => ha.elim, fun x hx _ => hd x hx,
    fun _ _ _ _ ha => ha.elim⟩, ?_, fun x hx => .inl (hd x hx)⟩
  · intro e r he hr
    exact h.endsLast e (hin e he) r (hin r hr)
  · rintro x hx r ⟨hr, hrx, hmin⟩ hne
    exact h.unended x hx r (hin r hr) hrx hne fun q hq => hmin q (.inl hq)

end LogSig

end MavUndoRedo
