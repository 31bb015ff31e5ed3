import Maverick.ArpProofs

/-! # References on a packet given to `ip_output`

A packet comes with one reference, and `ip_output` is to use it up: every way out frees the packet
or hands it to a driver that does. Queueing for an unresolved neighbour takes a second reference
for the queue, and `ip_output` returns without giving up its own. The queue's reference is dropped
when the packet leaves the queue; the first one never is.

A packet that is not queued is spent when `ip_output` returns, and nothing later touches it. -/

namespace MavIpOutput

open MavPbuf MavNet MavInput MavOutput MavArp MavRun List Option
open Function (update update_self update_of_ne update_eq_self)

/-! ## A buffer that no queue holds -/

/-- No queue holds the buffer. -/
def Absent (b : Nat) (s : Stack) : Prop := ∀ i, ∀ pkt ∈ (s.cache i).pending, pkt.pbuf ≠ b

/-- The buffer has `r` references and was never freed at 0. -/
structure Counted (b r : Nat) (s : Stack) : Prop where
  ref : (s.pbufs b).ref = r
  sound : b ∉ s.overfreed

/-- No queue holds the buffer, and its count is `r`. -/
structure Idle (b r : Nat) (s : Stack) : Prop extends Counted b r s where
  absent : Absent b s

variable {b r : Nat} {s s' : Stack}

/-- Freeing the buffer uses up a reference. -/
theorem Counted.free_self (h : Counted b (r + 1) s) : Counted b r (pbufFree s b) := by
  have href := h.ref
  rw [pbufFree, if_neg (by omega)]
  refine ⟨?_, h.sound⟩
  show (update s.pbufs b _ b).ref = r
  rw [update_self]
  exact Nat.sub_eq_of_eq_add href

variable {b' : Nat} {i : Slot}

/-- Freeing another one does not. -/
theorem Counted.free (h : Counted b r s) (hb : b' ≠ b) : Counted b r (pbufFree s b') := by
  rw [pbufFree]
  split
  · refine ⟨h.ref, fun hmem => ?_⟩
    rcases mem_cons.mp hmem with heq | hmem
    · exact hb heq.symm
    · exact h.sound hmem
  · refine ⟨?_, h.sound⟩
    show (update s.pbufs b' _ b).ref = r
    rw [update_of_ne (Ne.symm hb)]
    exact h.ref

/-- Only the cache, the count and the record of double frees matter. -/
theorem Idle.of_eq (h : Idle b r s) (hcache : s'.cache = s.cache)
    (href : (s'.pbufs b).ref = (s.pbufs b).ref) (hover : s'.overfreed = s.overfreed) :
    Idle b r s' :=
  ⟨⟨href.trans h.ref, by rw [hover]; exact h.sound⟩, by rw [Absent, hcache]; exact h.absent⟩

/-- Another buffer is written. -/
theorem Idle.write (h : Idle b r s) (hb : b' ≠ b) (q : Pbuf) :
    Idle b r { s with pbufs := update s.pbufs b' q } := by
  refine h.of_eq rfl ?_ rfl
  show (update s.pbufs b' q b).ref = _
  rw [update_of_ne (Ne.symm hb)]

/-- The buffer itself is written, its count left as it is. -/
theorem Idle.write_self (h : Idle b r s) {q : Pbuf} (hq : q.ref = (s.pbufs b).ref) :
    Idle b r { s with pbufs := update s.pbufs b q } := by
  refine h.of_eq rfl ?_ rfl
  show (update s.pbufs b q b).ref = _
  rw [update_self, hq]

/-- An entry's packets change to some of its own, or to others. -/
theorem Idle.setEntry (h : Idle b r s) {e : ArpEntry}
    (he : ∀ pkt ∈ e.pending, pkt.pbuf ≠ b) : Idle b r (s.setEntry i e) := by
  refine ⟨⟨h.ref, h.sound⟩, fun j => ?_⟩
  show ∀ pkt ∈ (update s.cache i e j).pending, pkt.pbuf ≠ b
  by_cases hj : j = i
  · rw [hj, update_self]
    exact he
  · rw [update_of_ne hj]
    exact h.absent j

theorem Idle.free_self (h : Idle b (r + 1) s) : Idle b r (pbufFree s b) :=
  ⟨h.toCounted.free_self, by rw [Absent, pbufFree_cache]; exact h.absent⟩

theorem Idle.free (h : Idle b r s) (hb : b' ≠ b) : Idle b r (pbufFree s b') :=
  ⟨h.toCounted.free hb, by rw [Absent, pbufFree_cache]; exact h.absent⟩

theorem Idle.netdevTransmit_self (h : Idle b (r + 1) s) (d : Nat) :
    Idle b r (netdevTransmit s d b).2 := by
  obtain ⟨fs, heq⟩ := netdevTransmit_cases s d b
  rw [heq]
  have hsent : Idle b (r + 1) { s with frames := s.frames ++ fs } := h.of_eq rfl rfl rfl
  exact hsent.free_self

theorem Idle.ethernetOutput_self (h : Idle b (r + 1) s) (d : Nat) (dest : List UInt8) (type : UInt16) :
    Idle b r (ethernetOutput s d b dest type).2 := by
  obtain ⟨q, fs, hq, heq⟩ := ethernetOutput_cases s d b dest type
  rw [heq]
  have hsent : Idle b (r + 1) { s with pbufs := update s.pbufs b q, frames := s.frames ++ fs } :=
    (h.write_self hq).of_eq rfl rfl rfl
  exact hsent.free_self

theorem Idle.netdevTransmit (h : Idle b r s) (hb : b' ≠ b) (d : Nat) :
    Idle b r (netdevTransmit s d b').2 := by
  obtain ⟨fs, heq⟩ := netdevTransmit_cases s d b'
  rw [heq]
  have hsent : Idle b r { s with frames := s.frames ++ fs } := h.of_eq rfl rfl rfl
  exact hsent.free hb

theorem Idle.ethernetOutput (h : Idle b r s) (hb : b' ≠ b) (d : Nat) (dest : List UInt8)
    (type : UInt16) : Idle b r (ethernetOutput s d b' dest type).2 := by
  obtain ⟨q, fs, hq, heq⟩ := ethernetOutput_cases s d b' dest type
  rw [heq]
  have hsent : Idle b r { s with pbufs := update s.pbufs b' q, frames := s.frames ++ fs } :=
    (h.write hb q).of_eq rfl rfl rfl
  exact hsent.free hb

theorem Idle.arpSend (h : Idle b r s) (d : Nat) (dest : List UInt8) (opcode : UInt16)
    (targetMac : List UInt8) (targetIp : UInt32) (malloc : Bool) :
    Idle b r (arpSend s d dest opcode targetMac targetIp malloc) := by
  rw [MavArp.arpSend]
  split
  · exact h
  · split
    · exact h.of_eq rfl rfl rfl
    · exact h

/-! ## The cache works on other buffers -/

/-- Draining a queue without the buffer. -/
theorem Idle.drain {put : Stack → Pending → Stack}
    (hput : ∀ s pkt, pkt.pbuf ≠ b → Idle b r s → Idle b r (put s pkt)) :
    ∀ (pkts : List Pending) {s : Stack}, (∀ pkt ∈ pkts, pkt.pbuf ≠ b) → Idle b r s →
      Idle b r (drain i put pkts s) := by
  intro pkts
  induction pkts with
  | nil => intro s _ h; exact h
  | cons pkt rest ih =>
    intro s hpkts h
    have hrest : ∀ p ∈ rest, p.pbuf ≠ b := fun p hp => hpkts p (mem_cons_of_mem _ hp)
    have hmoved := (h.setEntry (i := i) (e := { s.cache i with pending := rest }) hrest)
    exact ih hrest (hput _ pkt (hpkts pkt (mem_cons_self ..)) (hmoved.of_eq rfl rfl rfl))

theorem Idle.freePacket (s : Stack) (pkt : Pending) (hb : pkt.pbuf ≠ b)
    (h : Idle b r s) : Idle b r (freePacket s pkt) := h.free hb

section

variable (h : Idle b r s)

include h

theorem Idle.freePending (i : Slot) : Idle b r (freePending s i) :=
  Idle.drain Idle.freePacket _ (h.absent i) h

theorem Idle.arpSendPending (i : Slot) : Idle b r (arpSendPending s i) :=
  Idle.drain (fun _ pkt hb hs => hs.ethernetOutput hb pkt.dev _ _) _ (h.absent i) h

/-- Taking an entry frees other buffers only. -/
theorem Idle.arpAllocEntry : Idle b r (arpAllocEntry s).2 := by
  rw [MavArp.arpAllocEntry]
  split
  · exact h
  · next i _ =>
      split
      · exact h.setEntry (forall_mem_nil _)
      · exact (h.freePending i).setEntry (forall_mem_nil _)

theorem Idle.arpResolve (d : Nat) (ip : UInt32) (now : Int) (malloc : Bool) :
    Idle b r (arpResolve s d ip now malloc).2 := by
  rw [MavArp.arpResolve]
  split
  · exact h
  split
  · exact h
  split
  · split <;> exact h
  have ha := h.arpAllocEntry
  split
  · next s' heq =>
      rw [heq] at ha
      exact ha.arpSend ..
  · next i s' heq =>
      rw [heq] at ha
      refine Idle.arpSend (s := s'.setEntry i _) ?_ ..
      exact ha.setEntry (ha.absent i)

theorem Idle.arpCacheUpdate (ip : UInt32) (mac : List UInt8) (now : Int) :
    Idle b r (arpCacheUpdate s ip mac now) := by
  rw [MavArp.arpCacheUpdate]
  split
  · next i _ => exact h.setEntry (h.absent i)
  have ha := h.arpAllocEntry
  split
  · next s' heq =>
      rw [heq] at ha
      exact ha
  · next i s' heq =>
      rw [heq] at ha
      exact ha.setEntry (forall_mem_nil _)

theorem Idle.arpLearn (d : Nat) (hdr : ArpHdr) (now : Int) : Idle b r (arpLearn s d hdr now) := by
  rw [MavArp.arpLearn]
  split
  · next i _ =>
      refine Idle.arpSendPending (s := Stack.setEntry _ i _) ?_ i
      exact h.setEntry (h.absent i)
  split
  · have ha := h.arpAllocEntry
    split
    · next s' heq =>
        rw [heq] at ha
        exact ha
    · next i s' heq =>
        rw [heq] at ha
        exact ha.setEntry (ha.absent i)
  · exact h

theorem Idle.arpInput (hb : b' ≠ b) (d : Nat) (now : Int)
    (malloc : Bool) : Idle b r (arpInput s d b' now malloc) := by
  rw [MavArp.arpInput]
  split
  · exact h.free hb
  · next hdr _ =>
      refine Idle.free ?_ hb
      split
      · exact (h.arpLearn d hdr now).arpSend ..
      · exact h.arpLearn d hdr now

theorem Idle.dropOldest (i : Slot) : Idle b r (dropOldest s i) := by
  rw [MavArp.dropOldest]
  split
  · exact h
  · next oldest rest hcons =>
      split
      · have hall := h.absent i
        rw [hcons] at hall
        have hrest := h.setEntry (i := i) (e := { s.cache i with pending := rest })
          fun p hp => hall p (mem_cons_of_mem _ hp)
        exact Idle.freePacket _ _ (hall oldest (mem_cons_self ..)) (hrest.of_eq rfl rfl rfl)
      · exact h

theorem Idle.arpQueuePacket (hb : b' ≠ b) (d : Nat) (ip : UInt32)
    (malloc : Bool) : Idle b r (arpQueuePacket s d ip b' malloc).2 := by
  rw [MavArp.arpQueuePacket]
  split
  · exact h
  rename_i i _
  split
  · exact h
  · have hd := h.dropOldest i
    split
    · exact hd
    · have hr : Idle b r (pbufRef (MavArp.dropOldest s i) b') := hd.write hb _
      exact hr.setEntry (i := i) (forall_mem_append.mpr
        ⟨hr.absent i, forall_mem_singleton.mpr hb⟩)

end

theorem Idle.timerLoop (now : Int) (is : List Slot) {s : Stack} : Idle b r s →
    Idle b r (timerLoop now is s) := by
  induction is generalizing s with
  | nil => intro h; exact h
  | cons i is ih =>
    intro h
    rw [MavArp.timerLoop]
    split
    · exact ih h
    · split
      · have hf := h.freePending i
        exact ih (hf.setEntry (hf.absent i))
      · exact ih h

/-! ## `ip_output` of another packet -/

/-- Preparing a packet leaves its count alone. -/
theorem ipPrepare_ref {n : Net} {id : UInt16} {dev : Option Nat} {p out : Pbuf} {src dst : UInt32}
    {protocol ttl : UInt8} {d : Nat} {hop : UInt32}
    (h : ipPrepare n id dev p src dst protocol ttl = some (d, hop, out)) : out.ref = p.ref := by
  obtain ⟨device, -, hfill⟩ := ipPrepare_some h
  obtain ⟨room, hroom, rfl⟩ := map_eq_some_iff.mp hfill
  obtain ⟨-, -, rfl⟩ := pbufHeader_neg (n := ipHeaderLen) (by decide) hroom
  rfl

theorem Idle.ipOutput (h : Idle b r s) (hb : b' ≠ b) (dev : Option Nat) (src dst : UInt32)
    (protocol ttl : UInt8) (now : Int) (malloc malloc' : Bool) :
    Idle b r (ipOutput s dev b' src dst protocol ttl now malloc malloc').2 := by
  rw [MavArp.ipOutput]
  split
  · exact h.free hb
  rename_i d hop q _
  have hw : Idle b r { s with pbufs := update s.pbufs b' q, ipId := s.ipId + 1 } :=
    (h.write hb q).of_eq rfl rfl rfl
  dsimp only
  split
  · exact hw.free hb
  split
  · exact hw.netdevTransmit hb d
  split
  · exact hw.ethernetOutput hb d _ _
  have ha := hw.arpResolve d hop now malloc
  split
  · next mac s' heq =>
      rw [heq] at ha
      exact ha.ethernetOutput hb d _ _
  · next s' heq =>
      rw [heq] at ha
      have hq := ha.arpQueuePacket hb d hop malloc'
      split
      · next s'' heq' => rw [heq'] at hq; exact hq
      · next s'' heq' => rw [heq'] at hq; exact hq.free hb

/-- The buffer is not an argument of the call. -/
def Avoids (b : Nat) : Call → Prop
  | .queue _ _ b' _ => b' ≠ b
  | .input _ b' _ _ _ => b' ≠ b
  | .output _ b' _ _ _ _ _ _ _ => b' ≠ b
  | _ => True

/-- A call that is not about the buffer leaves an idle one as it is. -/
theorem Idle.call (h : Idle b r s) {c : Call} (hc : Avoids b c) (hs : call s c = some s') :
    Idle b r s' := by
  cases c <;> obtain rfl := some.inj hs
  case resolve => exact h.arpResolve ..
  case queue => exact h.arpQueuePacket hc ..
  case input => exact Idle.arpInput (h.write hc _) hc ..
  case update => exact h.arpCacheUpdate ..
  case timer => exact Idle.timerLoop _ _ h
  case output => exact h.ipOutput hc ..
  case setUp => exact h.of_eq rfl rfl rfl

theorem Idle.exec (h : Idle b r s) {cs : List Call} (hcs : ∀ c ∈ cs, Avoids b c)
    (hs : exec MavArp.call s cs = some s') : Idle b r s' := by
  induction cs generalizing s with
  | nil => obtain rfl := some.inj hs; exact h
  | cons c cs ih =>
    obtain ⟨t, ht, hs⟩ := exec_cons hs
    exact ih (h.call (hcs c (mem_cons_self ..)) ht)
      (fun c' hc' => hcs c' (mem_cons_of_mem _ hc')) hs

/-! ## The packet in a queue -/

/-- One packet of the entry is the buffer; it is in no other queue. -/
structure Waiting (b : Nat) (i : Slot) (r : Nat) (s : Stack) : Prop extends Counted b r s where
  held : ∃ front pkt rest, (s.cache i).pending = front ++ pkt :: rest ∧ pkt.pbuf = b ∧
    (∀ p ∈ front, p.pbuf ≠ b) ∧ ∀ p ∈ rest, p.pbuf ≠ b
  others : ∀ j ≠ i, ∀ p ∈ (s.cache j).pending, p.pbuf ≠ b

/-- The other queues, after this one has changed. -/
theorem others_setEntry {e : ArpEntry} (h : ∀ j ≠ i, ∀ p ∈ (s.cache j).pending, p.pbuf ≠ b) :
    ∀ j ≠ i, ∀ p ∈ ((s.setEntry i e).cache j).pending, p.pbuf ≠ b := by
  intro j hj
  show ∀ p ∈ (update s.cache i e j).pending, p.pbuf ≠ b
  rw [update_of_ne hj]
  exact h j hj

/-- Freeing a queue drops one reference of the buffer in it. -/
theorem idle_drain {pkt : Pending} {rest : List Pending}
    (hpkt : pkt.pbuf = b) (hrest : ∀ p ∈ rest, p.pbuf ≠ b) :
    ∀ (front : List Pending) {s : Stack}, (∀ p ∈ front, p.pbuf ≠ b) →
      (∀ j ≠ i, ∀ p ∈ (s.cache j).pending, p.pbuf ≠ b) → Counted b (r + 1) s →
      Idle b r (drain i freePacket (front ++ pkt :: rest) s) := by
  intro front
  induction front with
  | nil =>
    intro s _ hothers hcount
    have hidle : Idle b (r + 1) (s.setEntry i { s.cache i with pending := rest }) := by
      refine ⟨⟨hcount.ref, hcount.sound⟩, fun j => ?_⟩
      by_cases hj : j = i
      · show ∀ p ∈ (update s.cache i _ j).pending, p.pbuf ≠ b
        rw [hj, update_self]
        exact hrest
      · exact others_setEntry hothers j hj
    -- the buffer's own turn, then the packets behind it
    refine Idle.drain Idle.freePacket rest hrest ?_
    rw [freePacket, hpkt]
    exact Idle.free_self (hidle.of_eq rfl rfl rfl)
  | cons p front ih =>
    intro s hfront hothers hcount
    refine ih (fun p' hp' => hfront p' (mem_cons_of_mem _ hp')) ?_ ?_
    · show ∀ j ≠ i, ∀ p ∈ ((pbufFree _ _).cache j).pending, p.pbuf ≠ b
      rw [pbufFree_cache]
      exact others_setEntry hothers
    · exact Counted.free ⟨hcount.ref, hcount.sound⟩ (hfront p (mem_cons_self ..))

theorem Waiting.freePending (h : Waiting b i (r + 1) s) : Idle b r (freePending s i) := by
  obtain ⟨front, pkt, rest, heq, hpkt, hfront, hrest⟩ := h.held
  rw [MavArp.freePending, heq]
  exact idle_drain hpkt hrest front hfront h.others h.toCounted

/-- Freeing a queue without the buffer leaves its count alone. -/
theorem Counted.drain (pkts : List Pending) {s : Stack} : (∀ p ∈ pkts, p.pbuf ≠ b) → Counted b r s →
      Counted b r (drain i freePacket pkts s) := by
  induction pkts generalizing s with
  | nil => intro _ h; exact h
  | cons pkt rest ih =>
    intro hpkts h
    exact ih (fun p hp => hpkts p (mem_cons_of_mem _ hp))
      (Counted.free ⟨h.ref, h.sound⟩ (hpkts pkt (mem_cons_self ..)))

/-- What one turn of the timer's loop does to an entry whose time is over. -/
def expired (s : Stack) (j : Slot) : Stack :=
  (freePending s j).setEntry j { (freePending s j).cache j with state := .empty }

theorem expired_cache_of_ne {j : Slot} (hj : i ≠ j) : (expired s j).cache i = s.cache i := by
  show update (freePending s j).cache j _ i = s.cache i
  rw [update_of_ne hj, freePending_cache, update_of_ne hj]

theorem expired_pending (j : Slot) : ((expired s j).cache j).pending = [] := by
  show (update (freePending s j).cache j _ j).pending = []
  rw [update_self, freePending_cache, update_self]

/-- Freeing another queue leaves the buffer where it is. -/
theorem Waiting.expired {j : Slot} (h : Waiting b i r s) (hj : j ≠ i) :
    Waiting b i r (expired s j) := by
  have hcount : Counted b r (MavArp.freePending s j) :=
    Counted.drain _ (h.others j hj) h.toCounted
  refine ⟨⟨hcount.ref, hcount.sound⟩, ?_, fun k hk => ?_⟩
  · rw [expired_cache_of_ne (Ne.symm hj)]
    exact h.held
  · by_cases hkj : k = j
    · rw [hkj, expired_pending]
      exact nofun
    · rw [expired_cache_of_ne hkj]
      exact h.others k hk

/-- **EXPIRY**: the timer drops the queue's reference of a waiting packet whose time is over. -/
theorem Waiting.timerLoop {now : Int} (is : List Slot) {s : Stack} : i ∈ is →
    Waiting b i (r + 1) s → (s.cache i).state ≠ .empty → (s.cache i).expireTime ≤ now →
    Idle b r (timerLoop now is s) := by
  induction is generalizing s with
  | nil => intro hi; exact nomatch hi
  | cons j is ih =>
    intro hi h hstate htime
    rw [MavArp.timerLoop]
    by_cases hj : j = i
    · subst hj
      rw [if_neg hstate, if_pos htime]
      have hf := h.freePending
      exact Idle.timerLoop now is (hf.setEntry (hf.absent j))
    have hi : i ∈ is := (mem_cons.mp hi).resolve_left (Ne.symm hj)
    have hcache := expired_cache_of_ne (s := s) (Ne.symm hj)
    split
    · exact ih hi h hstate htime
    · split
      · exact ih hi (h.expired hj) (by rw [← hcache] at hstate; exact hstate)
          (by rw [← hcache] at htime; exact htime)
      · exact ih hi h hstate htime

/-! ## `ip_output` of the packet itself -/

theorem dropOldest_state (i : Slot) : ((dropOldest s i).cache i).state = (s.cache i).state := by
  rw [dropOldest]
  split
  · rfl
  · split
    · show ((pbufFree _ _).cache i).state = _
      rw [pbufFree_cache]
      show (update s.cache i _ i).state = _
      rw [update_self]
    · rfl

/-- Queueing the packet: nothing happens to it, or the queue gets a reference of its own. -/
theorem arpQueuePacket_self (h : Idle b r s) (d : Nat) (ip : UInt32) (malloc : Bool) :
    ((arpQueuePacket s d ip b malloc).1 = false ∧ Idle b r (arpQueuePacket s d ip b malloc).2) ∨
    ((arpQueuePacket s d ip b malloc).1 = true ∧
      ∃ i, Waiting b i (r + 1) (arpQueuePacket s d ip b malloc).2 ∧
        ((arpQueuePacket s d ip b malloc).2.cache i).state ≠ .empty) := by
  rw [arpQueuePacket]
  split
  · exact .inl ⟨rfl, h⟩
  rename_i i _
  split
  · exact .inl ⟨rfl, h⟩
  rename_i hstate
  have hd := h.dropOldest i
  have hpending : ((dropOldest s i).cache i).state = .pending := by
    rw [dropOldest_state]
    exact not_not.mp hstate
  split
  · exact .inl ⟨rfl, hd⟩
  refine .inr ⟨rfl, i, ⟨⟨?_, hd.sound⟩, ?_, fun j hj => ?_⟩, ?_⟩
  · show (update (dropOldest s i).pbufs b _ b).ref = r + 1
    rw [update_self]
    exact congrArg (· + 1) hd.ref
  · refine ⟨((dropOldest s i).cache i).pending, ⟨b, d⟩, [], ?_, rfl,
      hd.absent i, forall_mem_nil _⟩
    show (update (dropOldest s i).cache i _ i).pending = _
    rw [update_self]
    rfl
  · show ∀ p ∈ (update (dropOldest s i).cache i _ j).pending, p.pbuf ≠ b
    rw [update_of_ne hj]
    exact hd.absent j
  · show (update (dropOldest s i).cache i _ i).state ≠ .empty
    rw [update_self]
    intro hempty
    cases hpending.symm.trans hempty

/-- The cache has no MAC for the address and an entry to wait in: one that is pending, or none for
    the address and one that is empty or may be reused. -/
def Unresolved (s : Stack) (ip : UInt32) : Prop :=
  ip ≠ 0xFFFFFFFF ∧ isLoopbackAddr ip = false ∧
    match arpFindEntry s ip with
    | some i => (s.cache i).state ≠ .valid
    | none => ∃ i, (s.cache i).state = .empty ∨ (s.cache i).expireTime < int64Max

theorem allocLoop_isSome (cache : Slot → ArpEntry) (is : List Slot) (time : Int) (oldest : Option Slot) :
    (allocLoop cache is time oldest).isSome ↔
      oldest.isSome ∨ ∃ i ∈ is, (cache i).state = .empty ∨ (cache i).expireTime < time := by
  induction is generalizing time oldest with
  | nil => simp [allocLoop]
  | cons i is ih =>
    rw [allocLoop]
    by_cases hempty : (cache i).state = .empty
    · rw [if_pos hempty]
      exact iff_of_true rfl (.inr ⟨i, mem_cons_self, .inl hempty⟩)
    rw [if_neg hempty]
    by_cases htime : (cache i).expireTime < time
    · rw [if_pos htime, ih]
      exact iff_of_true (.inl rfl) (.inr ⟨i, mem_cons_self, .inr htime⟩)
    · rw [if_neg htime, ih, exists_mem_cons_iff, or_iff_right (not_or.mpr ⟨hempty, htime⟩)]

theorem arpAllocEntry_isSome (s : Stack) : (arpAllocEntry s).1.isSome ↔
    ∃ i, (s.cache i).state = .empty ∨ (s.cache i).expireTime < int64Max := by
  have hloop := allocLoop_isSome s.cache (List.finRange 32) int64Max none
  simp only [Option.isSome_none, Bool.false_eq_true, false_or, mem_finRange, true_and] at hloop
  rw [← hloop, arpAllocEntry]
  cases allocLoop s.cache (List.finRange 32) int64Max none with
  | none => rfl
  | some i =>
    dsimp only
    split <;> rfl

theorem arpAllocEntry_none {t : Stack} (h : arpAllocEntry s = (none, t)) : t = s := by
  rw [arpAllocEntry] at h
  split at h
  · exact (Prod.mk.inj h).2.symm
  · split at h <;> cases (Prod.mk.inj h).1

/-- Taking an entry empties its queue. -/
theorem arpAllocEntry_some {t : Stack} (h : arpAllocEntry s = (some i, t)) :
    t.cache = update s.cache i { s.cache i with pending := [] } := by
  rw [arpAllocEntry] at h
  split at h
  · exact nomatch (Prod.mk.inj h).1
  split at h
  · obtain ⟨hi, rfl⟩ := Prod.mk.inj h
    obtain rfl := some.inj hi
    rfl
  · obtain ⟨hi, rfl⟩ := Prod.mk.inj h
    obtain rfl := some.inj hi
    show update (freePending s _).cache _ _ = _
    rw [freePending_cache, update_self, Function.update_idem]

@[simp] theorem arpSend_cache (s : Stack) (d : Nat) (dest : List UInt8) (opcode : UInt16)
    (targetMac : List UInt8) (targetIp : UInt32) (malloc : Bool) :
    (arpSend s d dest opcode targetMac targetIp malloc).cache = s.cache := by
  rw [arpSend]
  split
  · rfl
  · split <;> rfl

/-- A new entry for an address without one is found. -/
theorem arpFindEntry_new {t : Stack} {ip : UInt32} {e : ArpEntry} (hnone : arpFindEntry s ip = none)
    (ht : t.cache = update s.cache i e) (hip : e.ipAddr = ip) (hstate : e.state ≠ .empty) :
    arpFindEntry t ip = some i := by
  have hi : (t.cache i).state ≠ .empty ∧ (t.cache i).ipAddr = ip := by
    rw [ht, update_self]
    exact ⟨hstate, hip⟩
  cases hf : arpFindEntry t ip with
  | none =>
    have hp := List.find?_eq_none.mp hf i (mem_finRange i)
    simp only [Bool.and_eq_true, bne_iff_ne, beq_iff_eq] at hp
    exact absurd hi hp
  | some j =>
    have hp := List.find?_some hf
    by_cases hj : j = i
    · rw [hj]
    · rw [ht, update_of_ne hj] at hp
      exact absurd hp (List.find?_eq_none.mp hnone j (mem_finRange j))

/-- A pending entry takes the packet if there is memory. -/
theorem arpQueuePacket_pending {ip : UInt32} {d : Nat} {malloc : Bool}
    (hf : arpFindEntry s ip = some i) (hp : (s.cache i).state = .pending) :
    (arpQueuePacket s d ip b malloc).1 = malloc := by
  rw [arpQueuePacket, hf]
  dsimp only
  rw [if_neg (fun hne => hne hp)]
  cases malloc <;> rfl

/-- **WHEN A PACKET WAITS**: `arp_resolve` answers false and `arp_queue_packet` true. -/
theorem queued_iff (s : Stack) (d : Nat) (ip : UInt32) (b : Nat) (now : Int) (malloc malloc' : Bool) :
    ((arpResolve s d ip now malloc).1 = none ∧
      (arpQueuePacket (arpResolve s d ip now malloc).2 d ip b malloc').1 = true) ↔
    Unresolved s ip ∧ malloc' = true := by
  rw [arpResolve, Unresolved]
  by_cases hb : ip = 0xFFFFFFFF
  · rw [if_pos hb]
    exact iff_of_false (fun h => nomatch h.1) fun h => h.1.1 hb
  rw [if_neg hb]
  by_cases hl : isLoopbackAddr ip = true
  · rw [if_pos hl]
    exact iff_of_false (fun h => nomatch h.1) fun h => nomatch h.1.2.1.symm.trans hl
  rw [if_neg hl]
  cases hf : arpFindEntry s ip with
  | some i =>
    dsimp only
    by_cases hv : (s.cache i).state = .valid
    · rw [if_pos hv]
      exact iff_of_false (fun h => nomatch h.1) fun h => h.1.2.2 hv
    · have hp : (s.cache i).state = .pending := by
        have hfound := List.find?_some hf
        cases hst : (s.cache i).state with
        | empty => rw [hst] at hfound; exact nomatch hfound
        | pending => rfl
        | valid => exact absurd hst hv
      rw [if_neg hv, arpQueuePacket_pending hf hp]
      exact ⟨fun h => ⟨⟨hb, eq_false_of_ne_true hl, hv⟩, h.2⟩, fun h => ⟨rfl, h.2⟩⟩
  | none =>
    have hroom := arpAllocEntry_isSome s
    rcases ha : arpAllocEntry s with ⟨_ | i, t⟩
    · rw [ha] at hroom
      refine iff_of_false (fun h => ?_) fun h => nomatch hroom.mpr h.1.2.2
      have hnone : arpFindEntry (arpSendRequest t d ip malloc) ip = none := by
        rw [arpFindEntry, arpSendRequest, arpSend_cache, arpAllocEntry_none ha]
        exact hf
      have hq := h.2
      rw [arpQueuePacket, hnone] at hq
      exact nomatch hq
    · rw [ha] at hroom
      have hcache : ∀ e, (arpSendRequest (t.setEntry i e) d ip malloc).cache =
          update s.cache i e := by
        intro e
        rw [arpSendRequest, arpSend_cache]
        show update t.cache i e = _
        rw [arpAllocEntry_some ha, Function.update_idem]
      have hnew : ∀ e, e.ipAddr = ip → e.state = .pending →
          (arpQueuePacket (arpSendRequest (t.setEntry i e) d ip malloc) d ip b malloc').1 =
            malloc' := by
        intro e hip hp
        refine arpQueuePacket_pending (arpFindEntry_new hf (hcache e) hip (by rw [hp]; decide)) ?_
        rw [hcache, update_self, hp]
      dsimp only
      rw [hnew _ rfl rfl]
      exact ⟨fun h => ⟨⟨hb, eq_false_of_ne_true hl, hroom.mp rfl⟩, h.2⟩, fun h => ⟨rfl, h.2⟩⟩

/-- `ip_output` queues the packet: it is prepared, its device is no loopback, its destination no
    broadcast, the cache does not resolve its next hop, and there is memory for the wrapper. -/
def Queues (s : Stack) (dev : Option Nat) (b : Nat) (src dst : UInt32) (protocol ttl : UInt8)
    (malloc' : Bool) : Prop :=
  ∃ d hop q device, ipPrepare s.net s.ipId dev (s.pbufs b) src dst protocol ttl = some (d, hop, q) ∧
    s.net.dev d = some device ∧ device.loopback = false ∧ ipIsBroadcast dst device = false ∧
    Unresolved s hop ∧ malloc' = true

/-- **TWO WAYS OUT**: `ip_output` queues the packet and then two references are
    left, or it uses the packet up. -/
theorem ipOutput_self (h : Idle b 1 s) (dev : Option Nat) (src dst : UInt32) (protocol ttl : UInt8)
    (now : Int) (malloc malloc' : Bool) :
    (¬ Queues s dev b src dst protocol ttl malloc' ∧
      Idle b 0 (ipOutput s dev b src dst protocol ttl now malloc malloc').2) ∨
    (Queues s dev b src dst protocol ttl malloc' ∧
      ∃ i, Waiting b i 2 (ipOutput s dev b src dst protocol ttl now malloc malloc').2 ∧
        ((ipOutput s dev b src dst protocol ttl now malloc malloc').2.cache i).state ≠ .empty) := by
  rw [ipOutput]
  split
  · next hprep =>
      refine .inl ⟨?_, h.free_self⟩
      rintro ⟨d, hop, q, device, hq, -⟩
      cases hprep.symm.trans hq
  rename_i d hop q hprep
  have hw : Idle b 1 { s with pbufs := update s.pbufs b q, ipId := s.ipId + 1 } :=
    (h.write_self (ipPrepare_ref hprep)).of_eq rfl rfl rfl
  dsimp only
  split
  · next hdev =>
      refine .inl ⟨?_, hw.free_self⟩
      rintro ⟨d', hop', q', device, hq, hdev', -⟩
      obtain ⟨rfl, -⟩ := pair_inj (hprep.symm.trans hq)
      cases hdev.symm.trans hdev'
  rename_i device hdev
  -- what the packet would be queued with is what it was prepared with
  have hcases : Queues s dev b src dst protocol ttl malloc' ↔
      device.loopback = false ∧ ipIsBroadcast dst device = false ∧
      (arpResolve { s with pbufs := update s.pbufs b q, ipId := s.ipId + 1 }
        d hop now malloc).1 = none ∧
      (arpQueuePacket (arpResolve { s with
        pbufs := update s.pbufs b q, ipId := s.ipId + 1 }
        d hop now malloc).2 d hop b malloc').1 = true := by
    rw [queued_iff]
    constructor
    · rintro ⟨d', hop', q', device', hq, hdev', hrest⟩
      obtain ⟨rfl, rest⟩ := pair_inj (hprep.symm.trans hq)
      obtain ⟨rfl, rfl⟩ := Prod.mk.inj rest
      obtain rfl := some.inj (hdev.symm.trans hdev')
      exact hrest
    · exact fun hrest => ⟨d, hop, q, device, hprep, hdev, hrest⟩
  rw [hcases]
  split
  · next hloop =>
      exact .inl ⟨fun hq => (by cases hloop.symm.trans hq.1), hw.netdevTransmit_self d⟩
  split
  · next hbroad =>
      exact .inl ⟨fun hq => (by cases hbroad.symm.trans hq.2.1), hw.ethernetOutput_self d _ _⟩
  rename_i hloop hbroad
  have ha := hw.arpResolve d hop now malloc
  split
  · next mac s' heq =>
      rw [heq] at ha
      refine .inl ⟨fun hq => ?_, ha.ethernetOutput_self d _ _⟩
      rw [heq] at hq
      cases hq.2.2.1
  rename_i s' heq
  rw [heq] at ha
  rw [heq]
  rcases arpQueuePacket_self ha d hop malloc' with ⟨hno, hidle⟩ | ⟨hyes, i, hwait⟩
  · refine .inl ⟨fun hq => (by cases hno.symm.trans hq.2.2.2), ?_⟩
    split
    · next s'' heq' =>
        rw [heq'] at hno
        cases hno
    · next s'' heq' =>
        rw [heq'] at hidle
        exact hidle.free_self
  · refine .inr ⟨⟨eq_false_of_ne_true hloop, eq_false_of_ne_true hbroad, rfl, hyes⟩, i, ?_⟩
    split
    · next s'' heq' =>
        rw [heq'] at hwait
        exact hwait
    · next s'' heq' =>
        rw [heq'] at hyes
        cases hyes

/-! ## Released exactly once -/

/-- A packet that has left the queues has no references left, and none was ever
    dropped that was not there. -/
def Released (b : Nat) (s : Stack) : Prop :=
  (Absent b s → (s.pbufs b).ref = 0) ∧ b ∉ s.overfreed

/-- **EVERY REFERENCE, ONCE**: a packet given to `ip_output` with its one
    reference is released exactly once, whatever the stack does afterwards,
    exactly when `ip_output` does not queue it. -/
theorem ip_output_releases_iff (s : Stack) (dev : Option Nat) (b : Nat) (src dst : UInt32)
    (protocol ttl : UInt8) (now : Int) (malloc malloc' : Bool) (h : Idle b 1 s) :
    (∀ cs t, (∀ c ∈ cs, Avoids b c) →
      exec call (ipOutput s dev b src dst protocol ttl now malloc malloc').2 cs = some t →
      Released b t) ↔
    ¬ Queues s dev b src dst protocol ttl malloc' := by
  rcases ipOutput_self h dev src dst protocol ttl now malloc malloc' with
    ⟨hno, hidle⟩ | ⟨hyes, i, hwait, hstate⟩
  · refine ⟨fun _ => hno, fun _ cs t hcs ht => ?_⟩
    have hidle := hidle.exec hcs ht
    exact ⟨fun _ => hidle.ref, hidle.sound⟩
  -- the timer takes the packet off the queue, and one reference stays
  refine ⟨fun hall => ?_, fun hno => absurd hyes hno⟩
  have hidle : Idle b 1 (arpTimer (ipOutput s dev b src dst protocol ttl now malloc malloc').2
      ((ipOutput s dev b src dst protocol ttl now malloc malloc').2.cache i).expireTime) :=
    hwait.timerLoop _ (List.mem_finRange i) hstate le_rfl
  have hzero := (hall [.timer _] _ (fun c hc => by rw [List.mem_singleton.mp hc]; trivial)
    rfl).1 hidle.absent
  exact absurd (hidle.ref.symm.trans hzero) (by decide)

/-- A host with one device and nothing in its ARP cache; every buffer holds three bytes. -/
def freshHost : Stack := arpInit hostNet fun _ => rawPbuf [1, 2, 3]

theorem freshHost_idle (b : Nat) : Idle b 1 freshHost :=
  ⟨⟨rfl, nofun⟩, nofun⟩

/-- A broadcast goes out at once. -/
theorem broadcast_releases :
    Idle 7 1 freshHost ∧ ¬ Queues freshHost (some 0) 7 0 0xFFFFFFFF 17 0 true ∧
    (∀ cs t, (∀ c ∈ cs, Avoids 7 c) →
      exec call (ipOutput freshHost (some 0) 7 0 0xFFFFFFFF 17 0 0 true true).2 cs = some t →
      Released 7 t) ∧
    (ipOutput freshHost (some 0) 7 0 0xFFFFFFFF 17 0 0 true true).2.frames.length = 1 := by
  have hno : ¬ Queues freshHost (some 0) 7 0 0xFFFFFFFF 17 0 true := by
    rintro ⟨d, hop, q, device, hprep, hdev, -, hbroad, -⟩
    have hmap := congrArg (Option.map fun out => out.1) hprep
    obtain rfl : 0 = d := Option.some.inj ((by decide +kernel : _ = some 0).symm.trans hmap)
    obtain rfl := Option.some.inj hdev
    exact absurd hbroad (by decide +kernel)
  exact ⟨freshHost_idle 7, hno,
    (ip_output_releases_iff freshHost (some 0) 7 0 0xFFFFFFFF 17 0 0 true true (freshHost_idle 7)).mpr hno,
    by decide +kernel⟩

/-- **LEAKED PACKET**: a packet for 10.0.2.2 waits for its MAC. The reply comes,
    the packet goes out, and one reference is left for ever. -/
theorem ip_output_leaks :
    Idle 7 1 freshHost ∧
    ∃ t, exec call (ipOutput freshHost none 7 0 0x0202000A 17 0 0 true true).2
        [.input 0 8 neighbourReply 1 true] = some t ∧
      (∀ c ∈ [Call.input 0 8 neighbourReply 1 true], Avoids 7 c) ∧
      t.left.map Pending.pbuf = [7] ∧ (t.pbufs 7).ref = 1 ∧ ¬ Released 7 t := by
  have hobs : (exec call (ipOutput freshHost none 7 0 0x0202000A 17 0 0 true true).2
      [.input 0 8 neighbourReply 1 true]).map
      (fun t => (t.left.map Pending.pbuf, (t.pbufs 7).ref,
        decide (∀ i, (t.cache i).pending = []))) = some ([7], 1, true) := by decide +kernel
  obtain ⟨t, ht, hobs⟩ := Option.map_eq_some_iff.mp hobs
  simp only [Prod.mk.injEq, decide_eq_true_eq] at hobs
  obtain ⟨hleft, href, hempty⟩ := hobs
  refine ⟨freshHost_idle 7, t, ht, fun c hc => ?_, hleft, href, fun hrel => ?_⟩
  · rw [List.mem_singleton.mp hc]
    exact (by decide : 8 ≠ 7)
  · have habsent : Absent 7 t := fun i pkt hp => by rw [hempty i] at hp; exact nomatch hp
    exact absurd (href.symm.trans (hrel.1 habsent)) (by decide)

end MavIpOutput
