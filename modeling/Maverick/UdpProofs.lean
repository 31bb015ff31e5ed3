import Maverick.RunProofs

/-! # UDP control blocks — ports by list and ports by counter

Every socket has a protocol control block on one list. `udp_bind` with a port of the caller's
choice looks through the list for another block with that port. With port 0 it takes the next port
of a counter, which wraps from 65535 to 49152, and does not look at the list.

So ports are exclusive as long as the counter stands at a free port each time it is used, and not
otherwise. -/

namespace MavUdp

open MavRun List
open Function (update update_self update_of_ne)

/-! ## The control blocks -/

/-- `struct udp_queued_pkt`: the payload of its buffer and the sender. -/
structure QueuedPkt where
  payload : List UInt8
  srcIp : UInt32
  srcPort : UInt16
  deriving DecidableEq, Repr

/-- `struct udp_pcb`, with the value of `recv_sem`. -/
structure Pcb where
  localIp : UInt32
  localPort : UInt16
  remoteIp : UInt32
  remotePort : UInt16
  recvQueue : List QueuedPkt
  recvSem : Nat
  bound : Bool
  deriving DecidableEq, Repr

/-- `udp_pcb_list`, as the addresses on it, the blocks at these addresses, and `udp_next_port`. -/
structure Udp where
  pcbList : List Nat
  pcb : Nat → Pcb
  nextPort : UInt16

/-- What `udp_new` writes into a new block. -/
def freshPcb : Pcb :=
  { localIp := 0, localPort := 0, remoteIp := 0, remotePort := 0
    recvQueue := [], recvSem := 0, bound := false }

def udpInit : Udp := { pcbList := [], pcb := fun _ => freshPcb, nextPort := 49152 }

/-- The lookup of `udp_input`, and the test of `udp_bind` for a port in use: the
    first bound block of the list with that port. -/
def findPcb (s : Udp) (port : UInt16) : Option Nat :=
  s.pcbList.find? fun a => (s.pcb a).bound && (s.pcb a).localPort == port

/-- `udp_new`; `m` is the answer of `malloc`. -/
def udpNew (s : Udp) (m : Option Nat) : Option Nat × Udp :=
  match m with
  | none => (none, s)
  | some a =>
    (some a, { s with pcbList := s.pcbList ++ [a], pcb := Function.update s.pcb a freshPcb })

def udpFree (s : Udp) (pcb : Option Nat) : Udp :=
  match pcb with
  | none => s
  | some a => { s with pcbList := s.pcbList.erase a }

/-- The assignments at the end of `udp_bind`. -/
def setBound (s : Udp) (a : Nat) (ip : UInt32) (port : UInt16) : Udp :=
  { s with
    pcb := Function.update s.pcb a
      { s.pcb a with localIp := ip, localPort := port, bound := true } }

/-- The counter after `udp_next_port++` and its wrap around. -/
def bumpPort (port : UInt16) : UInt16 := if port + 1 = 0 then 49152 else port + 1

def udpBind (s : Udp) (pcb : Option Nat) (ip : UInt32) (port : UInt16) : Int × Udp :=
  match pcb with
  | none => (-1, s)
  | some a =>
    if (s.pcb a).bound then (-1, s)
    else if port = 0 then
      -- the list is not looked at
      (0, { setBound s a ip s.nextPort with nextPort := bumpPort s.nextPort })
    else if (findPcb s port).isSome then (-1, s)
    else (0, setBound s a ip port)

/-- The calls. -/
inductive Call where
  | new (m : Option Nat)
  | bind (pcb : Option Nat) (ip : UInt32) (port : UInt16)
  | free (pcb : Option Nat)
  deriving DecidableEq, Repr

/-- A pointer a caller may pass: `NULL` or a block that is allocated. -/
def Valid (s : Udp) (pcb : Option Nat) : Prop := ∀ a ∈ pcb, a ∈ s.pcbList

instance Valid.decidable (s : Udp) (pcb : Option Nat) : Decidable (Valid s pcb) :=
  match pcb with
  | none => isTrue nofun
  | some a => decidable_of_iff (a ∈ s.pcbList)
      ⟨fun h _ hb => Option.some.inj hb ▸ h, fun h => h a rfl⟩

/-- One call. `malloc` never answers with memory in use, and callers pass pointers they own. -/
def call (s : Udp) : Call → Option Udp
  | .new m => if ∃ a ∈ m, a ∈ s.pcbList then none else some (udpNew s m).2
  | .bind pcb ip port => if Valid s pcb then some (udpBind s pcb ip port).2 else none
  | .free pcb => if Valid s pcb then some (udpFree s pcb) else none

/-! ## What the calls do -/

theorem setBound_self (s : Udp) (a : Nat) (ip : UInt32) (port : UInt16) :
    (setBound s a ip port).pcb a =
      { s.pcb a with localIp := ip, localPort := port, bound := true } :=
  update_self ..

theorem setBound_of_ne (s : Udp) {a b : Nat} (ip : UInt32) (port : UInt16) (h : b ≠ a) :
    (setBound s a ip port).pcb b = s.pcb b :=
  update_of_ne h ..

variable {port : UInt16} {s : Udp}

/-- A port is free when the search for it ends without a block. -/
theorem findPcb_eq_none : findPcb s port = none ↔
      ∀ a ∈ s.pcbList, (s.pcb a).bound = true → (s.pcb a).localPort ≠ port := by
  simp [findPcb, find?_eq_none]

/-- A bind answers -1 and changes nothing, or gives the block a port: the
    counter's, or a free one. -/
theorem udpBind_cases (s : Udp) (pcb : Option Nat) (ip : UInt32) (port : UInt16) :
    udpBind s pcb ip port = (-1, s) ∨
      ∃ a, pcb = some a ∧ (s.pcb a).bound = false ∧
        ((port = 0 ∧ udpBind s pcb ip port =
            (0, { setBound s a ip s.nextPort with nextPort := bumpPort s.nextPort })) ∨
          (port ≠ 0 ∧ findPcb s port = none ∧
            udpBind s pcb ip port = (0, setBound s a ip port))) := by
  cases pcb with
  | none => exact .inl rfl
  | some a =>
    cases hb : (s.pcb a).bound with
    | true => exact .inl (by simp [udpBind, hb])
    | false =>
      by_cases hp : port = 0
      · exact .inr ⟨a, rfl, hb, .inl ⟨hp, by simp [udpBind, hb, hp]⟩⟩
      · cases hf : findPcb s port with
        | none => exact .inr ⟨a, rfl, hb, .inr ⟨hp, rfl, by simp [udpBind, hb, hp, hf]⟩⟩
        | some b => exact .inl (by simp [udpBind, hb, hp, hf])

/-! ## Exclusive ports -/

/-- Bound blocks have pairwise distinct local ports other than 0. -/
structure Exclusive (s : Udp) : Prop where
  nonzero : ∀ a ∈ s.pcbList, (s.pcb a).bound = true → (s.pcb a).localPort ≠ 0
  distinct : ∀ a ∈ s.pcbList, ∀ b ∈ s.pcbList, (s.pcb a).bound = true → (s.pcb b).bound = true →
    (s.pcb a).localPort = (s.pcb b).localPort → a = b

/-- An unbound block asking for any port gets one while an ephemeral port is unused. -/
def Grants (s : Udp) : Prop :=
  ∀ a ∈ s.pcbList, (s.pcb a).bound = false → ∀ ip : UInt32,
    (∃ port : UInt16, 49152 ≤ port ∧ findPcb s port = none) →
      (udpBind s (some a) ip 0).1 = 0

/-- A bind to an ephemeral port finds the counter at a port that no bound block has. -/
def CounterFree (s : Udp) : Call → Prop
  | .bind (some a) _ port =>
    port = 0 → (s.pcb a).bound = false → findPcb s s.nextPort = none
  | _ => True

instance CounterFree.decidable (s : Udp) : (c : Call) → Decidable (CounterFree s c)
  | .bind (some a) _ port =>
    inferInstanceAs (Decidable (port = 0 → (s.pcb a).bound = false → findPcb s s.nextPort = none))
  | .bind none _ _ => isTrue trivial
  | .new _ => isTrue trivial
  | .free _ => isTrue trivial

/-- The state between calls: the list has every block once, the counter stands
    in its range, and ports are exclusive. -/
structure PortsOk (s : Udp) : Prop where
  nodup : s.pcbList.Nodup
  counter : 49152 ≤ s.nextPort
  exclusive : Exclusive s

theorem portsOk_udpInit : PortsOk udpInit where
  nodup := nodup_nil
  counter := by decide
  exclusive := ⟨nofun, nofun⟩

/-- The counter never leaves 49152..65535. -/
theorem le_bumpPort (h : 49152 ≤ port) : 49152 ≤ bumpPort port := by
  by_cases hz : port + 1 = 0
  · rw [bumpPort, if_pos hz]
    decide
  · rw [bumpPort, if_neg hz]
    have hp : (49152 : Nat) ≤ port.toNat := h
    have hz' : (port.toNat + 1) % 65536 ≠ 0 := fun h0 => hz (UInt16.toNat_inj.mp h0)
    show (49152 : Nat) ≤ (port.toNat + 1) % 65536
    have := port.toNat_lt
    omega

/-- Giving one block a free port keeps ports exclusive. -/
theorem Exclusive.setBound (h : Exclusive s) {a : Nat} (ip : UInt32)
    (hport : port ≠ 0) (hfree : findPcb s port = none) : Exclusive (setBound s a ip port) := by
  have hother := findPcb_eq_none.mp hfree
  constructor
  · intro b hb hbound
    by_cases hba : b = a
    · subst hba
      rw [setBound_self]
      exact hport
    · rw [setBound_of_ne s ip port hba] at hbound ⊢
      exact h.nonzero b hb hbound
  intro b hb c hc hbb hbc heq
  -- two blocks with one port: either both are older, or one is the new one
  by_cases hba : b = a
  · by_cases hca : c = a
    · rw [hba, hca]
    · rw [setBound_of_ne s ip port hca] at hbc heq
      subst hba
      rw [setBound_self] at heq
      exact absurd heq.symm (hother c hc hbc)
  · by_cases hca : c = a
    · rw [setBound_of_ne s ip port hba] at hbb heq
      subst hca
      rw [setBound_self] at heq
      exact absurd heq (hother b hb hbb)
    · rw [setBound_of_ne s ip port hba] at hbb heq
      rw [setBound_of_ne s ip port hca] at hbc heq
      exact h.distinct b hb c hc hbb hbc heq

theorem PortsOk.udpNew (h : PortsOk s) {m : Option Nat}
    (hm : ∀ a ∈ m, a ∉ s.pcbList) : PortsOk (udpNew s m).2 := by
  cases m with
  | none => exact h
  | some a =>
    have ha := hm a rfl
    have hold : ∀ b ∈ s.pcbList, update s.pcb a freshPcb b = s.pcb b := by
      intro b hb
      refine update_of_ne (fun hba => ha ?_) ..
      rw [← hba]
      exact hb
    -- the new block is unbound, so a bound block is an old one
    have hbound : ∀ b ∈ s.pcbList ++ [a],
        (update s.pcb a freshPcb b).bound = true → b ∈ s.pcbList := by
      intro b hb hbd
      rcases mem_append.mp hb with hb | hb
      · exact hb
      · rw [mem_singleton.mp hb, update_self] at hbd
        exact nomatch hbd
    refine ⟨nodup_append.mpr ⟨h.nodup, pairwise_singleton _ a, ?_⟩, h.counter, ?_, ?_⟩
    · intro b hb c hc hbc
      rw [mem_singleton.mp hc] at hbc
      exact ha (hbc ▸ hb)
    · intro b hb hbd
      have hb' := hbound b hb hbd
      show (update s.pcb a freshPcb b).localPort ≠ 0
      rw [hold b hb']
      rw [show (MavUdp.udpNew s (some a)).2.pcb b = s.pcb b from hold b hb'] at hbd
      exact h.exclusive.nonzero b hb' hbd
    · intro b hb c hc hbd hcd heq
      have hb' := hbound b hb hbd
      have hc' := hbound c hc hcd
      rw [show (MavUdp.udpNew s (some a)).2.pcb b = s.pcb b from hold b hb'] at hbd heq
      rw [show (MavUdp.udpNew s (some a)).2.pcb c = s.pcb c from hold c hc'] at hcd heq
      exact h.exclusive.distinct b hb' c hc' hbd hcd heq

theorem PortsOk.udpFree (h : PortsOk s) (pcb : Option Nat) : PortsOk (udpFree s pcb) := by
  cases pcb with
  | none => exact h
  | some a =>
    have hmem : ∀ b ∈ s.pcbList.erase a, b ∈ s.pcbList := fun b hb => mem_of_mem_erase hb
    refine ⟨h.nodup.erase a, h.counter, ?_, ?_⟩
    · intro b hb hbd
      exact h.exclusive.nonzero b (hmem b hb) hbd
    · intro b hb c hc hbd hcd heq
      exact h.exclusive.distinct b (hmem b hb) c (hmem c hc) hbd hcd heq

theorem PortsOk.udpBind (h : PortsOk s) {pcb : Option Nat} {ip : UInt32}
    (hc : CounterFree s (.bind pcb ip port)) : PortsOk (udpBind s pcb ip port).2 := by
  rcases udpBind_cases s pcb ip port with heq | ⟨a, rfl, hb, ⟨hp, heq⟩ | ⟨hp, hf, heq⟩⟩
  · rw [heq]
    exact h
  · -- the counter's port is not 0, and free by the side condition
    rw [heq]
    have hne : s.nextPort ≠ 0 := by
      intro h0
      have hcount := h.counter
      rw [h0] at hcount
      exact absurd hcount (by decide)
    have hex := h.exclusive.setBound (a := a) ip hne (hc hp hb)
    exact ⟨h.nodup, le_bumpPort h.counter, hex.nonzero, hex.distinct⟩
  · rw [heq]
    exact ⟨h.nodup, h.counter, h.exclusive.setBound ip hp hf⟩

theorem PortsOk.call {s' : Udp} {c : Call} (h : PortsOk s) (hc : CounterFree s c)
    (hs : call s c = some s') : PortsOk s' := by
  cases c with
  | new m =>
    obtain ⟨hfree, hs⟩ := Option.ite_none_left_eq_some.mp hs
    rw [← Option.some.inj hs]
    exact h.udpNew fun a ha hmem => hfree ⟨a, ha, hmem⟩
  | bind pcb ip port =>
    obtain ⟨-, rfl⟩ := of_guard hs
    exact h.udpBind hc
  | free pcb =>
    obtain ⟨-, rfl⟩ := of_guard hs
    exact h.udpFree pcb

/-- A bind with port 0 always succeeds on an unbound block. -/
theorem grants (s : Udp) : Grants s := by
  intro a _ hb ip _
  simp [udpBind, hb]

/-- **EXCLUSIVE PORTS**: in every run in which the counter stands at a free port
    whenever it is used, bound blocks have distinct ports other than 0, and an
    unbound block that asks for any port gets one. -/
theorem udp_ports_exclusive (cs : List Call) (s : Udp)
    (hG : Guarded call CounterFree udpInit cs) (h : exec call udpInit cs = some s) :
    Exclusive s ∧ Grants s :=
  ⟨(exec_inv (I := PortsOk) (fun _ _ _ hI hC hs => hI.call hC hs) cs udpInit s
      portsOk_udpInit hG h).exclusive, grants s⟩

/-- The run of the witness: two sockets with a port of their own choice and one
    with a port of the counter. -/
def threeSockets : List Call :=
  [.new (some 1), .bind (some 1) 0 53, .new (some 2), .bind (some 2) 0 0,
    .new (some 3), .bind (some 3) 0 49153]

theorem threeSockets_exclusive :
    ∃ s, exec call udpInit threeSockets = some s ∧ Exclusive s ∧ Grants s ∧
      s.pcbList.map (fun a => (s.pcb a).localPort) = [53, 49152, 49153] := by
  have hG : Guarded call CounterFree udpInit threeSockets := by decide
  have hobs : (exec call udpInit threeSockets).map
      (fun s => s.pcbList.map fun a => (s.pcb a).localPort) = some [53, 49152, 49153] := by decide
  obtain ⟨s, hs, hports⟩ := Option.map_eq_some_iff.mp hobs
  have h := udp_ports_exclusive threeSockets s hG hs
  exact ⟨s, hs, h.1, h.2, hports⟩

/-- One socket takes 49152 by name, the next one gets it from the counter. -/
def sharedPort : List Call :=
  [.new (some 1), .bind (some 1) 0 49152, .new (some 2), .bind (some 2) 0 0]

/-- **SHARED PORT**: after this run two bound blocks have port 49152. -/
theorem udp_ports_shared :
    ∃ s, exec call udpInit sharedPort = some s ∧ ¬ Exclusive s := by
  have hobs : (exec call udpInit sharedPort).map
      (fun s => (s.pcbList, [1, 2].map fun a => ((s.pcb a).bound, (s.pcb a).localPort))) =
      some ([1, 2], [(true, 49152), (true, 49152)]) := by decide
  obtain ⟨s, hs, hpair⟩ := Option.map_eq_some_iff.mp hobs
  simp only [map_cons, map_nil, Prod.mk.injEq, cons.injEq, and_true] at hpair
  obtain ⟨hlist, ⟨hb1, hp1⟩, hb2, hp2⟩ := hpair
  refine ⟨s, hs, fun h => ?_⟩
  have h12 := h.distinct 1 (by rw [hlist]; decide) 2 (by rw [hlist]; decide) hb1 hb2
    (by rw [hp1, hp2])
  exact absurd h12 (by decide)

end MavUdp
