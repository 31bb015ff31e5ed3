import Maverick.OutputProofs

/-! # The ARP cache and the packets that wait in it

An entry is empty, pending (a request went out) or valid. Packets for a neighbour that is not
resolved yet wait in the entry. `arp_input` makes an entry valid and sends what waits there;
`arp_timer` and the reuse of an entry free it. `arp_cache_update` makes an entry valid too, and
does nothing about the packets. `ip_output` sends a packet or leaves it to the cache. -/

namespace MavArp

open MavChecksum MavPbuf MavNet MavInput MavOutput MavRun List
open Function (update update_self update_eq_self update_idem)

/-! ## The state -/

/-- `ARP_CACHE_SIZE` entries. -/
abbrev Slot := Fin 32

def arpMaxPending : Nat := 4

/-- 300 seconds, in ticks. -/
def arpCacheTimeout : Int := 300 * 100

def int64Max : Int := 2 ^ 63 - 1

/-- `struct arp_pending_pkt`. -/
structure Pending where
  pbuf : Nat
  dev : Nat
  deriving DecidableEq, Repr

inductive ArpState where
  | empty
  | pending
  | valid
  deriving DecidableEq, Repr

/-- `struct arp_entry`. -/
structure ArpEntry where
  ipAddr : UInt32
  macAddr : List UInt8
  state : ArpState
  expireTime : Int
  retryTime : Int
  retryCount : Int
  pending : List Pending
  deriving DecidableEq, Repr

/-- The assignments that make an entry valid. -/
def ArpEntry.validated (e : ArpEntry) (mac : List UInt8) (now : Int) : ArpEntry :=
  { e with macAddr := mac, state := .valid, expireTime := now + arpCacheTimeout }

/-- A frame that reached a driver. -/
structure Frame where
  dev : Nat
  bytes : List UInt8
  deriving DecidableEq, Repr

/-- The network stack: devices and routes, the counter of `ip_output`, the cache, the packet buffers
    and the frames sent. The last two fields are not kept by the code: the packets that left a
    queue, and the buffers on which `pbuf_free` was called at a count of 0. -/
structure Stack where
  net : Net
  ipId : UInt16
  cache : Slot → ArpEntry
  pbufs : Nat → Pbuf
  frames : List Frame
  left : List Pending
  overfreed : List Nat

/-! ## Buffers and frames -/

/-- A reference is given up. -/
def pbufFree (s : Stack) (b : Nat) : Stack :=
  if (s.pbufs b).ref = 0 then { s with overfreed := b :: s.overfreed }
  else
    { s with pbufs := update s.pbufs b { s.pbufs b with ref := (s.pbufs b).ref - 1 } }

/-- A reference is taken. -/
def pbufRef (s : Stack) (b : Nat) : Stack :=
  { s with pbufs := update s.pbufs b { s.pbufs b with ref := (s.pbufs b).ref + 1 } }

/-- `netdev_transmit`, with a driver that consumes a reference. -/
def netdevTransmit (s : Stack) (d b : Nat) : Int × Stack :=
  match s.net.dev d with
  | none => (-1, pbufFree s b)
  | some dev =>
    if dev.up = false then (-1, pbufFree s b)
    else
      match dev.transmit with
      | none => (-1, pbufFree s b)
      | some err =>
        (err, pbufFree { s with frames := s.frames ++ [⟨d, (s.pbufs b).data⟩] } b)

/-- The `ETH_ADDR_LEN` bytes that `memcpy` takes from an address. -/
def ethAddr (mac : List UInt8) : List UInt8 := (List.range 6).map fun i => mac.getD i 0

/-- `struct eth_hdr` in memory. -/
def ethHdr (dest src : List UInt8) (type : UInt16) : List UInt8 :=
  ethAddr dest ++ ethAddr src ++ le16 (htons type)

def Net.macAddr (n : Net) (d : Nat) : List UInt8 := ((n.dev d).map Netdev.macAddr).getD []

def Net.ipAddr (n : Net) (d : Nat) : UInt32 := ((n.dev d).map Netdev.ipAddr).getD 0

/-- The part of `ethernet_output` that writes the header; `none` where there is no room for it. -/
def ethFill (p : Pbuf) (dest src : List UInt8) (type : UInt16) : Option Pbuf :=
  (pbufHeader p (-(ethHeaderLen : Int))).map fun q => q.write (ethHdr dest src type)

def ethernetOutput (s : Stack) (d b : Nat) (dest : List UInt8) (type : UInt16) : Int × Stack :=
  match ethFill (s.pbufs b) dest (Net.macAddr s.net d) type with
  | none => (-1, pbufFree s b)
  | some q => netdevTransmit { s with pbufs := update s.pbufs b q } d b

/-- `struct arp_hdr` in memory. -/
def arpHdr (opcode : UInt16) (senderMac : List UInt8) (senderIp : UInt32) (targetMac : List UInt8)
    (targetIp : UInt32) : List UInt8 :=
  le16 (htons 1) ++ le16 (htons 0x0800) ++ [6, 4] ++ le16 (htons opcode) ++ senderMac ++
    le32 senderIp ++ targetMac ++ le32 targetIp

/-- `arp_send_request` and `arp_send_reply`: a buffer of their own, allocated and
    consumed in the call; `malloc` is the answer to the request for it. -/
def arpSend (s : Stack) (d : Nat) (dest : List UInt8) (opcode : UInt16) (targetMac : List UInt8)
    (targetIp : UInt32) (malloc : Bool) : Stack :=
  match s.net.dev d with
  | none => s
  | some dev =>
    if malloc = true ∧ dev.up = true ∧ dev.transmit.isSome then
      { s with frames := s.frames ++ [⟨d, ethHdr dest dev.macAddr 0x0806 ++
          arpHdr opcode dev.macAddr dev.ipAddr targetMac targetIp⟩] }
    else s

def arpSendRequest (s : Stack) (d : Nat) (ip : UInt32) (malloc : Bool) : Stack :=
  arpSend s d ethBroadcastAddr 1 [0, 0, 0, 0, 0, 0] ip malloc

def arpSendReply (s : Stack) (d : Nat) (targetIp : UInt32) (targetMac : List UInt8)
    (malloc : Bool) : Stack :=
  arpSend s d targetMac 2 targetMac targetIp malloc

/-! ## Entries -/

def Stack.setEntry (s : Stack) (i : Slot) (e : ArpEntry) : Stack :=
  { s with cache := update s.cache i e }

/-- A loop that takes packets off the front of a queue while there are any. -/
def drain (i : Slot) (put : Stack → Pending → Stack) : List Pending → Stack → Stack
  | [], s => s
  | pkt :: rest, s =>
    drain i put rest (put { s.setEntry i { s.cache i with pending := rest } with
      left := s.left ++ [pkt] } pkt)

/-- A packet is freed. -/
def freePacket (s : Stack) (pkt : Pending) : Stack := pbufFree s pkt.pbuf

/-- The loops of `arp_timer` and `arp_alloc_entry` that free what waits. -/
def freePending (s : Stack) (i : Slot) : Stack := drain i freePacket (s.cache i).pending s

/-- A packet is given to `ethernet_output`. -/
def sendPacket (mac : List UInt8) (s : Stack) (pkt : Pending) : Stack :=
  (ethernetOutput s pkt.dev pkt.pbuf mac 0x0800).2

/-- What waits is sent to the new address. -/
def arpSendPending (s : Stack) (i : Slot) : Stack :=
  drain i (sendPacket (s.cache i).macAddr) (s.cache i).pending s

/-- The first entry in use for `ip`. -/
def arpFindEntry (s : Stack) (ip : UInt32) : Option Slot :=
  (List.finRange 32).find? fun i => (s.cache i).state != .empty && (s.cache i).ipAddr == ip

/-- The loop of `arp_alloc_entry`: an empty entry, or the one that expires first. -/
def allocLoop (cache : Slot → ArpEntry) : List Slot → Int → Option Slot → Option Slot
  | [], _, oldest => oldest
  | i :: is, oldestTime, oldest =>
    if (cache i).state = .empty then some i
    else if (cache i).expireTime < oldestTime then allocLoop cache is (cache i).expireTime (some i)
    else allocLoop cache is oldestTime oldest

/-- A reused entry loses its packets. -/
def arpAllocEntry (s : Stack) : Option Slot × Stack :=
  match allocLoop s.cache (List.finRange 32) int64Max none with
  | none => (none, s)
  | some i =>
    if (s.cache i).state = .empty then
      (some i, s.setEntry i { s.cache i with pending := [] })
    else
      let s := freePending s i
      (some i, s.setEntry i { s.cache i with pending := [] })

/-! ## The five entry points -/

/-- The part of `arp_input` under the lock, for a packet that passed its tests. -/
def arpLearn (s : Stack) (d : Nat) (h : ArpHdr) (now : Int) : Stack :=
  match arpFindEntry s h.senderIp with
  | some i =>
    arpSendPending (s.setEntry i ((s.cache i).validated h.senderMac now)) i
  | none =>
    if h.targetIp = Net.ipAddr s.net d then
      match arpAllocEntry s with
      | (none, s) => s
      | (some i, s) =>
        s.setEntry i (ArpEntry.validated { s.cache i with ipAddr := h.senderIp } h.senderMac now)
    else s

def arpInput (s : Stack) (d b : Nat) (now : Int) (malloc : Bool) : Stack :=
  match (arpParse.eval (s.pbufs b)).1 with
  | none => pbufFree s b
  | some h =>
    let s := arpLearn s d h now
    let s := if h.opcode = 1 ∧ h.targetIp = Net.ipAddr s.net d then
        arpSendReply s d h.senderIp h.senderMac malloc
      else s
    pbufFree s b

/-- `arp_resolve`: the MAC, or `none` for false. -/
def arpResolve (s : Stack) (d : Nat) (ip : UInt32) (now : Int) (malloc : Bool) :
    Option (List UInt8) × Stack :=
  if ip = 0xFFFFFFFF then (some ethBroadcastAddr, s)
  else if isLoopbackAddr ip then (some [0, 0, 0, 0, 0, 0], s)
  else
    match arpFindEntry s ip with
    | some i =>
      if (s.cache i).state = .valid then (some (s.cache i).macAddr, s) else (none, s)
    | none =>
      match arpAllocEntry s with
      | (none, s) => (none, arpSendRequest s d ip malloc)
      | (some i, s) =>
        (none, arpSendRequest (s.setEntry i { s.cache i with
          ipAddr := ip, state := .pending, retryCount := 0, retryTime := now + 100
          expireTime := now + arpCacheTimeout }) d ip malloc)

/-- The part of `arp_queue_packet` that makes room. -/
def dropOldest (s : Stack) (i : Slot) : Stack :=
  match (s.cache i).pending with
  | [] => s
  | oldest :: rest =>
    if (s.cache i).pending.length ≥ arpMaxPending then
      freePacket { s.setEntry i { s.cache i with pending := rest } with
        left := s.left ++ [oldest] } oldest
    else s

/-- A packet joins a pending entry. -/
def arpQueuePacket (s : Stack) (d : Nat) (ip : UInt32) (b : Nat) (malloc : Bool) : Bool × Stack :=
  match arpFindEntry s ip with
  | none => (false, s)
  | some i =>
    if (s.cache i).state ≠ .pending then (false, s)
    else
      let s := dropOldest s i
      if malloc = false then (false, s)
      else
        let s := pbufRef s b
        (true, s.setEntry i { s.cache i with pending := (s.cache i).pending ++ [⟨b, d⟩] })

/-- An address learned by other means. -/
def arpCacheUpdate (s : Stack) (ip : UInt32) (mac : List UInt8) (now : Int) : Stack :=
  match arpFindEntry s ip with
  | some i =>
    -- packets that wait in the entry stay there
    s.setEntry i ((s.cache i).validated mac now)
  | none =>
    match arpAllocEntry s with
    | (none, s) => s
    | (some i, s) =>
      s.setEntry i (ArpEntry.validated { s.cache i with ipAddr := ip, pending := [] } mac now)

/-- The loop of `arp_timer`. -/
def timerLoop (now : Int) : List Slot → Stack → Stack
  | [], s => s
  | i :: is, s =>
    if (s.cache i).state = .empty then timerLoop now is s
    else if now ≥ (s.cache i).expireTime then
      let s := freePending s i
      timerLoop now is (s.setEntry i { s.cache i with state := .empty })
    else timerLoop now is s

/-- Entries past their time are dropped. -/
def arpTimer (s : Stack) (now : Int) : Stack := timerLoop now (List.finRange 32) s

/-! ## `ip_output` -/

/-- `ip_output`; the two answers of `malloc` are for a request and for the
    wrapper of a queued packet. -/
def ipOutput (s : Stack) (dev : Option Nat) (b : Nat) (src dst : UInt32) (protocol ttl : UInt8)
    (now : Int) (malloc malloc' : Bool) : Int × Stack :=
  match ipPrepare s.net s.ipId dev (s.pbufs b) src dst protocol ttl with
  | none => (-1, pbufFree s b)
  | some (d, hop, q) =>
    let s := { s with pbufs := update s.pbufs b q, ipId := s.ipId + 1 }
    match s.net.dev d with
    | none => (-1, pbufFree s b)
    | some device =>
      if device.loopback then netdevTransmit s d b
      else if ipIsBroadcast dst device then ethernetOutput s d b ethBroadcastAddr 0x0800
      else
        match arpResolve s d hop now malloc with
        | (some mac, s) => ethernetOutput s d b mac 0x0800
        | (none, s) =>
          match arpQueuePacket s d hop b malloc' with
          | (true, s) => (0, s)
          | (false, s) => (0, pbufFree s b)

/-- `netdev_up` and `netdev_down`. -/
def netdevSetUp (s : Stack) (d : Nat) (up : Bool) : Stack :=
  { s with net := { s.net with devs := s.net.devs.modify d fun dev => { dev with up := up } } }

/-- The calls into the stack. A received packet arrives in a buffer of its own, `packet`. -/
inductive Call where
  | resolve (d : Nat) (ip : UInt32) (now : Int) (malloc : Bool)
  | queue (d : Nat) (ip : UInt32) (b : Nat) (malloc : Bool)
  | input (d b : Nat) (packet : Pbuf) (now : Int) (malloc : Bool)
  | update (ip : UInt32) (mac : List UInt8) (now : Int)
  | timer (now : Int)
  | output (dev : Option Nat) (b : Nat) (src dst : UInt32) (protocol ttl : UInt8) (now : Int)
      (malloc malloc' : Bool)
  | setUp (d : Nat) (up : Bool)

def call (s : Stack) : Call → Option Stack
  | .resolve d ip now malloc => some (arpResolve s d ip now malloc).2
  | .queue d ip b malloc => some (arpQueuePacket s d ip b malloc).2
  | .input d b packet now malloc =>
    some (arpInput { s with pbufs := update s.pbufs b packet } d b now malloc)
  | .update ip mac now => some (arpCacheUpdate s ip mac now)
  | .timer now => some (arpTimer s now)
  | .output dev b src dst protocol ttl now malloc malloc' =>
    some (ipOutput s dev b src dst protocol ttl now malloc malloc').2
  | .setUp d up => some (netdevSetUp s d up)

/-! ## What the steps leave alone -/

variable {i : Slot} {s : Stack}

@[simp] theorem pbufFree_cache (s : Stack) (b : Nat) : (pbufFree s b).cache = s.cache := by
  rw [pbufFree]
  split <;> rfl

/-- A device that is down and a driver alike use up one reference. -/
theorem netdevTransmit_cases (s : Stack) (d b : Nat) :
    ∃ fs, (netdevTransmit s d b).2 = pbufFree { s with frames := s.frames ++ fs } b := by
  have hnone : s = { s with frames := s.frames ++ [] } := by rw [append_nil]
  rw [netdevTransmit]
  split
  · exact ⟨[], congrArg (pbufFree · b) hnone⟩
  · split
    · exact ⟨[], congrArg (pbufFree · b) hnone⟩
    · split
      · exact ⟨[], congrArg (pbufFree · b) hnone⟩
      · exact ⟨_, rfl⟩

/-- So does `ethernet_output`, with room for its header or without. -/
theorem ethernetOutput_cases (s : Stack) (d b : Nat) (dest : List UInt8) (type : UInt16) :
    ∃ q fs, q.ref = (s.pbufs b).ref ∧ (ethernetOutput s d b dest type).2 =
      pbufFree { s with pbufs := update s.pbufs b q, frames := s.frames ++ fs } b := by
  rw [ethernetOutput]
  split
  · exact ⟨s.pbufs b, [], rfl, by rw [update_eq_self, append_nil]⟩
  · next q hq =>
      have href : q.ref = (s.pbufs b).ref := by
        obtain ⟨room, hroom, rfl⟩ := Option.map_eq_some_iff.mp hq
        obtain ⟨-, -, rfl⟩ := pbufHeader_neg (n := ethHeaderLen) (by decide) hroom
        rfl
      obtain ⟨fs, heq⟩ := netdevTransmit_cases { s with pbufs := update s.pbufs b q } d b
      exact ⟨q, fs, href, heq⟩

/-- Freeing what waits in an entry changes nothing else in the cache. -/
theorem drain_freePacket_cache : ∀ (pkts : List Pending) (s : Stack), (s.cache i).pending = pkts →
    (drain i freePacket pkts s).cache = update s.cache i { s.cache i with pending := [] } := by
  intro pkts
  induction pkts with
  | nil =>
    intro s hs
    have hself : { s.cache i with pending := [] } = s.cache i := by rw [← hs]
    rw [drain, hself, update_eq_self]
  | cons pkt rest ih =>
    intro s hs
    have hcache : (freePacket { s.setEntry i { s.cache i with pending := rest } with
        left := s.left ++ [pkt] } pkt).cache =
        update s.cache i { s.cache i with pending := rest } := pbufFree_cache ..
    rw [drain, ih _ (by rw [hcache, update_self]), hcache, update_self, update_idem]

theorem freePending_cache (s : Stack) (i : Slot) :
    (freePending s i).cache = update s.cache i { s.cache i with pending := [] } :=
  drain_freePacket_cache _ s rfl

/-- The stack after `arp_init`, with any devices, routes and buffers. -/
def arpInit (net : Net) (pbufs : Nat → Pbuf) : Stack :=
  { net := net, ipId := 1
    cache := fun _ =>
      { ipAddr := 0, macAddr := [0, 0, 0, 0, 0, 0], state := .empty, expireTime := 0, retryTime := 0
        retryCount := 0, pending := [] }
    pbufs := pbufs, frames := [], left := [], overfreed := [] }

/-- A buffer with room for headers. -/
def rawPbuf (data : List UInt8) : Pbuf :=
  { before := List.replicate 64 0, data := data, after := fun _ => 0, totLen := data.length
    type := .ram, ref := 1 }

def neighbourMac : List UInt8 := [2, 0, 0, 0, 0, 9]

/-- 10.0.2.2 answers the request of 10.0.2.15. -/
def neighbourReply : Pbuf :=
  rawPbuf (arpHdr 2 neighbourMac 0x0202000A [2, 0, 0, 0, 0, 1] 0x0F02000A)

end MavArp
