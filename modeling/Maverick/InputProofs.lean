import Maverick.NetdevProofs
import Maverick.PbufProofs
import Maverick.UdpQueueProofs

/-! # Received packets — five parsers and the lengths they trust

A frame goes through `ethernet_input`, then `arp_input` or `ip_input`, and from there to
`icmp_input` or `udp_input`. Each parser is a scan of the buffer. The first four compare every
length of the packet with `len` before they use it. `udp_input` does not: it sums as many bytes as
the UDP length says, and queues all bytes the buffer has, whatever the UDP length says. -/

namespace MavInput

open MavChecksum MavPbuf MavNet MavUdp List
open MavUdpQueue (udpRecvQueueMax)

/-! ## Ethernet -/

def ethHeaderLen : Nat := 14

def ethBroadcastAddr : List UInt8 := [0xFF, 0xFF, 0xFF, 0xFF, 0xFF, 0xFF]

/-- Where `ethernet_input` sends a frame. -/
inductive Link where
  | dropped
  | ip
  | arp
  deriving DecidableEq, Repr

/-- `ethernet_input`, up to the call of the next parser. -/
def ethernetInput (dev : Netdev) : Scan Link := do
  let len ← Scan.len
  if len < ethHeaderLen then pure .dropped else do
  let dest ← Scan.bytes 0 6
  if dest ≠ dev.macAddr ∧ dest ≠ ethBroadcastAddr ∧ dev.promisc = false then pure .dropped else do
  let type ← Scan.get16 12
  let ok ← Scan.strip ethHeaderLen
  if ok = false then pure .dropped
  else if ntohs type = 0x0800 then pure .ip
  else if ntohs type = 0x0806 then pure .arp
  else pure .dropped

/-! ## ARP -/

def arpHeaderLen : Nat := 28

/-- The fields of `struct arp_hdr` that `arp_input` uses after its tests. -/
structure ArpHdr where
  opcode : UInt16
  senderMac : List UInt8
  senderIp : UInt32
  targetIp : UInt32
  deriving DecidableEq, Repr

/-- The reads of `arp_input`; `none` where it frees the packet at once. -/
def arpParse : Scan (Option ArpHdr) := do
  let len ← Scan.len
  if len < arpHeaderLen then pure none else do
  let hwType ← Scan.get16 0
  let protoType ← Scan.get16 2
  let hwLen ← Scan.get8 4
  let protoLen ← Scan.get8 5
  if ntohs hwType ≠ 1 ∨ ntohs protoType ≠ 0x0800 ∨ hwLen ≠ 6 ∨ protoLen ≠ 4 then pure none else do
  let opcode ← Scan.get16 6
  let senderMac ← Scan.bytes 8 6
  let senderIp ← Scan.get32 14
  let targetIp ← Scan.get32 24
  pure (some ⟨ntohs opcode, senderMac, senderIp, targetIp⟩)

/-! ## IP -/

def ipHeaderLen : Nat := 20

/-- What `ip_input` passes on: addresses, protocol, and how many bytes the total
    length leaves for the payload. -/
structure IpPacket where
  src : UInt32
  dst : UInt32
  protocol : UInt8
  room : Nat
  deriving DecidableEq, Repr

/-- The part of `ip_input` that cuts off the padding of the frame. -/
def ipTrim (totLen bufTotLen : Nat) : Scan Unit :=
  if totLen < bufTotLen then Scan.trim totLen else pure ()

/-- `ip_input`, up to its dispatch. -/
def ipParse (n : Net) (dev : Netdev) : Scan (Option IpPacket) := do
  let len ← Scan.len
  if len < ipHeaderLen then pure none else do
  let versionIhl ← Scan.get8 0
  if (versionIhl >>> 4) &&& 0xF ≠ 4 then pure none else do
  let hlen := (versionIhl &&& 0xF).toNat * 4
  if hlen < ipHeaderLen ∨ hlen > len then pure none else do
  let sum ← Scan.sum hlen 0
  if checksumFinish sum ≠ 0 then pure none else do
  let ipTotLen ← Scan.get16 2
  let totLen := (ntohs ipTotLen).toNat
  let bufTotLen ← Scan.totLen
  if totLen < hlen ∨ totLen > bufTotLen then pure none else do
  ipTrim totLen bufTotLen
  let dst ← Scan.get32 16
  if ipIsLocal n dst = false ∧ ipIsBroadcast dst dev = false then pure none else do
  let fragOff ← Scan.get16 6
  if ntohs fragOff &&& 0x3FFF ≠ 0 then pure none else do
  let src ← Scan.get32 12
  let protocol ← Scan.get8 9
  let ok ← Scan.strip hlen
  if ok = false then pure none else pure (some ⟨src, dst, protocol, totLen - hlen⟩)

/-! ## ICMP -/

def icmpHeaderLen : Nat := 8

/-- What `icmp_input` does with the message; a reply goes to `ip_output`. -/
inductive Icmp where
  | dropped
  | echoReply
  | printed
  deriving DecidableEq, Repr

def icmpInput : Scan Icmp := do
  let len ← Scan.len
  if len < icmpHeaderLen then pure .dropped else do
  let sum ← Scan.sum len 0
  if checksumFinish sum ≠ 0 then pure .dropped else do
  let type ← Scan.get8 0
  if type = 8 then do
    let _ ← Scan.get16 6
    -- type and code of a reply, checksum 0, and then the new checksum
    Scan.write [0, 0, 0, 0]
    let sum ← Scan.sum len 0
    Scan.write ([0, 0] ++ le16 (checksumFinish sum))
    pure .echoReply
  else if type = 0 then do
    let _ ← Scan.get16 6
    pure .printed
  else if type = 3 ∨ type = 11 then do
    let _ ← Scan.get8 1
    pure .printed
  else pure .dropped

/-! ## UDP -/

def udpHeaderLen : Nat := 8

def ipProtoIcmp : UInt8 := 1

def ipProtoUdp : UInt8 := 17

/-- The UDP length field of a segment. -/
def udpLength (p : Pbuf) : Nat := (ntohs (p.get16 4)).toNat

/-- The checksum test of `udp_input`: there is no checksum, or the sum over the
    pseudo header and the bytes of the UDP length comes out as 0. -/
def udpChecks (srcIp dstIp : UInt32) (p : Pbuf) : Prop :=
  p.get16 6 = 0 ∨
    checksumFinish (checksumPartial (p.bytes 0 (udpLength p))
      (checksumPseudoHeader srcIp dstIp ipProtoUdp (ntohs (p.get16 4)))) = 0
deriving Decidable

/-- The header part of `udp_input`: the source and the destination port. -/
def udpParse (srcIp dstIp : UInt32) : Scan (Option (UInt16 × UInt16)) := do
  let len ← Scan.len
  if len < udpHeaderLen then pure none else do
  let srcPort ← Scan.get16 0
  let dstPort ← Scan.get16 2
  let cksum ← Scan.get16 6
  if cksum ≠ 0 then do
    let totalLen ← Scan.get16 4
    let sum ← Scan.sum (ntohs totalLen).toNat
      (checksumPseudoHeader srcIp dstIp ipProtoUdp (ntohs totalLen))
    if checksumFinish sum ≠ 0 then pure none else pure (some (ntohs srcPort, ntohs dstPort))
  else pure (some (ntohs srcPort, ntohs dstPort))

/-- `udp_input`: the control block it queues on, and the datagram. `malloc` is
    the answer to its request for a wrapper. -/
def udpInput (s : Udp) (malloc : Bool) (srcIp dstIp : UInt32) : Scan (Option (Nat × QueuedPkt)) := do
  let ports ← udpParse srcIp dstIp
  match ports with
  | none => pure none
  | some (srcPort, dstPort) =>
    match findPcb s dstPort with
    | none => pure none
    | some a =>
      if (s.pcb a).recvQueue.length ≥ udpRecvQueueMax then pure none else do
      let _ ← Scan.strip udpHeaderLen
      if malloc = false then pure none else
      -- the buffer itself goes on the queue
      ⟨fun p => ⟨some (a, ⟨p.data, srcIp, srcPort⟩), p, []⟩⟩

/-! ## The whole way of a frame -/

/-- `ethernet_input` and `ip_input`, up to the dispatch on the protocol. -/
def ipStage (n : Net) (dev : Netdev) : Scan (Option IpPacket) := do
  let link ← ethernetInput dev
  match link with
  | .ip => ipParse n dev
  | _ => pure none

/-- `ethernet_input` with every parser behind it. -/
def receive (n : Net) (dev : Netdev) (s : Udp) (malloc : Bool) : Scan Unit := do
  let link ← ethernetInput dev
  match link with
  | .dropped => pure ()
  | .arp => do
      let _ ← arpParse
      pure ()
  | .ip => do
      let packet ← ipParse n dev
      match packet with
      | none => pure ()
      | some h =>
        if h.protocol = ipProtoIcmp then do
          let _ ← icmpInput
          pure ()
        else if h.protocol = ipProtoUdp then do
          let _ ← udpInput s malloc h.src h.dst
          pure ()
        else pure ()

/-- A received packet in a single `PBUF_RAM` buffer. -/
structure Received (p : Pbuf) : Prop where
  ram : p.type = .ram
  short : p.data.length < 2 ^ 16
  whole : p.totLen = p.data.length

variable {p : Pbuf}

theorem Received.len (h : Received p) : p.len = p.data.length := Pbuf.len_eq h.short

/-! ## The parsers below UDP stay in bounds -/

/-- A stripped header leaves a received packet. -/
theorem Received.strip (h : Received p) {n : Nat} (hn : 0 < n) (hle : n ≤ p.len) :
    Meets (Scan.strip n) p fun ok q => ok = true ∧ Received q ∧ q.data = p.data.drop n := by
  rw [Meets, eval_strip hn hle]
  rw [h.len] at hle
  have hshort := h.short
  refine ⟨fun a ha => ?_, rfl, ⟨h.ram, ?_, ?_⟩, rfl⟩
  · rw [log_strip] at ha
    cases ha
  · rw [length_drop]
    omega
  · show (p.totLen + 2 ^ 16 - n) % 2 ^ 16 = (p.data.drop n).length
    rw [h.whole, length_drop]
    omega

theorem Received.trim (h : Received p) {n : Nat} (hle : n ≤ p.data.length) :
    Received (p.trim n) ∧ (p.trim n).data.length = n := by
  have hlen : (p.data.take n).length = n := length_take_of_le hle
  have hshort := h.short
  refine ⟨⟨h.ram, ?_, hlen.symm⟩, hlen⟩
  show (p.data.take n).length < 2 ^ 16
  omega

/-- `ethernet_input` reads its header and leaves the rest. -/
theorem ethernetInput_meets (dev : Netdev) (h : Received p) :
    Meets (ethernetInput dev) p fun _ q => Received q := by
  have h14 : ethHeaderLen = 14 := rfl
  simp only [ethernetInput, meets_len, meets_ite, meets_pure, meets_bytes, meets_get16]
  refine ⟨fun _ => h, fun hlen => ⟨by omega, fun _ => h, fun _ => ⟨by omega, ?_⟩⟩⟩
  refine (meets_bind ..).mpr ((h.strip (by decide) (Nat.le_of_not_lt hlen)).imp ?_)
  rintro ok q ⟨rfl, hq, -⟩
  simp only [meets_ite, meets_pure]
  exact ⟨fun _ => hq, fun _ => ⟨fun _ => hq, fun _ => ⟨fun _ => hq, fun _ => hq⟩⟩⟩

theorem arpParse_meets (p : Pbuf) : Meets arpParse p fun _ _ => True := by
  have h28 : arpHeaderLen = 28 := rfl
  simp only [arpParse, meets_len, meets_ite, meets_pure, meets_bytes, meets_get8,
    meets_get16, meets_get32, implies_true, true_and, and_true]
  intro hlen
  exact ⟨by omega, by omega, by omega, by omega, fun _ => ⟨by omega, by omega, by omega, by omega⟩⟩

theorem icmpInput_meets (h : Received p) : Meets icmpInput p fun _ _ => True := by
  have hlen := h.len
  have hhdr : icmpHeaderLen = 8 := rfl
  simp only [icmpInput, meets_len, meets_ite, meets_pure, meets_sum, meets_get8,
    meets_get16, meets_write, implies_true, true_and, and_true]
  intro h8
  have hw : (p.write [0, 0, 0, 0]).len = p.len := by rw [Pbuf.len, Pbuf.length_write, Pbuf.len]
  refine ⟨by omega, fun _ => ⟨by omega, ?_, fun _ => ⟨fun _ => by omega, fun _ _ => by omega⟩⟩⟩
  -- the reply is written over the request, and its length stays
  intro _
  simp only [hw, length_append, length_le16, length_cons, length_nil]
  exact ⟨by omega, by omega, by omega, by omega⟩

theorem Received.trim_meets (h : Received p) {n : Nat} (hle : n ≤ p.totLen) :
    Meets (ipTrim n p.totLen) p fun _ q => Received q ∧ q.data.length = n := by
  rw [h.whole] at hle
  rw [ipTrim, h.whole]
  refine meets_ite.mpr ⟨fun _ => ?_, fun hlt => ?_⟩
  · exact ⟨nofun, h.trim hle⟩
  · exact (meets_pure ..).mpr ⟨h, by omega⟩

/-- `ip_input` stays in its packet, and passes on a packet as long as the total length says. -/
theorem ipParse_meets (n : Net) (dev : Netdev) (h : Received p) :
    Meets (ipParse n dev) p fun r q => Received q ∧ ∀ pk ∈ r, q.data.length = pk.room := by
  have hhdr : ipHeaderLen = 20 := rfl
  have hnone : ∀ {q : Pbuf}, Received q →
      Received q ∧ ∀ pk ∈ (none : Option IpPacket), q.data.length = pk.room :=
    fun hq => ⟨hq, by simp⟩
  simp only [ipParse, meets_len, meets_totLen, meets_ite, meets_pure, meets_sum, meets_get8,
    meets_get16]
  refine ⟨fun _ => hnone h, fun hlen => ⟨by omega, fun _ => hnone h, fun _ =>
    ⟨fun _ => hnone h, fun hh => ⟨by omega, fun _ => hnone h, fun _ =>
      ⟨by omega, fun _ => hnone h, fun ht => ?_⟩⟩⟩⟩⟩
  -- the padding goes; header and total length stay
  refine (meets_bind ..).mpr ((h.trim_meets (n := (ntohs (p.get16 2)).toNat) (by omega)).imp ?_)
  rintro _ q ⟨hq, hqlen⟩
  have hqn := hq.len
  simp only [meets_ite, meets_pure, meets_get8, meets_get16, meets_get32]
  refine ⟨by omega, fun _ => hnone hq, fun _ => ⟨by omega, fun _ => hnone hq, fun _ =>
    ⟨by omega, by omega, ?_⟩⟩⟩
  refine (meets_bind ..).mpr ((hq.strip (by omega) (by omega)).imp ?_)
  rintro ok r ⟨rfl, hr, hdata⟩
  simp only [meets_ite, meets_pure]
  refine ⟨by simp, fun _ => ⟨hr, ?_⟩⟩
  rintro pk ⟨⟩
  rw [hdata, length_drop, hqlen]

theorem ipStage_meets (n : Net) (dev : Netdev) (h : Received p) :
    Meets (ipStage n dev) p fun r q => Received q ∧ ∀ pk ∈ r, q.data.length = pk.room := by
  refine (meets_bind ..).mpr ((ethernetInput_meets dev h).imp ?_)
  intro link q hq
  cases link with
  | ip => exact ipParse_meets n dev hq
  | dropped | arp => exact (meets_pure ..).mpr ⟨hq, nofun⟩

/-! ## What UDP reads and queues -/

/-- The block that takes the datagram: the header is there, the checksum test
    passes, a block is bound to the port and has room, and there is memory. -/
def udpTaker (s : Udp) (malloc : Bool) (srcIp dstIp : UInt32) (p : Pbuf) : Option Nat :=
  if udpHeaderLen ≤ p.len ∧ udpChecks srcIp dstIp p then
    (findPcb s (ntohs (p.get16 2))).filter fun a =>
      decide ((s.pcb a).recvQueue.length < udpRecvQueueMax) && malloc
  else none

theorem eval_udpParse (srcIp dstIp : UInt32) (p : Pbuf) :
    (udpParse srcIp dstIp).eval p =
      (if udpHeaderLen ≤ p.len ∧ udpChecks srcIp dstIp p then
        some (ntohs (p.get16 0), ntohs (p.get16 2)) else none, p) := by
  simp only [udpParse, eval_len]
  by_cases hlen : p.len < udpHeaderLen
  · rw [if_pos hlen, if_neg fun hc => absurd hlen (Nat.not_lt.mpr hc.1), eval_pure]
  simp only [if_neg hlen, eval_get16, Nat.le_of_not_lt hlen, true_and]
  by_cases hck : p.get16 6 ≠ 0
  · simp only [if_pos hck, eval_get16, eval_sum]
    have hiff : udpChecks srcIp dstIp p ↔
        checksumFinish (checksumPartial (p.bytes 0 (ntohs (p.get16 4)).toNat)
          (checksumPseudoHeader srcIp dstIp ipProtoUdp (ntohs (p.get16 4)))) = 0 := by
      rw [udpChecks, udpLength, or_iff_right hck]
    by_cases hsum : udpChecks srcIp dstIp p
    · rw [if_neg (Classical.not_not.mpr (hiff.mp hsum)), if_pos hsum, eval_pure]
    · rw [if_pos (mt hiff.mpr hsum), if_neg hsum, eval_pure]
  · have hnone : udpChecks srcIp dstIp p := Or.inl (Classical.not_not.mp hck)
    rw [if_neg hck, if_pos hnone, eval_pure]

theorem inBounds_udpParse (srcIp dstIp : UInt32) (p : Pbuf) :
    InBounds (udpParse srcIp dstIp) p ↔
      (udpHeaderLen ≤ p.len → p.get16 6 ≠ 0 → udpLength p ≤ p.len) := by
  have hhdr : udpHeaderLen = 8 := rfl
  have hmeets : InBounds (udpParse srcIp dstIp) p ↔
      Meets (udpParse srcIp dstIp) p fun _ _ => True :=
    ⟨fun h => ⟨h, trivial⟩, And.left⟩
  rw [hmeets]
  simp only [udpParse, meets_len, meets_ite, meets_pure, meets_sum, meets_get16, implies_true,
    true_and, and_true, udpLength]
  constructor
  · intro h hlen hck
    have hsum := (h (Nat.not_lt.mpr hlen)).2.2.2 hck
    omega
  · intro h hlen
    refine ⟨by omega, by omega, by omega, fun hck => ⟨by omega, ?_⟩⟩
    have := h (Nat.le_of_not_lt hlen) hck
    omega

/-- **UDP INPUT**: what is queued is the rest of the buffer, on the block that takes it. -/
theorem eval_udpInput (s : Udp) (malloc : Bool) (srcIp dstIp : UInt32) (p : Pbuf) :
    ((udpInput s malloc srcIp dstIp).eval p).1 =
      (udpTaker s malloc srcIp dstIp p).map fun a =>
        (a, ⟨p.data.drop udpHeaderLen, srcIp, ntohs (p.get16 0)⟩) := by
  rw [udpInput, eval_bind, eval_udpParse, udpTaker]
  by_cases hok : udpHeaderLen ≤ p.len ∧ udpChecks srcIp dstIp p
  · simp only [if_pos hok]
    cases hf : findPcb s (ntohs (p.get16 2)) with
    | none => rfl
    | some a =>
      by_cases hroom : (s.pcb a).recvQueue.length ≥ udpRecvQueueMax
      · simp [hroom, Option.filter, Nat.not_lt.mpr hroom]
      · simp only [if_neg hroom, eval_bind, eval_strip (by decide : 0 < udpHeaderLen) hok.1]
        cases malloc with
        | false => simp [Option.filter]
        | true => simp [Option.filter, Nat.lt_of_not_le hroom, Scan.eval]
  · simp only [if_neg hok]
    rfl

theorem inBounds_udpInput (s : Udp) (malloc : Bool) (srcIp dstIp : UInt32) (p : Pbuf) :
    InBounds (udpInput s malloc srcIp dstIp) p ↔
      (udpHeaderLen ≤ p.len → p.get16 6 ≠ 0 → udpLength p ≤ p.len) := by
  rw [udpInput, inBounds_bind, inBounds_udpParse]
  refine and_iff_left ?_
  -- nothing is read after the header part
  split
  · exact (inBounds_pure ..).mpr trivial
  split
  · exact (inBounds_pure ..).mpr trivial
  split
  · exact (inBounds_pure ..).mpr trivial
  · refine (inBounds_bind ..).mpr ⟨fun a ha => ?_, ?_⟩
    · rw [log_strip] at ha
      cases ha
    · split
      · exact (inBounds_pure ..).mpr trivial
      · exact fun _ ha => absurd ha not_mem_nil

/-! ## Frames of any content -/

/-- Everything read of the frame lies in the packet, and a queued datagram is not
    longer than the UDP length and the IP total length allow. -/
def Contained (n : Net) (dev : Netdev) (s : Udp) (malloc : Bool) (p : Pbuf) : Prop :=
  InBounds (receive n dev s malloc) p ∧
    ∀ h seg, (ipStage n dev).eval p = (some h, seg) → h.protocol = ipProtoUdp →
      ∀ a pkt, ((udpInput s malloc h.src h.dst).eval seg).1 = some (a, pkt) →
        pkt.payload.length + udpHeaderLen ≤ udpLength seg ∧
          pkt.payload.length + udpHeaderLen ≤ h.room

/-- In a UDP segment with a checksum the UDP length is not more than the segment
    has, and in one that a block takes it is not less. -/
def LengthsAgree (n : Net) (dev : Netdev) (s : Udp) (malloc : Bool) (p : Pbuf) : Prop :=
  ∀ h seg, (ipStage n dev).eval p = (some h, seg) → h.protocol = ipProtoUdp →
    udpHeaderLen ≤ seg.len →
      (seg.get16 6 ≠ 0 → udpLength seg ≤ seg.len) ∧
        (udpTaker s malloc h.src h.dst seg ≠ none → seg.len ≤ udpLength seg)

/-- The part of `receive` behind `ethernet_input` and `ip_input`. -/
theorem inBounds_receive (n : Net) (dev : Netdev) (s : Udp) (malloc : Bool) (hp : Received p) :
    InBounds (receive n dev s malloc) p ↔
      ∀ h seg, (ipStage n dev).eval p = (some h, seg) → h.protocol = ipProtoUdp →
        InBounds (udpInput s malloc h.src h.dst) seg := by
  have heth := ethernetInput_meets dev hp
  rw [receive, inBounds_bind, and_iff_right heth.1]
  simp only [ipStage, eval_bind]
  have hq : Received ((ethernetInput dev).eval p).2 := heth.2
  generalize (ethernetInput dev).eval p = r at hq ⊢
  obtain ⟨link, q⟩ := r
  cases link with
  | dropped => simp
  | arp => simp [inBounds_bind, (arpParse_meets q).1]
  | ip =>
    have hip := ipParse_meets n dev hq
    rw [inBounds_bind, and_iff_right hip.1]
    have hseg : Received ((ipParse n dev).eval q).2 := hip.2.1
    generalize (ipParse n dev).eval q = r at hseg ⊢
    obtain ⟨packet, seg⟩ := r
    cases packet with
    | none => simp
    | some h =>
      have hstage : (∀ h' seg', ((some h, seg) : Option IpPacket × Pbuf) = (some h', seg') →
          h'.protocol = ipProtoUdp → InBounds (udpInput s malloc h'.src h'.dst) seg') ↔
          (h.protocol = ipProtoUdp → InBounds (udpInput s malloc h.src h.dst) seg) :=
        ⟨fun hall => hall h seg rfl, fun hone h' seg' heq => by cases heq; exact hone⟩
      refine Iff.trans ?_ hstage.symm
      show InBounds (if h.protocol = ipProtoIcmp then _ else _) seg ↔ _
      by_cases hicmp : h.protocol = ipProtoIcmp
      · have hne : h.protocol ≠ ipProtoUdp := by
          rw [hicmp]
          decide
        rw [if_pos hicmp, inBounds_bind, inBounds_pure, and_true]
        exact ⟨fun _ hu => absurd hu hne, fun _ => (icmpInput_meets hseg).1⟩
      · by_cases hudp : h.protocol = ipProtoUdp
        · rw [if_neg hicmp, if_pos hudp, inBounds_bind, inBounds_pure, and_true]
          exact ⟨fun hin _ => hin, fun hin => hin hudp⟩
        · rw [if_neg hicmp, if_neg hudp, inBounds_pure]
          exact ⟨fun _ hu => absurd hu hudp, fun _ => trivial⟩

/-- **FRAMES OF ANY CONTENT**: the parsers stay in the packet, and queue no more
    than its lengths allow, exactly if the UDP length of a UDP segment agrees
    with the segment. -/
theorem receive_contained_iff (n : Net) (dev : Netdev) (s : Udp) (malloc : Bool) (p : Pbuf)
    (hp : Received p) : Contained n dev s malloc p ↔ LengthsAgree n dev s malloc p := by
  -- a segment is as long as the total length leaves
  have hroom : ∀ h seg, (ipStage n dev).eval p = (some h, seg) →
      seg.len = seg.data.length ∧ seg.data.length = h.room := by
    intro h seg heq
    obtain ⟨-, hseg, hlen⟩ := ipStage_meets n dev hp
    rw [heq] at hseg hlen
    exact ⟨hseg.len, hlen h rfl⟩
  rw [Contained, inBounds_receive n dev s malloc hp]
  constructor
  · rintro ⟨hin, hsize⟩ h seg heq hudp hlen
    obtain ⟨hl, hr⟩ := hroom h seg heq
    refine ⟨fun hck => (inBounds_udpInput ..).mp (hin h seg heq hudp) hlen hck, fun htaker => ?_⟩
    obtain ⟨a, ha⟩ := Option.ne_none_iff_exists'.mp htaker
    have hq := (hsize h seg heq hudp a ⟨seg.data.drop udpHeaderLen, h.src, ntohs (seg.get16 0)⟩
      (by rw [eval_udpInput, ha]; rfl)).1
    rw [show (⟨seg.data.drop udpHeaderLen, h.src, ntohs (seg.get16 0)⟩ : QueuedPkt).payload =
      seg.data.drop udpHeaderLen from rfl, List.length_drop] at hq
    omega
  intro hagree
  refine ⟨fun h seg heq hudp => ?_, fun h seg heq hudp a pkt hq => ?_⟩
  · exact (inBounds_udpInput ..).mpr fun hlen hck => (hagree h seg heq hudp hlen).1 hck
  obtain ⟨hl, hr⟩ := hroom h seg heq
  rw [eval_udpInput] at hq
  obtain ⟨b, hb, hpkt⟩ := Option.map_eq_some_iff.mp hq
  have hlen : udpHeaderLen ≤ seg.len := by
    rw [udpTaker] at hb
    split at hb
    · next hok => exact hok.1
    · exact nomatch hb
  have hle := (hagree h seg heq hudp hlen).2 (by rw [hb]; exact nofun)
  have hpay : pkt.payload = seg.data.drop udpHeaderLen := by
    rw [← (Prod.mk.inj hpkt).2]
  rw [hpay, List.length_drop]
  omega

/-! ## Three frames -/

/-- A frame for the broadcast address from 1.2.3.4 to 127.0.0.1, port 2, with the
    UDP length, the UDP checksum and the payload given. -/
def udpFrame (ipLen ipCksum : UInt8) (udpLen udpCksum : List UInt8) (payload : List UInt8) : Pbuf where
  before := []
  data := ethBroadcastAddr ++ [0, 0, 0, 0, 0, 0, 0x08, 0x00] ++
    [0x45, 0, 0, ipLen, 0, 0, 0, 0, 64, 17, 247, ipCksum, 1, 2, 3, 4, 127, 0, 0, 1] ++
    [0, 1, 0, 2] ++ udpLen ++ udpCksum ++ payload
  after := fun _ => 0
  totLen := 34 + 4 + udpLen.length + udpCksum.length + payload.length
  type := .ram
  ref := 1

def noDevice : Netdev :=
  { macAddr := [], ipAddr := 0, netmask := 0, gateway := 0, up := true, loopback := false
    promisc := false, transmit := none }

def noNet : Net := { devs := [], routes := [], defaultDev := none, defaultGateway := 0 }

/-- One block, bound to port 2. -/
def onePort : Udp := (udpBind (udpNew udpInit (some 1)).2 (some 1) 0 2).2

/-- Four bytes of payload, lengths that agree, and the right checksum. -/
def soundFrame : Pbuf := udpFrame 32 198 [0, 12] [84, 144] [10, 20, 30, 40]

theorem soundFrame_contained :
    LengthsAgree noNet noDevice onePort true soundFrame ∧
      Contained noNet noDevice onePort true soundFrame ∧
      ((ipStage noNet noDevice).eval soundFrame).1 = some ⟨67305985, 16777343, 17, 12⟩ := by
  have hpacket : ((ipStage noNet noDevice).eval soundFrame).1 =
      some ⟨67305985, 16777343, 17, 12⟩ := by decide +kernel
  have hlen : ((ipStage noNet noDevice).eval soundFrame).2.len = 12 ∧
      udpLength ((ipStage noNet noDevice).eval soundFrame).2 = 12 := by decide +kernel
  have hagree : LengthsAgree noNet noDevice onePort true soundFrame := by
    intro h seg heq _ _
    have hseg : ((ipStage noNet noDevice).eval soundFrame).2 = seg := congrArg Prod.snd heq
    rw [hseg] at hlen
    exact ⟨fun _ => by omega, fun _ => by omega⟩
  exact ⟨hagree, (receive_contained_iff noNet noDevice onePort true soundFrame
    ⟨rfl, by decide, rfl⟩).mpr hagree, hpacket⟩

/-- No payload, but a UDP length of 10 and a checksum. -/
def longLength : Pbuf := udpFrame 28 202 [0, 10] [0x12, 0x34] []

/-- Four bytes of payload, but a UDP length of 8, and no checksum. -/
def shortLength : Pbuf := udpFrame 32 198 [0, 8] [0, 0] [10, 20, 30, 40]

/-- **UDP LENGTH UNCHECKED**: the first frame makes `udp_input` sum 10 bytes of
    a segment of 8; of the second one it queues four bytes where the UDP length
    leaves room for none. -/
theorem udpInput_trusts_length :
    (Received longLength ∧ ¬ Contained noNet noDevice onePort true longLength) ∧
      Received shortLength ∧ ¬ Contained noNet noDevice onePort true shortLength := by
  refine ⟨⟨⟨rfl, by decide, rfl⟩, fun h => ?_⟩, ⟨rfl, by decide, rfl⟩, fun h => ?_⟩
  · have hread : (⟨0, 10, 8⟩ : Access) ∈
        ((receive noNet noDevice onePort true).run longLength).log := by decide +kernel
    exact absurd (h.1 _ hread) (by decide)
  have hstage : ((ipStage noNet noDevice).eval shortLength).1 =
      some ⟨67305985, 16777343, 17, 12⟩ := by decide +kernel
  have hqueued : ((udpInput onePort true 67305985 16777343).eval
      ((ipStage noNet noDevice).eval shortLength).2).1 =
      some (1, ⟨[10, 20, 30, 40], 67305985, 1⟩) := by decide +kernel
  have hsize := (h.2 ⟨67305985, 16777343, 17, 12⟩ ((ipStage noNet noDevice).eval shortLength).2
    (Prod.ext hstage rfl) rfl 1 _ hqueued).1
  exact absurd hsize (by decide)

end MavInput
