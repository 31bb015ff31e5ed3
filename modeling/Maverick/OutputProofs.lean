import Maverick.InputProofs

/-! # Sending a datagram — two functions that choose one source address

`udp_output` writes the UDP header, with a checksum over a pseudo header, and hands the packet to
`ip_output`, which writes the IP header. The source address is in both: `udp_output` takes the
block's local address, and where that is 0 `ip_output` puts in the address of the device it sends
from.

The receiver sums over the address in the IP header. So a datagram from a block without an address
passes only if the halves of the device's address add up to a multiple of 65535. -/

namespace MavOutput

open MavChecksum MavPbuf MavNet MavUdp MavInput List
open MavUdpQueue (udpRecvQueueMax)

/-! ## The two headers -/

/-- `struct udp_hdr` in memory; the fields are in network order. -/
def udpHdr (srcPort dstPort length cksum : UInt16) : List UInt8 :=
  le16 srcPort ++ le16 dstPort ++ le16 length ++ le16 cksum

/-- The source port and address that `udp_output` takes from the block. -/
def srcPortOf (pcb : Option Pcb) : UInt16 := (pcb.map Pcb.localPort).getD 0

def srcIpOf (pcb : Option Pcb) : UInt32 := (pcb.map Pcb.localIp).getD 0

/-- `udp_output`, up to its call of `ip_output`; `none` where there is no room for the header. -/
def udpFill (pcb : Option Pcb) (p : Pbuf) (dstIp : UInt32) (dstPort : UInt16) : Option Pbuf :=
  let totalLen := UInt16.ofNat (udpHeaderLen + p.len)
  (pbufHeader p (-(udpHeaderLen : Int))).map fun q =>
    let hdr := udpHdr (htons (srcPortOf pcb)) (htons dstPort) (htons totalLen)
    let q := q.write (hdr 0)
    let sum := checksumPartial (q.bytes 0 q.len)
      (checksumPseudoHeader (srcIpOf pcb) dstIp ipProtoUdp totalLen)
    let cksum := checksumFinish sum
    q.write (hdr (if cksum = 0 then 0xFFFF else cksum))

/-- `struct ip_hdr` in memory, as `ip_output` fills it. -/
def ipHdr (totLen id : UInt16) (ttl protocol : UInt8) (cksum : UInt16) (src dst : UInt32) :
    List UInt8 :=
  [0x45, 0] ++ le16 totLen ++ le16 id ++ le16 0 ++ [ttl, protocol] ++ le16 cksum ++ le32 src ++
    le32 dst

/-- The part of `ip_output` that writes the header; `id` is the counter. -/
def ipFill (p : Pbuf) (id : UInt16) (src dst : UInt32) (protocol ttl : UInt8) : Option Pbuf :=
  (pbufHeader p (-(ipHeaderLen : Int))).map fun q =>
    let hdr := fun cksum =>
      ipHdr (htons (UInt16.ofNat q.totLen)) (htons id) ttl protocol cksum src dst
    q.write (hdr (checksum (hdr 0)))

def ipDefaultTtl : UInt8 := 64

/-- `ip_output` up to the choice of a way out: the device, the next hop and the
    packet; `none` where it drops the packet. -/
def ipPrepare (n : Net) (id : UInt16) (dev : Option Nat) (p : Pbuf) (src dst : UInt32)
    (protocol ttl : UInt8) : Option (Nat × UInt32 × Pbuf) :=
  match nextHop n dev dst with
  | none => none
  | some (d, hop) =>
    match n.dev d with
    | none => none
    | some device =>
      (ipFill p id (if src = 0 then device.ipAddr else src) dst protocol
        (if ttl = 0 then ipDefaultTtl else ttl)).map fun q => (d, hop, q)

/-! ## Headers written and read back -/

@[simp] theorem length_udpHdr (srcPort dstPort length cksum : UInt16) :
    (udpHdr srcPort dstPort length cksum).length = udpHeaderLen := rfl

@[simp] theorem length_ipHdr (totLen id : UInt16) (ttl protocol : UInt8) (cksum : UInt16)
    (src dst : UInt32) : (ipHdr totLen id ttl protocol cksum src dst).length = ipHeaderLen := rfl

variable {p : Pbuf} {i : Nat} {rest payload : List UInt8} {dst src : UInt32} {id : UInt16}
  {protocol ttl : UInt8}

theorem le_of_header {q : Pbuf} {n : Nat} (hpos : 0 < n) (h : pbufHeader p (-(n : Int)) = some q) :
    n ≤ q.data.length := by
  obtain ⟨-, hroom, rfl⟩ := pbufHeader_neg hpos h
  rw [length_append, length_drop]
  omega

/-- A header written over the room that `pbuf_header` made. -/
theorem data_of_header {q : Pbuf} (hdr : List UInt8) (hpos : 0 < hdr.length)
    (h : pbufHeader p (-(hdr.length : Int)) = some q) : (q.write hdr).data = hdr ++ p.data := by
  rw [Pbuf.write_of_le (le_of_header hpos h)]
  obtain ⟨-, hroom, rfl⟩ := pbufHeader_neg hpos h
  have hcut : (p.before.drop (p.before.length - hdr.length)).length = hdr.length := by
    rw [length_drop]
    omega
  show hdr ++ (p.before.drop (p.before.length - hdr.length) ++ p.data).drop hdr.length = _
  rw [drop_append_of_le_length (Nat.le_of_eq hcut.symm), drop_of_length_le
    (Nat.le_of_eq hcut), nil_append]

theorem byte_of_lt (h : i < p.data.length) : p.byte i = p.data[i] := by
  rw [Pbuf.byte, getD_eq_getElem _ _ h]

/-- All bytes of a packet. -/
theorem bytes_data (p : Pbuf) : p.bytes 0 p.data.length = p.data := by
  refine ext_getElem (by simp [Pbuf.bytes]) fun i h1 h2 => ?_
  simp only [Pbuf.bytes, getElem_map, getElem_range, Nat.zero_add]
  exact byte_of_lt h2

theorem byte_append {front field : List UInt8}
    (h : p.data = front ++ (field ++ rest)) (hi : front.length = i) {k : Nat} (hk : k < field.length) :
    p.byte (i + k) = field[k] := by
  rw [Pbuf.byte, h, ← hi, getD_append_right _ _ _ _ (Nat.le_add_right _ _),
    Nat.add_sub_cancel_left, getD_append _ _ _ _ hk, getD_eq_getElem _ _ hk]

/-- A field behind the first `i` bytes of a packet. -/
theorem get16_append (front rest : List UInt8) {v : UInt16}
    (h : p.data = front ++ (le16 v ++ rest)) (hi : front.length = i) : p.get16 i = v := by
  have h0 : p.byte i = v.toUInt8 := byte_append h hi (k := 0) Nat.two_pos
  have h1 : p.byte (i + 1) = (v >>> 8).toUInt8 := byte_append h hi (k := 1) Nat.one_lt_two
  rw [Pbuf.get16, h0, h1, ofLe16_le16]

theorem get32_append (front rest : List UInt8) {v : UInt32}
    (h : p.data = front ++ (le32 v ++ rest)) (hi : front.length = i) : p.get32 i = v := by
  have h0 : p.byte i = v.toUInt8 := byte_append h hi (k := 0) (by rw [length_le32]; decide)
  have h1 : p.byte (i + 1) = (v >>> 8).toUInt8 := byte_append h hi (k := 1) (by rw [length_le32]; decide)
  have h2 : p.byte (i + 2) = (v >>> 16).toUInt8 := byte_append h hi (k := 2) (by rw [length_le32]; decide)
  have h3 : p.byte (i + 3) = (v >>> 24).toUInt8 := byte_append h hi (k := 3) (by rw [length_le32]; decide)
  rw [Pbuf.get32, h0, h1, h2, h3, ofLe32_le32]

theorem drop_hdr {hdr : List UInt8} {n : Nat} (h : hdr.length = n) :
    (hdr ++ rest).drop n = rest := by
  rw [← h, drop_left]

/-! ## The sums of the two sides -/

theorem wordSum_udpHdr (srcPort dstPort length cksum : UInt16) (payload : List UInt8) :
    wordSum (udpHdr srcPort dstPort length cksum ++ payload) =
      (ntohs srcPort).toNat + (ntohs dstPort).toNat + (ntohs length).toNat + (ntohs cksum).toNat +
        wordSum payload := by
  simp only [udpHdr, append_assoc, wordSum_le16]
  omega

/-- The words of a datagram and its pseudo header without the checksum. -/
def datagramSum (srcIp dstIp : UInt32) (srcPort dstPort : UInt16) (payload : List UInt8) : Nat :=
  (addrHalves srcIp).toNat + (addrHalves dstIp).toNat + 17 + (udpHeaderLen + payload.length) +
    (srcPort.toNat + dstPort.toNat + (udpHeaderLen + payload.length) + wordSum payload)

/-- Neither side overflows 32 bits. -/
theorem datagramSum_lt (srcIp dstIp : UInt32) (srcPort dstPort : UInt16)
    (h : payload.length ≤ 65507) :
    datagramSum srcIp dstIp srcPort dstPort payload + 65535 < 2 ^ 32 := by
  have hs := addrHalves_lt srcIp
  have hd := addrHalves_lt dstIp
  have hsp := srcPort.toNat_lt
  have hdp := dstPort.toNat_lt
  have hw := wordSum_le payload
  have hhdr : udpHeaderLen = 8 := rfl
  rw [datagramSum]
  omega

/-- The length field of a datagram with a payload that fits. -/
theorem toNat_totalLen (h : payload.length ≤ 65507) :
    (UInt16.ofNat (udpHeaderLen + payload.length)).toNat = udpHeaderLen + payload.length := by
  have hhdr : udpHeaderLen = 8 := rfl
  rw [UInt16.toNat_ofNat']
  omega

/-- The 32 bit sum over pseudo header and datagram. -/
theorem toNat_sum (srcIp dstIp : UInt32) (srcPort dstPort cksum : UInt16)
    (h : payload.length ≤ 65507) :
    (checksumPartial
        (udpHdr (htons srcPort) (htons dstPort) (htons (UInt16.ofNat (udpHeaderLen + payload.length)))
          cksum ++ payload)
        (checksumPseudoHeader srcIp dstIp ipProtoUdp
          (UInt16.ofNat (udpHeaderLen + payload.length)))).toNat =
      datagramSum srcIp dstIp srcPort dstPort payload + (ntohs cksum).toNat := by
  have hlt := datagramSum_lt srcIp dstIp srcPort dstPort h
  have hck := (ntohs cksum).toNat_lt
  rw [toNat_checksumPartial, toNat_checksumPseudoHeader, wordSum_udpHdr, ntohs_htons, ntohs_htons,
    ntohs_htons, toNat_totalLen h, show ipProtoUdp.toNat = 17 from rfl]
  rw [datagramSum] at hlt ⊢
  omega

theorem write_write {bs bs' : List UInt8} (h : bs.length = bs'.length)
    (hle : bs.length ≤ p.data.length) : (p.write bs).write bs' = p.write bs' := by
  rw [Pbuf.write_of_le (by rw [Pbuf.length_write]; exact h ▸ hle), Pbuf.write_of_le hle,
    Pbuf.write_of_le (h ▸ hle)]
  dsimp only
  rw [← h, drop_left]

/-- **SENT DATAGRAM**: header and payload, with a checksum other than 0 that
    completes the sum over the sender's idea of the addresses. -/
theorem udpFill_data {pcb : Option Pcb} {seg : Pbuf} {dstIp : UInt32} {dstPort : UInt16}
    (hlen : p.data.length ≤ 65507) (h : udpFill pcb p dstIp dstPort = some seg) :
    ∃ cksum : UInt16, cksum ≠ 0 ∧
      seg.data = udpHdr (htons (srcPortOf pcb)) (htons dstPort)
        (htons (UInt16.ofNat (udpHeaderLen + p.data.length))) cksum ++ p.data ∧
      (datagramSum (srcIpOf pcb) dstIp (srcPortOf pcb) dstPort p.data + (ntohs cksum).toNat) % 65535
        = 0 := by
  obtain ⟨q, hq, rfl⟩ := Option.map_eq_some_iff.mp h
  have hplen : p.len = p.data.length := Pbuf.len_eq (by omega)
  rw [hplen]
  generalize hhdr : udpHdr (htons (srcPortOf pcb)) (htons dstPort)
    (htons (UInt16.ofNat (udpHeaderLen + p.data.length))) = hdr
  have hlenhdr : ∀ c, (hdr c).length = udpHeaderLen := fun c => by rw [← hhdr]; rfl
  have hdata : ∀ c, (q.write (hdr c)).data = hdr c ++ p.data := fun c =>
    data_of_header _ (by rw [hlenhdr]; decide) (by rw [hlenhdr]; exact hq)
  -- the bytes under the checksum are the whole datagram
  have hbytes : (q.write (hdr 0)).bytes 0 (q.write (hdr 0)).len = hdr 0 ++ p.data := by
    have hshort : (q.write (hdr 0)).data.length < 2 ^ 16 := by
      rw [hdata, length_append, hlenhdr, show udpHeaderLen = 8 from rfl]
      omega
    rw [Pbuf.len_eq hshort, bytes_data, hdata]
  dsimp only
  rw [hbytes, write_write (by rw [hlenhdr, hlenhdr])
    (by rw [hlenhdr]; exact le_of_header (by decide) hq)]
  have hsum := toNat_sum (srcIpOf pcb) dstIp (srcPortOf pcb) dstPort 0 hlen
  rw [hhdr, show (ntohs 0).toNat = 0 from rfl, Nat.add_zero] at hsum
  generalize checksumPartial (hdr 0 ++ p.data) (checksumPseudoHeader (srcIpOf pcb) dstIp ipProtoUdp
    (UInt16.ofNat (udpHeaderLen + p.data.length))) = sum at hsum
  refine ⟨if checksumFinish sum = 0 then 0xFFFF else checksumFinish sum, ?_, hdata _, ?_⟩
  · split
    · decide
    · assumption
  obtain ⟨hmod, -⟩ := foldLoop_mod 2 sum
  have hfold := foldLoop_lt sum
  have hfin := toNat_checksumFinish sum
  split
  · rename_i hz
    rw [show (ntohs 0xFFFF).toNat = 65535 from rfl]
    rw [hz, show (ntohs 0).toNat = 0 from rfl] at hfin
    omega
  · rw [hfin]
    omega

/-- **RECEIVED DATAGRAM**: the test passes exactly if the checksum completes the
    sum over the addresses the receiver is given. -/
theorem udpChecks_iff {srcIp dstIp : UInt32} {srcPort dstPort cksum : UInt16}
    {r : Pbuf} (hlen : payload.length ≤ 65507) (hck : cksum ≠ 0)
    (hr : r.data = udpHdr (htons srcPort) (htons dstPort)
      (htons (UInt16.ofNat (udpHeaderLen + payload.length))) cksum ++ payload) :
    udpChecks srcIp dstIp r ↔
      (datagramSum srcIp dstIp srcPort dstPort payload + (ntohs cksum).toNat) % 65535 = 0 := by
  rw [udpHdr] at hr
  have h6 : r.get16 6 = cksum := get16_append _ payload (by rw [hr, append_assoc]) rfl
  have h4 : r.get16 4 = htons (UInt16.ofNat (udpHeaderLen + payload.length)) :=
    get16_append _ (le16 cksum ++ payload) (by rw [hr, append_assoc, append_assoc]) rfl
  rw [← udpHdr] at hr
  have hbytes : r.bytes 0 (udpHeaderLen + payload.length) = r.data := by
    rw [← bytes_data r]
    rw [show r.data.length = udpHeaderLen + payload.length by
      rw [hr, length_append, length_udpHdr]]
  rw [udpChecks, udpLength, h6, or_iff_right hck, h4, ntohs_htons, toNat_totalLen hlen, hbytes, hr,
    checksumFinish_eq_zero, toNat_sum _ _ _ _ _ hlen]
  refine and_iff_left ?_
  rw [datagramSum]
  omega

/-! ## The round trip -/

/-- The addresses in a packet with an IP header. -/
theorem get32_ipHdr {totLen : UInt16} {cksum : UInt16}
    (h : p.data = ipHdr totLen id ttl protocol cksum src dst ++ rest) :
    p.get32 12 = src ∧ p.get32 16 = dst := by
  rw [ipHdr] at h
  constructor
  · exact get32_append _ (le32 dst ++ rest) (by rw [h, append_assoc, append_assoc]) rfl
  · exact get32_append _ rest (by rw [h, append_assoc]) rfl

theorem ipFill_data {q : Pbuf} (h : ipFill p id src dst protocol ttl = some q) :
    ∃ totLen cksum, q.data = ipHdr totLen (htons id) ttl protocol cksum src dst ++ p.data := by
  obtain ⟨room, hroom, rfl⟩ := Option.map_eq_some_iff.mp h
  exact ⟨_, _, data_of_header _ (by rw [length_ipHdr]; decide) (by rw [length_ipHdr]; exact hroom)⟩

theorem ipPrepare_some {n : Net} {dev : Option Nat} {out : Pbuf} {d : Nat} {hop : UInt32}
    (h : ipPrepare n id dev p src dst protocol ttl = some (d, hop, out)) :
    ∃ device, n.dev d = some device ∧ ipFill p id (if src = 0 then device.ipAddr else src) dst
      protocol (if ttl = 0 then ipDefaultTtl else ttl) = some out := by
  rw [ipPrepare] at h
  split at h
  · exact nomatch h
  split at h
  · exact nomatch h
  · next device hdev =>
      obtain ⟨q, hq, heq⟩ := Option.map_eq_some_iff.mp h
      obtain ⟨rfl, -, rfl⟩ : _ ∧ _ ∧ q = out := by simpa only [Prod.mk.injEq] using heq
      exact ⟨device, hdev, hq⟩

/-- What `ip_output` puts before the packet: the source address it was given, or the device's. -/
theorem ipPrepare_data {n : Net} {dev : Option Nat} {out : Pbuf} {d : Nat} {hop : UInt32}
    (h : ipPrepare n id dev p src dst protocol ttl = some (d, hop, out)) :
    ∃ device, n.dev d = some device ∧ out.data.drop ipHeaderLen = p.data ∧
      out.get32 12 = (if src = 0 then device.ipAddr else src) ∧ out.get32 16 = dst := by
  obtain ⟨device, hdev, hfill⟩ := ipPrepare_some h
  obtain ⟨totLen, cksum, hdata⟩ := ipFill_data hfill
  refine ⟨device, hdev, ?_, get32_ipHdr hdata⟩
  rw [hdata, drop_hdr (length_ipHdr ..)]

theorem addrHalves_zero : (addrHalves 0).toNat = 0 := rfl

/-- **ROUND TRIP**: a datagram that was sent passes the receiver's test and is
    queued as it was, with the sender's address and port, exactly if the block
    has room, there is memory, and the sender's block has an address or the
    halves of the device's address add up to a multiple of 65535. -/
theorem udp_round_trip_iff (n : Net) (id : UInt16) (pcb : Option Pcb) (p seg out r : Pbuf)
    (dstIp : UInt32) (dstPort : UInt16) (d : Nat) (hop : UInt32) (s : Udp) (malloc : Bool) (a : Nat)
    (hlen : p.data.length ≤ 65507)
    (hudp : udpFill pcb p dstIp dstPort = some seg)
    (hip : ipPrepare n id none seg (srcIpOf pcb) dstIp ipProtoUdp 0 = some (d, hop, out))
    (hr : r.data = out.data.drop ipHeaderLen)
    (hbound : findPcb s dstPort = some a) :
    (udpChecks (out.get32 12) (out.get32 16) r ∧
        ((udpInput s malloc (out.get32 12) (out.get32 16)).eval r).1 =
          some (a, ⟨p.data, out.get32 12, srcPortOf pcb⟩)) ↔
      ((s.pcb a).recvQueue.length < udpRecvQueueMax ∧ malloc = true) ∧
        (srcIpOf pcb ≠ 0 ∨
          ∃ device, n.dev d = some device ∧ (addrHalves device.ipAddr).toNat % 65535 = 0) := by
  obtain ⟨cksum, hck, hseg, hsum⟩ := udpFill_data hlen hudp
  obtain ⟨device, hdev, hout, hsrc, hdst⟩ := ipPrepare_data hip
  rw [hout, hseg] at hr
  have hhdr : udpHeaderLen = 8 := rfl
  have hrlen : r.len = udpHeaderLen + p.data.length := by
    have hlength : r.data.length = udpHeaderLen + p.data.length := by
      rw [hr, List.length_append, length_udpHdr]
    rw [Pbuf.len_eq (by omega), hlength]
  have hsp : r.get16 0 = htons (srcPortOf pcb) :=
    get16_append [] _ (by rw [hr, udpHdr, List.append_assoc, List.append_assoc, List.append_assoc,
      List.nil_append]) rfl
  have hdp : r.get16 2 = htons dstPort :=
    get16_append _ _ (by rw [hr, udpHdr, List.append_assoc, List.append_assoc, List.append_assoc]) rfl
  -- the test compares the two source addresses modulo 65535
  have htest : udpChecks (out.get32 12) (out.get32 16) r ↔
      (srcIpOf pcb ≠ 0 ∨
        ∃ device, n.dev d = some device ∧ (addrHalves device.ipAddr).toNat % 65535 = 0) := by
    rw [udpChecks_iff hlen hck hr, hsrc, hdst]
    have hex : (∃ device, n.dev d = some device ∧ (addrHalves device.ipAddr).toNat % 65535 = 0) ↔
        (addrHalves device.ipAddr).toNat % 65535 = 0 := by
      rw [hdev]
      exact ⟨fun ⟨_, heq, h0⟩ => Option.some.inj heq ▸ h0, fun h0 => ⟨device, rfl, h0⟩⟩
    rw [hex]
    split
    · rename_i hz
      rw [hz, datagramSum, addrHalves_zero] at hsum
      rw [datagramSum]
      constructor
      · intro h
        exact Or.inr (by omega)
      · intro h
        have := h.resolve_left (fun hne => hne hz)
        omega
    · rename_i hz
      exact ⟨fun _ => Or.inl hz, fun _ => hsum⟩
  have hdrop : r.data.drop udpHeaderLen = p.data := by
    rw [hr, drop_hdr (length_udpHdr ..)]
  rw [eval_udpInput, udpTaker, hdp, ntohs_htons, hbound, hsp, ntohs_htons, hdrop, ← htest]
  by_cases hchecks : udpChecks (out.get32 12) (out.get32 16) r
  · rw [if_pos ⟨by omega, hchecks⟩]
    simp [hchecks, Option.filter]
  · simp [hchecks]

/-! ## Two datagrams -/

/-- A buffer for one byte of payload, with the room that `PBUF_TRANSPORT` leaves for headers. -/
def oneByte : Pbuf :=
  { before := List.replicate 64 0, data := [42], after := fun _ => 0, totLen := 1, type := .ram
    ref := 1 }

/-- One device with address 10.0.2.15. -/
def hostNet : Net :=
  { devs := [{ macAddr := [2, 0, 0, 0, 0, 1], ipAddr := 0x0F02000A, netmask := 0x00FFFFFF
               gateway := 0, up := true, loopback := false, promisc := false, transmit := some 0 }]
    routes := [], defaultDev := none, defaultGateway := 0 }

/-- A block bound to the device's address. -/
def addressed : Pcb := { freshPcb with localIp := 0x0F02000A, localPort := 7, bound := true }

/-- The UDP segment in a packet, as `ip_input` passes it on. -/
def segmentOf (out : Pbuf) : Pbuf := { out with data := out.data.drop ipHeaderLen }

/-- From the addressed block to port 2 of 10.0.2.2. -/
theorem addressed_round_trip :
    ∃ seg d hop out, udpFill (some addressed) oneByte 0x0202000A 2 = some seg ∧
      ipPrepare hostNet 1 none seg 0x0F02000A 0x0202000A ipProtoUdp 0 = some (d, hop, out) ∧
      udpChecks (out.get32 12) (out.get32 16) (segmentOf out) ∧
      ((udpInput onePort true (out.get32 12) (out.get32 16)).eval (segmentOf out)).1 =
        some (1, ⟨[42], out.get32 12, 7⟩) := by
  have hsent : ((udpFill (some addressed) oneByte 0x0202000A 2).bind fun seg =>
      ipPrepare hostNet 1 none seg 0x0F02000A 0x0202000A ipProtoUdp 0).isSome = true := by
    decide +kernel
  obtain ⟨⟨d, hop, out⟩, hx⟩ := Option.isSome_iff_exists.mp hsent
  obtain ⟨seg, hseg, hout⟩ := Option.bind_eq_some_iff.mp hx
  obtain ⟨hchecks, hqueued⟩ := (udp_round_trip_iff hostNet 1 (some addressed) oneByte seg out
    (segmentOf out) 0x0202000A 2 d hop onePort true 1 (by decide) hseg hout rfl (by decide)).mpr
    ⟨⟨by decide, rfl⟩, Or.inl (by decide)⟩
  exact ⟨seg, d, hop, out, hseg, hout, hchecks, hqueued⟩

/-- **LOST DATAGRAM**: a block that was never bound sends from 10.0.2.15; the
    checksum was made for the address 0, and the receiver, whose block is bound
    and has room, drops the datagram. -/
theorem unaddressed_datagram_lost :
    ∃ seg d hop out, udpFill (some freshPcb) oneByte 0x0202000A 2 = some seg ∧
      ipPrepare hostNet 1 none seg 0 0x0202000A ipProtoUdp 0 = some (d, hop, out) ∧
      out.get32 12 = 0x0F02000A ∧ findPcb onePort 2 = some 1 ∧
      ¬ udpChecks (out.get32 12) (out.get32 16) (segmentOf out) ∧
      ((udpInput onePort true (out.get32 12) (out.get32 16)).eval (segmentOf out)).1 = none := by
  have hobs : ((udpFill (some freshPcb) oneByte 0x0202000A 2).bind fun seg =>
      (ipPrepare hostNet 1 none seg 0 0x0202000A ipProtoUdp 0).map fun x =>
        (x.2.2.get32 12, decide (udpChecks (x.2.2.get32 12) (x.2.2.get32 16) (segmentOf x.2.2)),
          ((udpInput onePort true (x.2.2.get32 12) (x.2.2.get32 16)).eval (segmentOf x.2.2)).1)) =
      some (0x0F02000A, false, none) := by decide +kernel
  obtain ⟨seg, hseg, hmap⟩ := Option.bind_eq_some_iff.mp hobs
  obtain ⟨⟨d, hop, out⟩, hout, hx⟩ := Option.map_eq_some_iff.mp hmap
  simp only [Prod.mk.injEq, decide_eq_false_iff_not] at hx
  exact ⟨seg, d, hop, out, hseg, hout, hx.1, by decide, hx.2.1, hx.2.2⟩

end MavOutput
