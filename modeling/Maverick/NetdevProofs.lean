import Maverick.ChecksumProofs

/-! # Network devices and routes

Devices are numbered by their place on `netdev_list`. `route_lookup` tries loopback, the host's own
addresses, the routing table (the matching route with the largest mask, the last one among equals),
the default route and at last the first device that is up. -/

namespace MavNet

open MavChecksum

/-- `struct netdev`, as far as packets are concerned. `transmit` is the driver's
    function: absent, or what it answers. -/
structure Netdev where
  macAddr : List UInt8
  ipAddr : UInt32
  netmask : UInt32
  gateway : UInt32
  up : Bool
  loopback : Bool
  promisc : Bool
  transmit : Option Int
  deriving DecidableEq, Repr

/-- `struct route_entry`. -/
structure RouteEntry where
  dst : UInt32
  mask : UInt32
  gateway : UInt32
  dev : Nat
  flags : UInt32
  valid : Bool
  deriving DecidableEq, Repr

/-- The devices, `routes` and the default route. -/
structure Net where
  devs : List Netdev
  routes : List RouteEntry
  defaultDev : Option Nat
  defaultGateway : UInt32
  deriving DecidableEq, Repr

/-- `struct route_result`. -/
structure RouteResult where
  dev : Nat
  gateway : UInt32
  flags : UInt32
  deriving DecidableEq, Repr

def routeFlagGateway : UInt32 := 0x01

def routeFlagLocal : UInt32 := 0x04

def netdevFindByIp (n : Net) (ip : UInt32) : Option Nat := n.devs.findIdx? fun d => d.ipAddr == ip

def netdevGetDefault (n : Net) : Option Nat := n.devs.findIdx? fun d => !d.loopback && d.up

def netdevGetLoopback (n : Net) : Option Nat := n.devs.findIdx? fun d => d.loopback

/-- The first byte of an address is 127. -/
def isLoopbackAddr (ip : UInt32) : Bool := ntohl ip >>> 24 == 127

def ipIsLocal (n : Net) (ip : UInt32) : Bool := isLoopbackAddr ip || (netdevFindByIp n ip).isSome

def ipIsBroadcast (ip : UInt32) (dev : Netdev) : Bool :=
  ip == 0xFFFFFFFF || (dev.netmask != 0 && ip == (dev.ipAddr ||| ~~~dev.netmask))

/-- The loop of `route_lookup` over the table. -/
def bestMatch (dst : UInt32) : List RouteEntry → UInt32 → Option RouteEntry → Option RouteEntry
  | [], _, best => best
  | r :: rs, mask, best =>
    if r.valid = true ∧ dst &&& r.mask = r.dst ∧ r.mask ≥ mask then bestMatch dst rs r.mask (some r)
    else bestMatch dst rs mask best

/-- The device at a place of the list. Lookups give places on the list, and
    `dev` of a route is a device that was registered. -/
def Net.dev (n : Net) (d : Nat) : Option Netdev := n.devs[d]?

/-- `(a & mask) == (b & mask)`: the two addresses are on one subnet. -/
def sameSubnet (mask a b : UInt32) : Bool := a &&& mask == b &&& mask

/-- `route_lookup`; `none` is its answer -1. -/
def routeLookup (n : Net) (dst : UInt32) : Option RouteResult :=
  if isLoopbackAddr dst then
    (netdevGetLoopback n).map fun d => ⟨d, 0, routeFlagLocal⟩
  else
    match netdevFindByIp n dst with
    | some d => some ⟨d, 0, routeFlagLocal⟩
    | none =>
      match bestMatch dst n.routes 0 none with
      | some r => some ⟨r.dev, r.gateway, r.flags⟩
      | none =>
        match n.defaultDev with
        | some d =>
          some ⟨d, n.defaultGateway, if n.defaultGateway ≠ 0 then routeFlagGateway else 0⟩
        | none =>
          match netdevGetDefault n with
          | none => none
          | some d =>
            match n.dev d with
            | none => none
            | some dev =>
              if sameSubnet dev.netmask dst dev.ipAddr then some ⟨d, 0, 0⟩
              else if dev.gateway ≠ 0 then some ⟨d, dev.gateway, routeFlagGateway⟩
              else some ⟨d, 0, 0⟩

/-- The device and the next hop that `ip_output` chooses. -/
def nextHop (n : Net) (dev : Option Nat) (dst : UInt32) : Option (Nat × UInt32) :=
  match dev with
  | none =>
    (routeLookup n dst).map fun r =>
      (r.dev, if r.flags &&& routeFlagGateway ≠ 0 then r.gateway else dst)
  | some d =>
    (n.dev d).map fun dev =>
      (d, if sameSubnet dev.netmask dst dev.ipAddr then dst
          else if dev.gateway ≠ 0 then dev.gateway else dst)

end MavNet
