import Maverick.ArpProofs

/-! # Length fields

Lengths pass from `size_t` to the 16-bit `len` of a buffer, and every layer adds its header to them,
down to `ethernet_output`. Nothing on the way checks the sum, so the fields of a packet that is too
long say less than there is, and an echo request that does not fit is written behind a buffer that
is too short. -/

namespace MavLength

open MavChecksum MavPbuf MavNet MavUdp MavInput MavOutput MavArp List

variable {n : Net} {c dstPort : UInt16} {dev : Option Nat} {p out seg : Pbuf} {src dst : UInt32}
  {protocol ttl : UInt8} {d : Nat} {hop : UInt32} {pcb : Option Pcb}

/-- The packet still ends where it did: `q` has its header in the space before. -/
def Inside (p q : Pbuf) : Prop :=
  q.before.length + q.data.length = p.before.length + p.data.length

/-- What a header of `n` bytes in front of a packet does to its lengths. -/
structure Added (n : Nat) (p q : Pbuf) : Prop where
  inside : Inside p q
  length : q.data.length = p.data.length + n
  totLen : q.totLen = (p.totLen + n) % 2 ^ 16

variable {device : Netdev} {mac : List UInt8} {frame : Pbuf}

end MavLength
