import Xdpacket.Model.World

namespace Xdpacket

/-- `enum checksum_err` -/
inductive ChecksumErr where
  | ok
  | inval
  | unsupported
  | malformed
deriving DecidableEq, Repr

/-- Work on the bytes of one frame. -/
abbrev FrameM := StateT Bytes (Except Fault)

def frameLoad (i : Nat) : FrameM UInt8 := fun bs =>
  match bs[i]? with
  | some b => .ok (b, bs)
  | none => .error (.outOfBounds .pkt i)

def frameStore (i : Nat) (v : UInt8) : FrameM Unit := fun bs =>
  if i < bs.length then .ok ((), bs.set i v) else .error (.outOfBounds .pkt i)

/-- The value of two bytes in memory, as the host loads it. -/
def hostWord (host : Endian) (a b : UInt8) : Nat :=
  match host with
  | .little => a.toNat + 256 * b.toNat
  | .big => 256 * a.toNat + b.toNat

def load16 (host : Endian) (i : Nat) : FrameM Nat := do
  let a ← frameLoad i
  let b ← frameLoad (i + 1)
  return hostWord host a b

def store16 (host : Endian) (i : Nat) (v : Nat) : FrameM Unit := do
  let lo := UInt8.ofNat (v % 256)
  let hi := UInt8.ofNat (v / 256)
  match host with
  | .little => frameStore i lo; frameStore (i + 1) hi
  | .big => frameStore i hi; frameStore (i + 1) lo

/-- `be16toh` and `h16tobe` are the same swap. -/
def be16toh (host : Endian) (v : Nat) : Nat :=
  match host with
  | .little => v % 256 * 256 + v / 256
  | .big => v

/-- Addition in `uint32_t`. -/
def addWord (sum word : Nat) : Nat := (sum + word) % 2 ^ 32

/-- Subtraction in `size_t`. -/
def sizeSub (a b : Nat) : Nat := (a + 2 ^ 64 - b) % 2 ^ 64

/-- The loop of `ones_sum` over the first `n` 16-bit words at `off`. -/
def sumWords (host : Endian) (off : Nat) : Nat → Nat → FrameM Nat
  | 0, sum => return sum
  | n + 1, sum => do
    let sum ← sumWords host off n sum
    return addWord sum (← load16 host (off + 2 * n))

/-- `ones_sum` of `byteCount` bytes of the frame at `off`. -/
def onesSum (host : Endian) (off byteCount sum : Nat) : FrameM Nat := do
  let sum ← sumWords host off (byteCount / 2) sum
  if byteCount % 2 = 1 then
    -- trailing byte, padded to a word in memory
    let b ← frameLoad (off + byteCount - 1)
    return addWord sum (hostWord host b 0)
  else return sum

/-- One "carrying" step of `ones_final`. -/
def foldCarry (sum : Nat) : Nat := sum / 65536 + sum % 65536

/-- `ones_final` -/
def onesFinal (sum : Nat) : Nat := 65535 - foldCarry (foldCarry sum) % 65536

def ETH_P_IP : Nat := 0x0800

def IPPROTO_ICMP : UInt8 := 1

def IPPROTO_TCP : UInt8 := 6

def IPPROTO_UDP : UInt8 := 17

def IPPROTO_ICMPV6 : UInt8 := 58

/-- Zero the checksum field at `check`, then store the sum over the `l4Len`
bytes at `l4`, begun with `sum`. -/
def storeSum (host : Endian) (check l4 l4Len sum : Nat) : FrameM Unit := do
  store16 host check 0
  let sum ← onesSum host l4 l4Len sum
  store16 host check (onesFinal sum)

/-- The l4 checksum by protocol. -/
def checksumL4 (host : Endian) (proto : UInt8) (l4 l4Len l4Sum : Nat) : FrameM ChecksumErr := do
  if proto = IPPROTO_TCP then
    storeSum host (l4 + 16) l4 l4Len l4Sum
    return .ok
  else if proto = IPPROTO_UDP then
    storeSum host (l4 + 6) l4 l4Len l4Sum
    -- a zero checksum would mean "not implemented"
    if (← load16 host (l4 + 6)) = 0 then store16 host (l4 + 6) 0xffff
    return .ok
  else if proto = IPPROTO_ICMP then
    -- no pseudo-header
    storeSum host (l4 + 2) l4 l4Len 0
    return .ok
  else if proto = IPPROTO_ICMPV6 then
    storeSum host (l4 + 2) l4 l4Len l4Sum
    return .ok
  else return .unsupported

/-- The IPv4 branch: `l3` is at 14. -/
def checksumIp4 (host : Endian) (len : Nat) (ihl : Nat) : FrameM ChecksumErr := do
  let headLen := ihl * 4
  if headLen < 20 ∨ 60 < headLen then return .malformed
  let l4 := 14 + headLen
  -- `uint16_t`: wraps when the total length is below the header length
  let l4Len := (be16toh host (← load16 host 16) + 65536 - headLen) % 65536
  if sizeSub (sizeSub len 14) headLen < l4Len then return .malformed
  storeSum host 24 14 headLen 0
  let sum ← onesSum host 26 4 0
  let sum ← onesSum host 30 4 sum
  let proto ← frameLoad 23
  let sum := addWord sum (proto.toNat * 256)
  let sum := addWord sum (be16toh host l4Len)
  checksumL4 host proto l4 l4Len sum

/-- The IPv6 branch: a fixed header, no header checksum. -/
def checksumIp6 (host : Endian) (len : Nat) : FrameM ChecksumErr := do
  let headLen := 40
  let l4 := 14 + headLen
  let l4Len := be16toh host (← load16 host 18)
  if sizeSub (sizeSub len 14) headLen < l4Len then return .unsupported
  let sum ← onesSum host 22 16 0
  let sum ← onesSum host 38 16 sum
  let sum ← onesSum host 18 2 sum
  let proto ← frameLoad 20
  let sum := addWord sum (proto.toNat * 256)
  checksumL4 host proto l4 l4Len sum

/-- `checksum` of a whole Ethernet frame. -/
def checksum (host : Endian) : FrameM ChecksumErr := do
  let frame ← get
  let len := frame.length
  if len ≤ 34 ∨ 65535 < len then return .inval
  if be16toh host (← load16 host 12) ≠ ETH_P_IP then return .unsupported
  let b ← frameLoad 14
  let version := b.toNat / 16
  if version = 4 then checksumIp4 host len (b.toNat % 16)
  else if version = 6 then checksumIp6 host len
  else return .malformed

end Xdpacket
