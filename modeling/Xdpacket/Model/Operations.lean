import Xdpacket.Model.Memory

namespace Xdpacket

/-- `op_pkt_offset`: where in a packet of `plen` bytes the field starts, or
null. Addresses are relative to the packet, and no sum of them is taken to wrap; that
`opPktOffsetAt` answers the same where none does is `opPktOffsetAt_relative`. -/
def opPktOffset (plen : Nat) (set : FieldSet) : Option Nat :=
  let where' : Int := set.offt.toInt
  let where' := if set.offt.toInt < 0 then where' + plen else where'
  if where' < 0 then none
  else if where' + set.len.toNat > plen then none
  else some where'.toNat

/-- `op_pkt_offset` on addresses of `w` bits. Null is zero, and all sums wrap. -/
def opPktOffsetAt (pkt plen : BitVec w) (set : FieldSet) : BitVec w :=
  let where' := pkt + BitVec.ofInt w set.offt.toInt
  let where' := if set.offt.toInt < 0 then where' + plen else where'
  if where' < pkt then 0#w
  else
    let flen := BitVec.ofNat w set.len.toNat
    if where' + flen > pkt + plen then 0#w else where'

/-- The operand of one side of an operation: its memref, or else its field of
the packet. -/
def opSide (plen : Nat) (ref : Option Addr) (set : FieldSet) : Option Ptr :=
  match ref with
  | some a => some ⟨.memref a, 0⟩
  | none => (opPktOffset plen set).map (Ptr.mk .pkt)

/-- What `op_common` leaves in its output arguments. `nop` is the length
`(size_t)-1`; `span` carries the length without its last byte. -/
inductive OpCommon where
  | fail
  | nop
  | span (len : Nat) (to' from' : Ptr)
deriving DecidableEq, Repr

def opCommon (op : OpSet) (plen : Nat) : OpCommon :=
  let outLen := if op.setTo.len.toNat > op.setFrom.len.toNat then op.setTo.len.toNat
    else op.setFrom.len.toNat
  if outLen = 0 then .nop
  else
    match opSide plen op.to' op.setTo with
    | none => .fail
    | some to' =>
      match opSide plen op.from' op.setFrom with
      | none => .fail
      | some from' => .span (outLen - 1) to' from'

/-- `op_match`: 0 when the packet matches. -/
def opMatch (op : OpSet) : MemM Nat := do
  let m ← get
  match opCommon op m.pkt.length with
  | .fail => return 1
  | .nop => return 0
  | .span len to' from' =>
    if ← memcmp to' from' len then return 1
    let t ← load to' len
    let f ← load from' len
    if t &&& op.setTo.mask ≠ f &&& op.setFrom.mask then return 1
    return 0

/-- The last byte of a write: destination bits outside the destination mask stay. -/
def maskByte (op : OpSet) (old src : UInt8) : UInt8 :=
  (old &&& ~~~op.setTo.mask) ||| ((src &&& op.setTo.mask) &&& op.setFrom.mask)

/-- `op_write`: 0 when the operation was applied. -/
def opWrite (cpy : CopyOrder) (op : OpSet) : MemM Nat := do
  let m ← get
  match opCommon op m.pkt.length with
  | .fail => return 1
  | .nop => return 0
  | .span len to' from' =>
    memcpy cpy to' from' len
    let t ← load to' len
    let f ← load from' len
    store to' len (maskByte op t f)
    return 0

end Xdpacket
