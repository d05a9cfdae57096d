import Xdpacket.Lib.Registry
import Mathlib.Data.List.Range

namespace Xdpacket

abbrev Bytes := List UInt8

/-- A C string. -/
abbrev Text := String

abbrev Addr := Nat

/-- `struct field_set`: the C field widths are the Lean types. -/
structure FieldSet where
  offt : Int32
  len : UInt16
  mask : UInt8
  flags : UInt8
deriving DecidableEq, Repr

/-- `struct op_set`. A null `to'` or `from'` is `none`; any other points at the
`bytes` of the memref at that address. -/
structure OpSet where
  setTo : FieldSet
  to' : Option Addr
  setFrom : FieldSet
  from' : Option Addr
deriving DecidableEq, Repr

/-- The anonymous union of `struct memref`. `MEMREF_FLAG_STATIC` is its tag in
the source; here the constructor is. -/
inductive MemrefKind where
  | state (name : Text) (refcnt : Nat)
  | value (input : Option Text) (rendered : Text)
deriving DecidableEq, Repr

/-- `struct memref`. The flexible array was allocated with the length of its
set, and no write changes that. -/
structure Memref where
  kind : MemrefKind
  set : FieldSet
  bytes : Bytes
  sized : bytes.length = set.len.toNat

/-- Storage objects that a data pointer can point into. -/
inductive Region where
  | pkt
  | memref (a : Addr)
deriving DecidableEq, Repr

/-- A step that C leaves undefined; the run ends there. -/
inductive Fault where
  /-- a byte outside its object -/
  | outOfBounds (r : Region) (i : Nat)
  /-- an object that was freed -/
  | dangling (a : Addr)
  /-- a union member of a node that has another type -/
  | badNode
  /-- the first pair of an empty mapping -/
  | emptyPeek
  /-- a text absent from the document given to `strcmp`, `strtol` or a store -/
  | nullText
  /-- the name of an unfinished object, still null, given to a store -/
  | nullName
  /-- a member of an unfinished object, still null -/
  | nullMember
deriving DecidableEq, Repr

/-- What the packet path reads and writes: the packet being handled and the
buffers of states and values. -/
structure Mem where
  pkt : Bytes
  memrefs : Heap Memref

abbrev MemM := StateT Mem (Except Fault)

structure Ptr where
  region : Region
  off : Nat
deriving DecidableEq, Repr

/-- The bytes of a storage object, while it is live. -/
def Mem.bytes (m : Mem) : Region → Option Bytes
  | .pkt => some m.pkt
  | .memref a => (m.memrefs a).map Memref.bytes

def Memref.setByte (r : Memref) (i : Nat) (v : UInt8) : Memref :=
  { r with bytes := r.bytes.set i v, sized := by rw [List.length_set]; exact r.sized }

def Mem.setByte (m : Mem) (r : Region) (i : Nat) (v : UInt8) : Mem :=
  match r with
  | .pkt => { m with pkt := m.pkt.set i v }
  | .memref a => { m with memrefs := Function.update m.memrefs a ((m.memrefs a).map (·.setByte i v)) }

def Region.addr : Region → Addr
  | .pkt => 0
  | .memref a => a

/-- `p[i]` -/
def load (p : Ptr) (i : Nat) : MemM UInt8 := fun m =>
  match m.bytes p.region with
  | none => .error (.dangling p.region.addr)
  | some bs =>
    match bs[p.off + i]? with
    | none => .error (.outOfBounds p.region (p.off + i))
    | some b => .ok (b, m)

/-- `p[i] = v` -/
def store (p : Ptr) (i : Nat) (v : UInt8) : MemM Unit := fun m =>
  match m.bytes p.region with
  | none => .error (.dangling p.region.addr)
  | some bs =>
    if p.off + i < bs.length then .ok ((), m.setByte p.region (p.off + i) v)
    else .error (.outOfBounds p.region (p.off + i))

/-- The `n` bytes at `p`, first to last. -/
def loadRange (p : Ptr) : Nat → MemM Bytes
  | 0 => pure []
  | n + 1 => do
    let bs ← loadRange p n
    let b ← load p n
    return bs ++ [b]

/-- `memcmp`: it may read all `n` bytes of both objects. True when they differ. -/
def memcmp (a b : Ptr) (n : Nat) : MemM Bool := do
  let x ← loadRange a n
  let y ← loadRange b n
  return x != y

/-- The order in which `memcpy` copies its bytes is the library's choice. -/
structure CopyOrder where
  order : Nat → List Nat
  perm : ∀ n, (order n).Perm (List.range n)

def CopyOrder.ascending : CopyOrder := ⟨List.range, fun _ => .refl _⟩

def copyBytes (dst src : Ptr) : List Nat → MemM Unit
  | [] => pure ()
  | i :: is => do
    store dst i (← load src i)
    copyBytes dst src is

def memcpy (cpy : CopyOrder) (dst src : Ptr) (n : Nat) : MemM Unit :=
  copyBytes dst src (cpy.order n)

end Xdpacket
