import Xdpacket.Model.Operations

namespace Xdpacket

def MAXLINELEN : Nat := 48

def MAXVALUELEN : Nat := 65535

inductive Endian where
  | little
  | big
deriving DecidableEq, Repr

/-- What `nstralloc` answers: null, null with `EINVAL`, a shortened copy with
`E2BIG`, or a copy. -/
inductive Nstr where
  | null
  | inval
  | truncated (copy : Text)
  | copy
deriving DecidableEq, Repr

/-- `struct field` -/
structure Field where
  name : Text
  set : FieldSet
  refcnt : Nat
deriving DecidableEq, Repr

/-- `struct op` -/
structure Op where
  dstField : Option Addr
  dst : Option Addr
  srcField : Option Addr
  src : Option Addr
  set : OpSet
deriving DecidableEq, Repr

/-- `struct rule`. A queue being built is a list; one that a rule owns lives as
long as the rule does. -/
structure Rule where
  name : Text
  matchJQ : List Op
  writeJQ : List Op
  refcnt : Nat
deriving DecidableEq, Repr

/-- `struct rout_set`. A queue of operations is a copied root: it names the
rule that owns the queue, or is null when the queue is empty. -/
structure RoutSet where
  ifOut : Addr
  matchJQ : Option Addr
  writeJQ : Option Addr
  countMatch : UInt32
deriving DecidableEq, Repr

/-- `struct rout` -/
structure Rout where
  rule : Addr
  output : Addr
  set : Addr
deriving DecidableEq, Repr

/-- `struct process` -/
structure Process where
  inIface : Addr
  routJQ : List Rout
  routSetJQ : List Addr
deriving DecidableEq, Repr

/-- The one `iface_handler_t` that the program registers. -/
inductive Handler where
  | processExec
deriving DecidableEq, Repr

/-- `struct iface`. The context is a copied root of a queue of rout sets, so it
names the process that owns the queue, or is null when the queue is empty. -/
structure Iface where
  fd : Int
  handler : Option Handler
  context : Option Addr
  countIn : Nat
  countOut : Nat
  countCheckfail : Nat
  countSockdrop : Nat
  name : Text
  ipPrn : Text
  refcnt : Nat
deriving DecidableEq, Repr

/-- A node of the reply document. -/
inductive Out where
  | scalar (value : Text)
  | mapping (pairs : List (Text × Out))
  | sequence (items : List Out)

/-- One `op_write` that returned 0, with the source bytes it read. -/
structure Written where
  op : OpSet
  src : Bytes
deriving DecidableEq, Repr

/-- Everything the program keeps. The last block answers and records the calls
that leave the program: which coming allocations and system calls fail, the
messages printed, the reply document, the packets sent. `written` is a history that
no function reads. -/
structure World extends Mem where
  next : Addr
  fields : Heap Field
  rules : Heap Rule
  rsets : Heap RoutSet
  ifaces : Heap Iface
  processes : Heap Process
  fieldJS : NameStore Text
  stateJS : NameStore Text
  ruleJS : NameStore Text
  ifaceJS : NameStore Text
  processJS : NameStore Text
  openFds : List Nat
  tracked : List (Nat × Addr)
  oom : List Bool
  sys : List Bool
  log : List Text
  outlist : List Out
  outroot : List (Text × Out)
  sent : List (Addr × Bytes)
  written : List Written

abbrev M := StateT World (Except Fault)

/-- The program before its first directive. -/
def World.start (openFds : List Nat) (oom sys : List Bool) : World where
  pkt := []
  memrefs := fun _ => none
  next := 1
  fields := fun _ => none
  rules := fun _ => none
  rsets := fun _ => none
  ifaces := fun _ => none
  processes := fun _ => none
  fieldJS := ∅
  stateJS := ∅
  ruleJS := ∅
  ifaceJS := ∅
  processJS := ∅
  openFds := openFds
  tracked := []
  oom := oom
  sys := sys
  log := []
  outlist := []
  outroot := []
  sent := []
  written := []

/-- What the code outside the program answers where that is a choice. The
length of a parsed value is the length that was asked for. `warns` says whether
warnings are compiled in. -/
structure Env where
  cpy : CopyOrder
  host : Endian
  warns : Bool
  nstralloc : Text → Nat → Nstr
  valueParse : Text → (len : Nat) → Option { bs : Bytes // bs.length = len }
  ifAddress : Text → Text

/-- Whether the next allocation succeeds. -/
def alloc : M Bool :=
  modifyGet fun w =>
    match w.oom with
    | [] => (true, w)
    | fails :: rest => (!fails, { w with oom := rest })

/-- Whether the next system call succeeds. -/
def syscall : M Bool :=
  modifyGet fun w =>
    match w.sys with
    | [] => (true, w)
    | fails :: rest => (!fails, { w with sys := rest })

/-- An address that no object has had. -/
def newAddr : M Addr :=
  modifyGet fun w => (w.next, { w with next := w.next + 1 })

/-- The object is a local value until it is published; its address is its own
from here on. -/
def calloc : M (Option Addr) := do
  if ← alloc then
    let a ← newAddr
    return some a
  else return none

def Env.strAlloc (env : Env) (src : Text) (max : Nat) : M Nstr := do
  if ← alloc then return env.nstralloc src max else return .null

/-- `NB_err`: the counting is the caller's. -/
def nbErr (msg : Text) : M Unit :=
  modify fun w => { w with log := w.log ++ [msg] }

/-- Follow a pointer. -/
def deref (heap : World → Heap α) (a : Addr) : M α := do
  let w ← get
  match heap w a with
  | some o => return o
  | none => throw (.dangling a)

/-- `js_get` with the name of an object, which may still be null. -/
def jsGet (js : World → NameStore Text) (name : Option Text) : M (Option Addr) := do
  let w ← get
  match name with
  | some n => return (js w).lookup n
  | none => throw .nullName

def putField (a : Addr) (o : Option Field) : M Unit :=
  modify fun w => { w with fields := Function.update w.fields a o }

def putMemref (a : Addr) (o : Option Memref) : M Unit :=
  modify fun w => { w with memrefs := Function.update w.memrefs a o }

def putRule (a : Addr) (o : Option Rule) : M Unit :=
  modify fun w => { w with rules := Function.update w.rules a o }

def putRset (a : Addr) (o : Option RoutSet) : M Unit :=
  modify fun w => { w with rsets := Function.update w.rsets a o }

def putIface (a : Addr) (o : Option Iface) : M Unit :=
  modify fun w => { w with ifaces := Function.update w.ifaces a o }

def putProcess (a : Addr) (o : Option Process) : M Unit :=
  modify fun w => { w with processes := Function.update w.processes a o }

/-- The packet path inside the whole program. -/
def liftMem (x : MemM α) : M α := fun w =>
  match x w.toMem with
  | .ok (a, m) => .ok (a, { w with toMem := m })
  | .error e => .error e

/-- Hand a finished mapping to the reply list; libyaml may run out of memory. -/
def emitReply (reply : Out) : M Nat := do
  if ← alloc then
    modify fun w => { w with outlist := w.outlist ++ [reply] }
    return 0
  else return 1

/-- The root of a queue that `owner` owns. -/
def jqRoot (owner : Addr) (q : List α) : Option Addr :=
  if q.isEmpty then none else some owner

end Xdpacket
