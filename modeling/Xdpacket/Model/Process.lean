import Xdpacket.Model.Rules

namespace Xdpacket

/-- The members of `struct iface` that its destructor looks at, while the
object is still being built. -/
structure IfaceParts where
  fd : Int
  name : Option Text
  hwaddr : Bool
  refcnt : Nat
deriving DecidableEq, Repr

/-- `iface_free`. Where warnings are compiled in, this one prints the hardware
address unconditionally. -/
def ifaceFree (env : Env) (self : Addr) (iface : IfaceParts) : M Unit := do
  if iface.refcnt ≠ 0 then
    nbErr s!"iface '{shown iface.name}' free with non-zero refcnt == leak."
  else
    -- we may be a dup: only delete from iface_JS if it points to us
    if (← jsGet World.ifaceJS iface.name) = some self then
      modify fun w => { w with ifaceJS := w.ifaceJS.erase (shown iface.name) }
    if env.warns && !iface.hwaddr then throw .nullMember
    if iface.fd ≠ -1 then
      modify fun w => { w with openFds := w.openFds.filter (fun fd => (fd : Int) ≠ iface.fd) }
    putIface self none

def ifaceFreeAt (env : Env) (a : Addr) : M Unit := do
  let i ← deref World.ifaces a
  ifaceFree env a ⟨i.fd, some i.name, true, i.refcnt⟩

/-- The exit of `iface_new` after `calloc`. -/
def ifaceDie (env : Env) (self : Addr) (iface : IfaceParts) (msg : Text) :
    M (Option Addr) := do
  nbErr msg
  ifaceFree env self iface
  return none

/-- Whether the next `n` calls all succeed, stopping at the first that fails. -/
def allCalls (call : M Bool) : Nat → M Bool
  | 0 => return true
  | n + 1 => do
    if ← call then allCalls call n else return false

/-- The lowest descriptor that is not open. -/
def lowestFd (openFds : List Nat) : Nat :=
  ((List.range (openFds.length + 1)).find? (fun fd => fd ∉ openFds)).getD openFds.length

/-- The tail of `iface_new`, from `socket` on. Then come three `ioctl`s,
`inet_ntop`, three more `ioctl`s, `bind` and the insertion into the store, all
with the same exit. -/
def ifaceOpen (env : Env) (ret : Addr) (name : Text) : M (Option Addr) := do
  if !(← syscall) then
    ifaceDie env ret ⟨-1, some name, true, 0⟩ s!"unable to open socket on {name}"
  else
    let w ← get
    let fd := lowestFd w.openFds
    modify fun w => { w with openFds := fd :: w.openFds }
    if !(← allCalls syscall 8) then ifaceDie env ret ⟨fd, some name, true, 0⟩ ""
    else if !(← alloc) then ifaceDie env ret ⟨fd, some name, true, 0⟩ ""
    else
      modify fun w => { w with ifaceJS := w.ifaceJS.insert name ret }
      putIface ret (some
        { fd := fd, handler := none, context := none, countIn := 0, countOut := 0,
          countCheckfail := 0, countSockdrop := 0, name := name,
          ipPrn := env.ifAddress name, refcnt := 0 })
      return some ret

/-- `iface_new`. Until `socket` is tried the descriptor is the zero of `calloc`. -/
def ifaceNew (env : Env) (name : Text) : M (Option Addr) := do
  let w ← get
  if (w.ifaceJS.lookup name).isSome then
    nbErr s!"iface '{name}' already exists"; return none
  else
    match ← calloc with
    | none => nbErr "fail alloc size 104"; return none
    | some ret =>
      match ← env.strAlloc name MAXLINELEN with
      | .null | .inval => ifaceDie env ret ⟨0, none, false, 0⟩ "string alloc fail"
      | .truncated copy => ifaceDie env ret ⟨0, some copy, false, 0⟩ s!"value truncated: {copy}"
      | .copy =>
        -- ip_prn, addr, hwaddr
        if !(← allCalls alloc 3) then
          ifaceDie env ret ⟨0, some name, false, 0⟩ "fail alloc size 16"
        else ifaceOpen env ret name

/-- The check that `iface_new` begins with. -/
def ifaceNewNamed (env : Env) (name : Option Text) : M (Option Addr) := do
  match name with
  | none => nbErr "no name given for iface"; return none
  | some name => ifaceNew env name

/-- `iface_handler_register`: the number of errors. -/
def ifaceHandlerRegister (iface : Addr) (handler : Handler) (context : Option Addr) : M Nat := do
  let i ← deref World.ifaces iface
  if i.handler ≠ none ∧ (i.handler ≠ some handler ∨ i.context ≠ context) then
    nbErr s!"iface '{i.name}' has existing non-identical handler"; return 1
  else
    putIface iface (some { i with handler := some handler, context := context })
    return 0

/-- `iface_handler_clear`: the number of errors. -/
def ifaceHandlerClear (iface : Addr) (handler : Handler) (context : Option Addr) : M Nat := do
  let i ← deref World.ifaces iface
  if i.handler = none ∨ i.handler ≠ some handler ∨ i.context ≠ context then
    nbErr ""; return 1
  else
    putIface iface (some { i with handler := none, context := none })
    return 0

/-- Run a function of the checksum layer on the packet. -/
def liftFrame (x : FrameM α) : M α := fun w =>
  match x w.pkt with
  | .ok (a, bs) => .ok (a, { w with pkt := bs })
  | .error e => .error e

/-- `iface_output` of the packet being handled. -/
def ifaceOutput (env : Env) (iface : Addr) : M Nat := do
  let ret ← liftFrame (checksum env.host)
  let i ← deref World.ifaces iface
  if ret ≠ .ok then
    putIface iface (some { i with countCheckfail := (i.countCheckfail + 1) % 2 ^ 64 })
    return 1
  else
    modify fun w => { w with sent := w.sent ++ [(iface, w.pkt)] }
    if ← syscall then return 0
    else
      putIface iface (some { i with countSockdrop := (i.countSockdrop + 1) % 2 ^ 64 })
      return 1

/-- The queue of rout sets behind a handler's context. -/
def routSetQueue (context : Option Addr) : M (List Addr) := do
  match context with
  | none => return []
  | some p =>
    let pc ← deref World.processes p
    return pc.routSetJQ

/-- The loop of `process_exec`. A packet that fails a write is discarded rather
than tried against later rules half-mangled. -/
def processExecAll (env : Env) : List Addr → M Unit
  | [] => return ()
  | rst :: rsts => do
    if ← routSetMatch rst then
      if ← routSetExec env rst then
        let set ← deref World.rsets rst
        let _ ← ifaceOutput env set.ifOut
      return ()
    else processExecAll env rsts

/-- `process_exec` on the packet being handled. -/
def processExec (env : Env) (context : Option Addr) : M Unit := do
  processExecAll env (← routSetQueue context)

/-- `sizeof(buf)` in `iface_callback`. -/
def RECV_MAX : Nat := 16384

/-- What `recvfrom` answered. -/
inductive Recv where
  | failed
  | packet (outgoing : Bool) (bytes : Bytes)
deriving DecidableEq, Repr

/-- `iface_callback`: non-zero asks to be deregistered. -/
def ifaceCallback (env : Env) (sk : Addr) (recv : Recv) : M Nat := do
  match recv with
  | .failed => return 1
  | .packet outgoing bytes =>
    if bytes.isEmpty then return 1
    else
      modify fun w => { w with pkt := bytes.take RECV_MAX }
      let i ← deref World.ifaces sk
      if outgoing then
        putIface sk (some { i with countOut := (i.countOut + 1) % 2 ^ 64 })
        return 0
      else
        putIface sk (some { i with countIn := (i.countIn + 1) % 2 ^ 64 })
        match i.handler with
        | none => return 0
        | some .processExec => processExec env i.context; return 0

/-- Run the destructor of every registration. -/
def destroyAll (env : Env) : List (Nat × Addr) → M Unit
  | [] => return ()
  | r :: rs => do
    ifaceFreeAt env r.2
    destroyAll env rs

/-- `eptk_register` of an iface. -/
def eptkRegister (fd : Int) (iface : Addr) : M Bool := do
  if ← syscall then
    modify fun w => { w with tracked := w.tracked ++ [(fd.toNat, iface)] }
    return true
  else return false

/-- `eptk_remove`: drops the registrations of a descriptor, runs their
destructors and counts them. -/
def eptkRemove (env : Env) (fd : Int) : M Nat := do
  let w ← get
  let gone := w.tracked.filter (fun r => (r.1 : Int) = fd)
  modify fun w => { w with tracked := w.tracked.filter (fun r => (r.1 : Int) ≠ fd) }
  destroyAll env gone
  return gone.length

/-- `process_free` of the object at `self`; an unfinished one may have no iface. -/
def processFree (self : Addr) (inIface : Option Addr) (routJQ : List Rout)
    (routSetJQ : List Addr) : M Unit := do
  match inIface with
  | none => routFreeAll routJQ
  | some iface =>
    -- this will fail safely if we are not the handler
    let _ ← ifaceHandlerClear iface .processExec (jqRoot self routSetJQ)
    ifaceRelease (some iface)
    let i ← deref World.ifaces iface
    -- we may be a dup: only remove from process_JS if it points to us
    if (← jsGet World.processJS (some i.name)) = some self then
      modify fun w => { w with processJS := w.processJS.erase i.name }
    routFreeAll routJQ
  putProcess self none

def processFreeAt (a : Addr) : M Unit := do
  let pc ← deref World.processes a
  processFree a (some pc.inIface) pc.routJQ pc.routSetJQ

/-- `process_new`: takes charge of the queue. -/
def processNew (inIfaceName : Text) (routJQ : List Rout) : M (Option Addr) := do
  match ← calloc with
  | none => routFreeAll routJQ; nbErr "fail alloc size 24"; return none
  | some ret =>
    let routSetJQ := routJQ.map Rout.set
    let w ← get
    if (w.processJS.lookup inIfaceName).isSome then
      nbErr s!"process on '{inIfaceName}' already exists"
      processFree ret none routJQ routSetJQ; return none
    else
      match ← ifaceGet inIfaceName with
      | none =>
        nbErr s!"could not get interface '{inIfaceName}'"
        processFree ret none routJQ routSetJQ; return none
      | some iface =>
        if (← ifaceHandlerRegister iface .processExec (jqRoot ret routSetJQ)) ≠ 0 then
          nbErr ""
          processFree ret (some iface) routJQ routSetJQ; return none
        else
          let i ← deref World.ifaces iface
          modify fun w => { w with processJS := w.processJS.insert i.name ret }
          putProcess ret (some ⟨iface, routJQ, routSetJQ⟩)
          return some ret

end Xdpacket
