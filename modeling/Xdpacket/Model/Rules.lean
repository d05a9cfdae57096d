import Xdpacket.Model.Objects
import Xdpacket.Model.Checksum

namespace Xdpacket

/-- Free every operation of a queue, first to last. -/
def opFreeAll : List Op → M Unit
  | [] => return ()
  | op :: ops => do
    opFree op
    opFreeAll ops

/-- `rule_release_refs` -/
def ruleReleaseRefs (matchJQ writeJQ : List Op) : M Unit := do
  opFreeAll matchJQ
  opFreeAll writeJQ

/-- `rule_free` of the object at `self`; an unfinished object may have no name. -/
def ruleFree (self : Addr) (name : Option Text) (refcnt : Nat) (matchJQ writeJQ : List Op) :
    M Unit := do
  if refcnt ≠ 0 then
    nbErr s!"rule '{shown name}' free with non-zero recfnt == leak"
  else
    -- we may be a dup: only remove from rule_JS if it points to us
    if (← jsGet World.ruleJS name) = some self then
      modify fun w => { w with ruleJS := w.ruleJS.erase (shown name) }
    ruleReleaseRefs matchJQ writeJQ
    putRule self none

def ruleFreeAt (a : Addr) : M Unit := do
  let r ← deref World.rules a
  ruleFree a (some r.name) r.refcnt r.matchJQ r.writeJQ

/-- `rule_new`: takes charge of both queues. -/
def ruleNew (env : Env) (name : Text) (matchJQ writeJQ : List Op) : M (Option Addr) := do
  match ← calloc with
  | none =>
    ruleReleaseRefs matchJQ writeJQ
    nbErr "fail alloc size 32"; return none
  | some ret =>
    match ← env.strAlloc name MAXLINELEN with
    | .null | .inval =>
      nbErr "string alloc fail"; ruleFree ret none 0 matchJQ writeJQ; return none
    | .truncated copy =>
      nbErr s!"value truncated: {copy}"; ruleFree ret (some copy) 0 matchJQ writeJQ; return none
    | .copy =>
      let w ← get
      if (w.ruleJS.lookup name).isSome then
        nbErr s!"rule '{name}' already exists"
        ruleFree ret (some name) 0 matchJQ writeJQ; return none
      else
        modify fun w => { w with ruleJS := w.ruleJS.insert name ret }
        putRule ret (some ⟨name, matchJQ, writeJQ, 0⟩)
        return some ret

/-- `rule_release` -/
def ruleRelease (rule : Option Addr) : M Unit := do
  match rule with
  | none => return ()
  | some a =>
    let r ← deref World.rules a
    if r.refcnt = 0 then nbErr "attempt to release 0-refcnt on rule"
    else putRule a (some { r with refcnt := r.refcnt - 1 })

/-- `rule_get` -/
def ruleGet (name : Text) : M (Option Addr) := do
  match ← jsGet World.ruleJS (some name) with
  | none => return none
  | some a =>
    let r ← deref World.rules a
    putRule a (some { r with refcnt := r.refcnt + 1 })
    return some a

/-- `iface_release` -/
def ifaceRelease (iface : Option Addr) : M Unit := do
  match iface with
  | none => return ()
  | some a =>
    let i ← deref World.ifaces a
    if i.refcnt = 0 then nbErr "attempt to release 0-refcnt on iface"
    else putIface a (some { i with refcnt := i.refcnt - 1 })

/-- `iface_get` -/
def ifaceGet (name : Text) : M (Option Addr) := do
  match ← jsGet World.ifaceJS (some name) with
  | none => return none
  | some a =>
    let i ← deref World.ifaces a
    putIface a (some { i with refcnt := i.refcnt + 1 })
    return some a

/-- `rout_set_new`: copies the roots of the rule's queues. -/
def routSetNew (rule output : Addr) : M (Option Addr) := do
  match ← calloc with
  | none => nbErr "fail malloc size 32"; return none
  | some ret =>
    let r ← deref World.rules rule
    putRset ret (some ⟨output, jqRoot rule r.matchJQ, jqRoot rule r.writeJQ, 0⟩)
    return some ret

/-- `rout_set_free` -/
def routSetFree (set : Option Addr) : M Unit := do
  match set with
  | none => return ()
  | some a =>
    let _ ← deref World.rsets a
    putRset a none

/-- `rout_free` of a possibly unfinished object. -/
def routFree (rule output set : Option Addr) : M Unit := do
  ruleRelease rule
  ifaceRelease output
  routSetFree set

/-- `rout_new` -/
def routNew (ruleName outName : Option Text) : M (Option Rout) := do
  match ruleName, outName with
  | none, _ => nbErr "rout requires 'rule_name'"; return none
  | some _, none => nbErr "rout requires 'out_name'"; return none
  | some ruleName, some outName =>
    if !(← alloc) then nbErr "fail alloc size 24"; return none
    else
      match ← ruleGet ruleName with
      | none =>
        nbErr s!"could not get rule '{ruleName}'"; routFree none none none; return none
      | some rule =>
      match ← ifaceGet outName with
      | none =>
        nbErr s!"could not get iface '{outName}'"; routFree (some rule) none none; return none
      | some output =>
      match ← routSetNew rule output with
      | none =>
        nbErr "could not create set for rout"
        routFree (some rule) (some output) none; return none
      | some set => return some ⟨rule, output, set⟩

def routFreeAll : List Rout → M Unit
  | [] => return ()
  | rt :: rts => do
    routFree (some rt.rule) (some rt.output) (some rt.set)
    routFreeAll rts

/-- The queue behind a copied root. -/
def opQueue (queue : Rule → List Op) (root : Option Addr) : M (List Op) := do
  match root with
  | none => return []
  | some rule => return queue (← deref World.rules rule)

/-- Every `op_match` of a queue, stopping at the first that does not match. -/
def matchAll : List Op → M Bool
  | [] => return true
  | op :: ops => do
    if (← liftMem (opMatch op.set)) ≠ 0 then return false else matchAll ops

/-- `rout_set_match` -/
def routSetMatch (set : Addr) : M Bool := do
  let rst ← deref World.rsets set
  if ← matchAll (← opQueue Rule.matchJQ rst.matchJQ) then
    putRset set (some { rst with countMatch := rst.countMatch + 1 })
    return true
  else return false

/-- The bytes that `op_write` is about to read, for the history. -/
def opSource (op : OpSet) (m : Mem) : Bytes :=
  match opCommon op m.pkt.length with
  | .span len _ from' => (((m.bytes from'.region).getD []).drop from'.off).take (len + 1)
  | _ => []

/-- `op_write`, recorded in the history when it returned 0. -/
def opWriteRecorded (env : Env) (op : OpSet) : M Nat := do
  let w ← get
  let rc ← liftMem (opWrite env.cpy op)
  if rc = 0 then
    modify fun v => { v with written := v.written ++ [⟨op, opSource op w.toMem⟩] }
  return rc

def writeAll (env : Env) : List Op → M Bool
  | [] => return true
  | op :: ops => do
    if (← opWriteRecorded env op.set) ≠ 0 then return false else writeAll env ops

/-- `rout_set_exec` -/
def routSetExec (env : Env) (rst : Addr) : M Bool := do
  let set ← deref World.rsets rst
  writeAll env (← opQueue Rule.writeJQ set.writeJQ)

end Xdpacket
