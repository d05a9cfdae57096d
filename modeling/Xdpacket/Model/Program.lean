import Xdpacket.Model.Parse

namespace Xdpacket

/-- What happens to the program, one thing after the other: a mapping or a whole
document is executed, or the socket of an iface becomes readable. -/
inductive Event where
  | mapping (sub : Subsystem) (mode : ParseMode) (doc : Document) (pairs : Pairs doc)
  | document (doc : Document)
  | packet (iface : Addr) (recv : Recv)

/-- A socket is polled while it is registered; the registration is dropped when
its callback asks for that. -/
def poll (env : Env) (iface : Addr) (recv : Recv) : M Unit := do
  let w ← get
  match w.tracked.find? (fun r => r.2 = iface) with
  | none => return ()
  | some r =>
    if (← ifaceCallback env iface recv) ≠ 0 then
      let _ ← eptkRemove env r.1

def handle (env : Env) (event : Event) : M Unit :=
  match event with
  | .mapping sub mode doc pairs => do
    let _ ← subsystemParse env sub mode doc pairs
  | .document doc => do
    let _ ← parseDocument env doc
  | .packet iface recv => poll env iface recv

def handleAll (env : Env) : List Event → M Unit
  | [] => return ()
  | event :: events => do
    handle env event
    handleAll env events

/-- A state that the program can be in between two events. -/
def Reachable (env : Env) (w : World) : Prop :=
  ∃ openFds oom sys events, handleAll env events (World.start openFds oom sys) = .ok ((), w)

end Xdpacket
