import Xdpacket.Model.Program
import Xdpacket.Model.Shutdown
import Xdpacket.Model.Stream

namespace Xdpacket

/-- An emitted document. -/
abbrev Reply := List (Text × Out)

/-- The exit of `parse` where there is an output document. -/
def parseDump (errCnt : Nat) : M (Option Reply) := do
  if ← alloc then
    modify fun w => { w with outroot := w.outroot ++ [("errors", .scalar (toString errCnt))] }
  else nbErr "error emitting 'errors'"
  let w ← get
  return some w.outroot

/-- `parse` with its exit: what is written to `outfd`. -/
def parseAnswer (env : Env) (load : Bytes → Option Document) (buf : Bytes) : M (Option Reply) := do
  modify fun w => { w with outroot := [] }
  if !(← allCalls alloc 3) then nbErr "emitter init"; return none
  else if !(← alloc) then nbErr "parser init"; parseDump 1
  else
    match load buf with
    | none => nbErr "Invalid YAML, parse failed"; parseDump 1
    | some doc =>
      match doc.root with
      | some (.mapping pairs) => parseDump (← parseMapping env doc pairs)
      -- silent: do not emit
      | _ => return none

/-- A registered `struct parse`, with the number of its client and what that still sends. -/
structure Conn where
  client : Nat
  fdin : Nat
  fdout : Nat
  parse : Parse
  input : Input
deriving DecidableEq, Repr

/-- A buffer handed to `parse` for a client, and what was written back to a descriptor. -/
structure Exchange where
  client : Nat
  fdout : Nat
  doc : Bytes
  reply : Option Reply

/-- The program with its inputs. `eptk` is the descriptor of the tracker. The program hangs
in a `read` that no answer comes to. `clients` and `exchanges` are histories. -/
structure Server where
  world : World
  eptk : Option Nat
  conns : List Conn
  listeners : List Nat
  hung : Bool
  clients : List Input
  exchanges : List Exchange

abbrev S := StateT Server (Except Fault)

def inWorld (x : M α) : S α := fun s =>
  match x s.world with
  | .ok (a, w) => .ok (a, { s with world := w })
  | .error e => .error e

/-- A system call that answers a descriptor, or fails. -/
def openFd : M (Option Nat) := do
  if ← syscall then
    let w ← get
    let fd := lowestFd w.openFds
    modify fun w => { w with openFds := fd :: w.openFds }
    return some fd
  else return none

def closeFd (fd : Nat) : M Unit :=
  modify fun w => { w with openFds := w.openFds.filter (fun x => x ≠ fd) }

/-- `parse_new`: whether there is a context. -/
def parseNew (fdin fdout : Option Nat) : M Bool := do
  match fdin, fdout with
  | some _, some _ =>
    if ← alloc then return true
    else nbErr "alloc 40"; return false
  | _, _ => nbErr "input or output not sane"; return false

/-- `parse_free` of a context with descriptors. -/
def parseFree (fdin fdout : Nat) : M Unit := do
  closeFd fdin
  if fdout ≠ fdin then closeFd fdout

/-- A context becomes one of the tracker's, under the number of the next client. -/
def Server.track (s : Server) (fdin fdout : Nat) (input : Input) : Server :=
  { s with
    conns := s.conns ++ [⟨s.clients.length, fdin, fdout, .new, input⟩]
    clients := s.clients ++ [input] }

/-- A context goes on with what its callback left. -/
def Server.advance (s : Server) (c : Conn) (parse : Parse) (input : Input) : Server :=
  { s with conns := s.conns.map (fun d =>
      if d.client = c.client then { d with parse := parse, input := input } else d) }

def Server.drop (s : Server) (c : Conn) : Server :=
  { s with conns := s.conns.filter (fun d => d.client ≠ c.client) }

def Server.listen (s : Server) (fd : Nat) : Server :=
  { s with listeners := s.listeners ++ [fd] }

def Server.unlisten (s : Server) (fd : Nat) : Server :=
  { s with listeners := s.listeners.filter (fun x => x ≠ fd) }

/-- `netsock_callback`: non-zero asks to be deregistered. -/
def netsockCallback (input : Input) : S Nat := do
  match ← inWorld openFd with
  | none => inWorld (nbErr "cannot accept connection"); return 1
  | some newfd =>
    -- descriptor 0 is taken for a failure, and stays open
    if newfd < 1 then inWorld (nbErr "cannot accept connection"); return 1
    else if !(← inWorld (parseNew (some newfd) (some newfd))) then
      inWorld (nbErr ""); inWorld (closeFd newfd); return 1
    else if !(← inWorld syscall) then
      -- the context is freed without its descriptors
      inWorld (nbErr ""); inWorld (closeFd newfd); return 1
    else modify (fun s => s.track newfd newfd input); return 0

/-- What the tracker reports: a client on a listening socket, an input that can be read, a
packet. -/
inductive Ready where
  | client (listener : Nat) (input : Input)
  | input (fd : Nat)
  | packet (iface : Addr) (recv : Recv)
deriving DecidableEq, Repr

/-- The buffers that a callback hands to `parse`. -/
def parseAll (env : Env) (load : Bytes → Option Document) (c : Conn) : List Bytes → S Unit
  | [] => return ()
  | buf :: bufs => do
    let reply ← inWorld (parseAnswer env load buf)
    modify fun s => { s with exchanges := s.exchanges ++ [⟨c.client, c.fdout, buf, reply⟩] }
    parseAll env load c bufs

/-- `parse_callback` of a registered context, which is dropped when it asks for that. -/
def readable (env : Env) (load : Bytes → Option Document) (c : Conn) : S Unit := do
  let cb := parseCallback c.parse c.input
  parseAll env load c cb.calls
  match cb.ret with
  | none => modify fun s => { s with hung := true }
  | some 0 => modify fun s => s.advance c cb.parse cb.input
  | some _ =>
    modify fun s => s.drop c
    inWorld (parseFree c.fdin c.fdout)

/-- One turn of `eptk_pwait_exec`. -/
def serve (env : Env) (load : Bytes → Option Document) (ready : Ready) : S Unit := do
  let s ← get
  if s.hung then return ()
  match ready with
  | .client listener input =>
    if listener ∈ s.listeners then
      if (← netsockCallback input) ≠ 0 then
        -- there is no destructor: the socket is closed
        modify fun s => s.unlisten listener
        inWorld (closeFd listener)
  | .input fd =>
    match s.conns.find? (fun c => c.fdin = fd) with
    | none => return ()
    | some c => readable env load c
  | .packet iface recv => inWorld (poll env iface recv)

def serveAll (env : Env) (load : Bytes → Option Document) : List Ready → S Unit
  | [] => return ()
  | ready :: readies => do
    serve env load ready
    serveAll env load readies

/-- One address of `netsock`. A socket that could not be made to listen stays open. -/
def netsockListen : S Bool := do
  match ← inWorld openFd with
  | none => inWorld (nbErr "could not open socket"); return false
  | some sockfd =>
    if sockfd < 1 then inWorld (nbErr "could not open socket"); return false
    -- fcntl, setsockopt, bind, listen, then the registration
    else if !(← inWorld (allCalls syscall 5)) then inWorld (nbErr ""); return false
    else
      modify fun s => s.listen sockfd
      return true

/-- The loop of `netsock`, over the addresses that are left. -/
def netsockEach : Nat → S Bool
  | 0 => return true
  | n + 1 => do
    if ← netsockListen then netsockEach n else return false

/-- `netsock` on what `getaddrinfo` answered -/
def netsock (addresses : Option Nat) : S Bool := do
  match addresses with
  | none => inWorld (nbErr ""); return false
  | some n => netsockEach n

def netsockAll : List (Option Nat) → S Bool
  | [] => return true
  | addresses :: rest => do
    if ← netsock addresses then netsockAll rest else return false

/-- The rest of the setup, with the copies of the standard descriptors. -/
def setupParse (stdin : Input) (options : List (Option Nat)) (fdin fdout : Option Nat) : S Bool := do
  let ok ← inWorld (parseNew fdin fdout)
  match ok, fdin, fdout with
  | true, some fdin, some fdout =>
    if !(← inWorld syscall) then inWorld (nbErr ""); return false
    else
      modify fun s => s.track fdin fdout stdin
      netsockAll options
  | _, _, _ => inWorld (nbErr "failed to allocate objects"); return false

/-- `main` up to its loop: whether it comes there. -/
def setup (stdin : Input) (options : List (Option Nat)) : S Bool := do
  if !(← inWorld syscall) then inWorld (nbErr "failed to set up signals"); return false
  else
    match ← inWorld openFd with
    | none => inWorld (nbErr "failed to allocate objects"); return false
    | some fd =>
      modify fun s => { s with eptk := some fd }
      let fdin ← inWorld openFd
      let fdout ← inWorld openFd
      setupParse stdin options fdin fdout

/-- What the tracker keeps for a descriptor. -/
inductive Registration where
  | iface (iface : Addr)
  | parse (fdin fdout : Nat)
  | netsock (fd : Nat)
deriving DecidableEq, Repr

def Server.start (openFds : List Nat) (oom sys : List Bool) : Server where
  world := .start openFds oom sys
  eptk := none
  conns := []
  listeners := []
  hung := false
  clients := []
  exchanges := []

/-- `main` up to its label `die`: whether it came to the loop, which a signal ends. -/
def mainBody (env : Env) (load : Bytes → Option Document) (stdin : Input)
    (options : List (Option Nat)) (readies : List Ready) : S Bool := do
  if ← setup stdin options then
    serveAll env load readies
    return true
  else return false

end Xdpacket
