import Xdpacket.Model.Process
import Xdpacket.Model.Yaml
import Mathlib.Data.List.Sort
import Mathlib.Data.String.Basic

namespace Xdpacket

/-- `enum parse_mode` -/
inductive ParseMode where
  | invalid
  | add
  | del
  | prn
deriving DecidableEq, Repr

/-- `parse_mode_prn` -/
def parseModePrn : ParseMode → Text
  | .invalid => "PARSE_INVALID"
  | .add => "PARSE_ADD"
  | .del => "PARSE_DEL"
  | .prn => "PARSE_PRN"

/-- `printf("0x%x")` -/
def hexOf (n : Nat) : Text := "0x" ++ String.ofList (Nat.toDigits 16 n)

/-- The addresses that `JS_LOOP` visits: a Judy array is sorted by its index. -/
def jsAddrs (s : NameStore Text) : List Addr :=
  ((s.entries.map (fun e => (e.1, e.2))).insertionSort (fun a b => a.1 ≤ b.1)).map Prod.snd

/-- The loop of the `_emit_all` functions. -/
def emitEach (emit : Addr → M Nat) : List Addr → M Nat
  | [] => return 0
  | a :: as => do
    if (← emit a) ≠ 0 then nbErr ""; return 1
    else emitEach emit as

/-- `field_emit`; a `0xff` mask is elided. -/
def fieldEmit (a : Addr) : M Nat := do
  let f ← deref World.fields a
  emitReply (.mapping (
    [("field", .scalar f.name), ("offt", .scalar (toString f.set.offt.toInt)),
      ("len", .scalar (toString f.set.len.toNat))] ++
    if f.set.mask ≠ 0xff then [("mask", .scalar (hexOf f.set.mask.toNat))] else []))

def fieldEmitAll : M Nat := do
  let w ← get
  emitEach fieldEmit (jsAddrs w.fieldJS)

/-- `memref_emit`: the pairs it adds to a mapping. -/
def memrefEmit (ref : Option Addr) : M (List (Text × Out)) := do
  match ref with
  | none => return []
  | some a =>
    let r ← deref (·.memrefs) a
    match r.kind with
    | .value (some input) rendered => return [("value", .scalar input), ("bytes", .scalar rendered)]
    | .value none _ => throw .nullMember
    | .state name _ => return [("state", .scalar name)]

def opEmitField (field : Option Addr) : M (List (Text × Out)) := do
  match field with
  | none => return []
  | some a =>
    let f ← deref World.fields a
    return [("field", .scalar f.name)]

/-- `op_emit` -/
def opEmit (op : Op) : M Out := do
  let dstField ← opEmitField op.dstField
  let dst ← memrefEmit op.dst
  let srcField ← opEmitField op.srcField
  let src ← memrefEmit op.src
  return .mapping [("dst", .mapping (dstField ++ dst)), ("src", .mapping (srcField ++ src))]

def opEmitAll : List Op → M (List Out)
  | [] => return []
  | op :: ops => do
    let out ← opEmit op
    let outs ← opEmitAll ops
    return out :: outs

/-- `rule_emit` -/
def ruleEmit (a : Addr) : M Nat := do
  let r ← deref World.rules a
  let matches_ ← opEmitAll r.matchJQ
  let writes ← opEmitAll r.writeJQ
  emitReply (.mapping [("rule", .scalar r.name), ("match", .sequence matches_),
    ("write", .sequence writes)])

def ruleEmitAll : M Nat := do
  let w ← get
  emitEach ruleEmit (jsAddrs w.ruleJS)

/-- `rout_emit` -/
def routEmit (rout : Rout) : M Out := do
  let rule ← deref World.rules rout.rule
  let output ← deref World.ifaces rout.output
  let set ← deref World.rsets rout.set
  return .mapping [(rule.name, .scalar output.name),
    ("matches", .scalar (toString set.countMatch.toNat))]

def routEmitAll : List Rout → M (List Out)
  | [] => return []
  | rt :: rts => do
    let out ← routEmit rt
    let outs ← routEmitAll rts
    return out :: outs

/-- `process_emit` -/
def processEmit (a : Addr) : M Nat := do
  let pc ← deref World.processes a
  let nodes ← routEmitAll pc.routJQ
  let i ← deref World.ifaces pc.inIface
  emitReply (.mapping [("process", .scalar i.name), ("nodes", .sequence nodes)])

def processEmitAll : M Nat := do
  let w ← get
  emitEach processEmit (jsAddrs w.processJS)

/-- `iface_emit` -/
def ifaceEmit (a : Addr) : M Nat := do
  let i ← deref World.ifaces a
  emitReply (.mapping [("iface", .scalar i.name), ("address", .scalar i.ipPrn),
    ("pkt in", .scalar (toString i.countIn)), ("pkt out", .scalar (toString i.countOut)),
    ("pkt drop/truncate", .scalar (toString i.countSockdrop)),
    ("pkt fail checksum", .scalar (toString i.countCheckfail))])

def ifaceEmitAll : M Nat := do
  let w ← get
  emitEach ifaceEmit (jsAddrs w.ifaceJS)

/-- The exit of a parser: one more error. -/
def parseDie (errCnt : Nat) (msg : Text) : M Nat := do
  nbErr msg
  return errCnt + 1

/-- A parser's last step: `NB_die_if` the emitter failed. -/
def parseEmit (errCnt : Nat) (emit : M Nat) : M Nat := do
  if (← emit) ≠ 0 then parseDie errCnt "" else return errCnt

/-- Local variables of `iface_parse`. -/
structure IfaceArgs where
  errCnt : Nat
  name : Text
deriving DecidableEq, Repr

def ifaceParseKey (keyname : Text) (val : Node n) (s : IfaceArgs) : M (Step IfaceArgs) := do
  match val with
  | .scalar valtxt =>
    if keyname = "iface" ∨ keyname = "i" then return .go { s with name := valtxt }
    else
      nbErr s!"'iface' does not implement '{keyname}'"
      return .go { s with errCnt := s.errCnt + 1 }
  | _ =>
    nbErr s!"'{keyname}' in iface not a scalar"
    return .die { s with errCnt := s.errCnt + 1 }

/-- `iface_parse` after the walk. -/
def ifaceParseMode (env : Env) (mode : ParseMode) (s : IfaceArgs) : M Nat := do
  match mode with
  | .add =>
    match ← ifaceNew env s.name with
    | none => parseDie s.errCnt ""
    | some iface =>
      let i ← deref World.ifaces iface
      if !(← eptkRegister i.fd iface) then
        parseDie s.errCnt s!"could not register epoll on '{i.name}'"
      else parseEmit s.errCnt (ifaceEmit iface)
  | .del =>
    match ← jsGet World.ifaceJS (some s.name) with
    | none => parseDie s.errCnt s!"could not get iface '{s.name}'"
    | some iface =>
      let i ← deref World.ifaces iface
      if i.refcnt ≠ 0 then parseDie s.errCnt s!"iface '{s.name}' still in use"
      else if (← ifaceEmit iface) ≠ 0 then parseDie s.errCnt ""
      else if (← eptkRemove env i.fd) ≠ 1 then
        parseDie s.errCnt s!"could not remove '{s.name}'"
      else return s.errCnt
  | .prn =>
    if s.name = "" then parseEmit s.errCnt ifaceEmitAll
    else
      match ← jsGet World.ifaceJS (some s.name) with
      | none => return s.errCnt
      | some iface => parseEmit s.errCnt (ifaceEmit iface)
  | .invalid => parseDie s.errCnt s!"unknown mode {parseModePrn mode}"

/-- `iface_parse` -/
def ifaceParse (env : Env) (mode : ParseMode) (doc : Document) (mapping : Pairs doc) : M Nat := do
  match ← yForMap doc ifaceParseKey mapping ⟨0, ""⟩ with
  | .die s => return s.errCnt
  | .go s => ifaceParseMode env mode s

/-- Local variables of `field_parse`. -/
structure FieldArgs where
  errCnt : Nat
  name : Option Text
  offt : Int
  len : Int
  mask : Int
deriving DecidableEq, Repr

/-- One number of a field: `errno` is all that is checked. -/
def fieldParseNumber (keyname : Text) (val : Node n) (s : FieldArgs)
    (assign : Int → FieldArgs) : M (Step FieldArgs) := do
  let txt ← needText val.txt
  let (v, erange) := strtol txt
  if erange then
    nbErr s!"'{keyname}': '{txt}' could not be parsed"
    return .die { s with errCnt := s.errCnt + 1 }
  else return .go (assign v)

def fieldParseKey (keyname : Text) (val : Node n) (s : FieldArgs) : M (Step FieldArgs) := do
  if keyname = "field" ∨ keyname = "f" then return .go { s with name := val.txt }
  else if keyname = "offt" ∨ keyname = "o" then
    fieldParseNumber keyname val s (fun v => { s with offt := v })
  else if keyname = "len" ∨ keyname = "l" then
    fieldParseNumber keyname val s (fun v => { s with len := v })
  else if keyname = "mask" ∨ keyname = "m" then
    fieldParseNumber keyname val s (fun v => { s with mask := v })
  else
    nbErr s!"'iface' does not implement '{keyname}'"
    return .go { s with errCnt := s.errCnt + 1 }

/-- `field_parse` after the walk. -/
def fieldParseMode (env : Env) (mode : ParseMode) (s : FieldArgs) : M Nat := do
  match mode with
  | .add =>
    match ← fieldNew env s.name s.offt s.len s.mask with
    | none => parseDie s.errCnt s!"could not create new field '{shown s.name}'"
    | some field => parseEmit s.errCnt (fieldEmit field)
  | .del =>
    let name ← needText s.name
    match ← jsGet World.fieldJS (some name) with
    | none => parseDie s.errCnt s!"could not get field '{name}'"
    | some field =>
      let f ← deref World.fields field
      if f.refcnt ≠ 0 then parseDie s.errCnt s!"field '{name}' still in use"
      else if (← fieldEmit field) ≠ 0 then parseDie s.errCnt ""
      else fieldFreeAt field; return s.errCnt
  | .prn =>
    let name ← needText s.name
    if name = "" then parseEmit s.errCnt fieldEmitAll
    else
      match ← jsGet World.fieldJS (some name) with
      | none => return s.errCnt
      | some field => parseEmit s.errCnt (fieldEmit field)
  | .invalid => parseDie s.errCnt s!"unknown mode {parseModePrn mode}"

/-- `field_parse` -/
def fieldParse (env : Env) (mode : ParseMode) (doc : Document) (mapping : Pairs doc) : M Nat := do
  match ← yForMap doc fieldParseKey mapping ⟨0, some "", 0, 0, 0⟩ with
  | .die s => return s.errCnt
  | .go s => fieldParseMode env mode s

/-- Local variables of `op_parse_new`. -/
structure OpArgs where
  dstFieldName : Option Text
  dstStateName : Option Text
  srcFieldName : Option Text
  srcStateName : Option Text
  srcValue : Option Text
deriving DecidableEq, Repr

def opParseDst (keyname : Text) (val : Node n) (s : OpArgs) : M (Step OpArgs) := do
  if keyname = "field" ∨ keyname = "f" then return .go { s with dstFieldName := val.txt }
  else if keyname = "state" ∨ keyname = "s" then return .go { s with dstStateName := val.txt }
  -- ignored: we output this key and our output must be valid input
  else if keyname = "bytes" then return .go s
  else
    nbErr s!"op destination does not implement '{keyname}'"
    return .die s

def opParseSrc (keyname : Text) (val : Node n) (s : OpArgs) : M (Step OpArgs) := do
  if keyname = "field" ∨ keyname = "f" then return .go { s with srcFieldName := val.txt }
  else if keyname = "state" ∨ keyname = "s" then return .go { s with srcStateName := val.txt }
  else if keyname = "value" ∨ keyname = "v" then return .go { s with srcValue := val.txt }
  else if keyname = "bytes" then return .go s
  else
    nbErr s!"op source does not implement '{keyname}'"
    return .die s

def opParseKey (doc : Document) (keyname : Text) (val : Node doc.size) (s : OpArgs) :
    M (Step OpArgs) := do
  if keyname = "dst" ∨ keyname = "d" then
    match val with
    | .mapping map => yForMap doc opParseDst map s
    | _ => nbErr "dst target is not a mapping"; return .go s
  else if keyname = "src" ∨ keyname = "s" then
    match val with
    | .mapping map => yForMap doc opParseSrc map s
    | _ => nbErr "src target is not a mapping"; return .go s
  else
    nbErr s!"'op' does not implement '{keyname}'"
    return .die s

/-- `op_parse_new` -/
def opParseNew (env : Env) (doc : Document) (mapping : Pairs doc) : M (Option Op) := do
  match ← yForMap doc (opParseKey doc) mapping ⟨none, none, none, none, none⟩ with
  | .go s => opNew env s.dstFieldName s.dstStateName s.srcFieldName s.srcStateName s.srcValue
  | .die _ => return none

/-- Local variables of `rule_parse`. -/
structure RuleArgs where
  errCnt : Nat
  name : Text
  matchJQ : List Op
  writeJQ : List Op
deriving DecidableEq, Repr

/-- One item of a `match` or `write` list, with the errors and the queue so
far. An operation that could not be built is counted; the walk goes on. -/
def ruleParseItem (env : Env) (doc : Document) (item : Node doc.size) (s : Nat × List Op) :
    M (Step (Nat × List Op)) := do
  match item with
  | .mapping map =>
    match ← opParseNew env doc map with
    | some op => return .go (s.1, s.2 ++ [op])
    | none => nbErr ""; return .go (s.1 + 1, s.2)
  | _ => nbErr "'match' item not a mapping"; return .go (s.1 + 1, s.2)

def Step.state : Step σ → σ
  | .go s => s
  | .die s => s

def ruleParseKey (env : Env) (mode : ParseMode) (doc : Document) (keyname : Text)
    (val : Node doc.size) (s : RuleArgs) : M (Step RuleArgs) := do
  match val with
  | .scalar txt =>
    if keyname = "rule" ∨ keyname = "r" then return .go { s with name := txt }
    else
      nbErr s!"'rule' does not implement '{keyname}'"
      return .go { s with errCnt := s.errCnt + 1 }
  | .sequence seq =>
    if mode ≠ .add then
      nbErr "'rule' does not support parsing rule operations when not adding"
      return .go { s with errCnt := s.errCnt + 1 }
    else if keyname = "match" ∨ keyname = "m" then
      let r ← yForSeq doc (ruleParseItem env doc) seq (s.errCnt, s.matchJQ)
      return .go { s with errCnt := r.state.1, matchJQ := r.state.2 }
    else if keyname = "write" ∨ keyname = "w" then
      let r ← yForSeq doc (ruleParseItem env doc) seq (s.errCnt, s.writeJQ)
      return .go { s with errCnt := r.state.1, writeJQ := r.state.2 }
    else
      nbErr s!"'rule' does not implement '{keyname}'"
      return .go { s with errCnt := s.errCnt + 1 }
  | .mapping _ =>
    nbErr s!"'{keyname}' in rule not a scalar or sequence"
    return .die { s with errCnt := s.errCnt + 1 }

/-- `rule_parse` after the walk. -/
def ruleParseMode (env : Env) (mode : ParseMode) (s : RuleArgs) : M Nat := do
  match mode with
  | .add =>
    match ← ruleNew env s.name s.matchJQ s.writeJQ with
    | none => parseDie s.errCnt s!"could not create new rule '{s.name}'"
    | some rule => parseEmit s.errCnt (ruleEmit rule)
  | .del =>
    match ← jsGet World.ruleJS (some s.name) with
    | none => parseDie s.errCnt s!"could not get rule '{s.name}'"
    | some rule =>
      let r ← deref World.rules rule
      if r.refcnt ≠ 0 then parseDie s.errCnt s!"rule '{s.name}' still in use"
      else if (← ruleEmit rule) ≠ 0 then parseDie s.errCnt ""
      else ruleFreeAt rule; return s.errCnt
  | .prn =>
    if s.name = "" then parseEmit s.errCnt ruleEmitAll
    else
      match ← jsGet World.ruleJS (some s.name) with
      | none => return s.errCnt
      | some rule => parseEmit s.errCnt (ruleEmit rule)
  | .invalid => parseDie s.errCnt s!"unknown mode {parseModePrn mode}"

/-- `rule_parse`. The label `die` returns; the queues are not looked at there. -/
def ruleParse (env : Env) (mode : ParseMode) (doc : Document) (mapping : Pairs doc) : M Nat := do
  match ← yForMap doc (ruleParseKey env mode doc) mapping ⟨0, "", [], []⟩ with
  | .die s => return s.errCnt
  | .go s => ruleParseMode env mode s

/-- Local variables of `process_parse`. -/
structure ProcessArgs where
  errCnt : Nat
  name : Text
  routJQ : List Rout
deriving DecidableEq, Repr

/-- One `rulename: iface` pair, whatever the mode. -/
def processParsePair (keyname : Text) (val : Node n) (s : Nat × List Rout) :
    M (Step (Nat × List Rout)) := do
  match ← routNew (some keyname) val.txt with
  | some rout => return .go (s.1, s.2 ++ [rout])
  | none => nbErr ""; return .go (s.1 + 1, s.2)

def processParseItem (doc : Document) (item : Node doc.size) (s : Nat × List Rout) :
    M (Step (Nat × List Rout)) := do
  match item with
  | .mapping map => yForMap doc processParsePair map s
  | _ => nbErr "expecting 'rulename: iface' pairs"; return .go (s.1 + 1, s.2)

def processParseKey (doc : Document) (keyname : Text) (val : Node doc.size) (s : ProcessArgs) :
    M (Step ProcessArgs) := do
  match val with
  | .scalar txt =>
    if keyname = "process" ∨ keyname = "p" then return .go { s with name := txt }
    else
      nbErr s!"'process' does not implement '{keyname}'"
      return .go { s with errCnt := s.errCnt + 1 }
  | .sequence seq =>
    if keyname = "rules" ∨ keyname = "r" then
      let r ← yForSeq doc (processParseItem doc) seq (s.errCnt, s.routJQ)
      return .go { s with errCnt := r.state.1, routJQ := r.state.2 }
    else
      nbErr s!"'process' does not implement '{keyname}'"
      return .go { s with errCnt := s.errCnt + 1 }
  | .mapping _ =>
    nbErr s!"'{keyname}' in field not a scalar or sequence"
    return .die { s with errCnt := s.errCnt + 1 }

/-- `process_parse` after the walk. -/
def processParseMode (mode : ParseMode) (s : ProcessArgs) : M Nat := do
  match mode with
  | .add =>
    match ← processNew s.name s.routJQ with
    | none => parseDie s.errCnt s!"could not create process on interface '{s.name}'"
    | some process => parseEmit s.errCnt (processEmit process)
  | .del =>
    match ← jsGet World.processJS (some s.name) with
    | none => parseDie s.errCnt s!"could not get interfaces '{s.name}'"
    | some process =>
      if (← processEmit process) ≠ 0 then parseDie s.errCnt ""
      else processFreeAt process; return s.errCnt
  | .prn =>
    if s.name = "" then parseEmit s.errCnt processEmitAll
    else
      match ← jsGet World.processJS (some s.name) with
      | none => return s.errCnt
      | some process => parseEmit s.errCnt (processEmit process)
  | .invalid => parseDie s.errCnt s!"unknown mode {parseModePrn mode}"

/-- `process_parse` -/
def processParse (mode : ParseMode) (doc : Document) (mapping : Pairs doc) : M Nat := do
  match ← yForMap doc (processParseKey doc) mapping ⟨0, "", []⟩ with
  | .die s => return s.errCnt
  | .go s => processParseMode mode s

inductive Subsystem where
  | iface
  | field
  | rule
  | process
deriving DecidableEq, Repr

def subsystemOf (keyval : Text) : Option Subsystem :=
  if keyval = "iface" ∨ keyval = "i" then some .iface
  else if keyval = "field" ∨ keyval = "f" then some .field
  else if keyval = "rule" ∨ keyval = "r" then some .rule
  else if keyval = "process" ∨ keyval = "p" then some .process
  else none

def modeOf (keyname : Text) : Option ParseMode :=
  if keyname = "xdpk" ∨ keyname = "add" ∨ keyname = "a" then some .add
  else if keyname = "delete" ∨ keyname = "del" ∨ keyname = "d" then some .del
  else if keyname = "print" ∨ keyname = "prn" ∨ keyname = "p" then some .prn
  else none

/-- The parser of a subsystem. -/
def subsystemParse (env : Env) (sub : Subsystem) (mode : ParseMode) (doc : Document)
    (mapping : Pairs doc) : M Nat :=
  match sub with
  | .iface => ifaceParse env mode doc mapping
  | .field => fieldParse env mode doc mapping
  | .rule => ruleParse env mode doc mapping
  | .process => processParse mode doc mapping

/-- One child of a mode list: peek at its first pair, then hand it over. -/
def parseChild (env : Env) (mode : ParseMode) (doc : Document) (child : Node doc.size) : M Nat := do
  match child with
  | .mapping [] => throw .emptyPeek
  | .mapping ((k, v) :: pairs) =>
    let keyval ← scalarValue (doc.node k)
    match subsystemOf keyval with
    | some sub => subsystemParse env sub mode doc ((k, v) :: pairs)
    | none => nbErr s!"subsystem '{keyval}' unknown"; return 1
  | _ => nbErr "node not a map"; return 1

def parseChildren (env : Env) (mode : ParseMode) (doc : Document) :
    List (Fin doc.size) → Nat → M Nat
  | [], errCnt => return errCnt
  | child :: children, errCnt => do
    let errs ← parseChild env mode doc (doc.node child)
    parseChildren env mode doc children (errCnt + errs)

/-- The reply to a print of everything. -/
def emitAll : M Nat := do
  let i ← ifaceEmitAll
  let f ← fieldEmitAll
  let r ← ruleEmitAll
  let p ← processEmitAll
  return i + f + r + p

/-- One pair of the root: a mode and its list. -/
def parsePair (env : Env) (doc : Document) (k v : Fin doc.size) : M Nat := do
  let keyname ← scalarValue (doc.node k)
  match doc.node v with
  | .sequence items =>
    match modeOf keyname with
    | none => nbErr s!"'{keyname}' is not a valid mode"; return 1
    | some mode =>
      modify fun w => { w with outlist := [] }
      -- a print statement with an empty list means "everything"
      let errs ← if mode = .prn ∧ items = [] then emitAll else pure 0
      let errs ← parseChildren env mode doc items errs
      if ← alloc then
        modify fun w => { w with outroot := w.outroot ++ [(keyname, .sequence w.outlist)] }
        return errs
      else nbErr ""; return errs + 1
  | _ => nbErr s!"node '{keyname}' not a sequence (list)"; return 1

/-- `parse_mapping` -/
def parseMapping (env : Env) (doc : Document) : Pairs doc → M Nat
  | [] => return 0
  | (k, v) :: pairs => do
    let errs ← parsePair env doc k v
    let rest ← parseMapping env doc pairs
    return errs + rest

def Document.root (doc : Document) : Option (Node doc.size) :=
  if h : 0 < doc.size then some (doc.node ⟨0, h⟩) else none

/-- `parse` of one loaded document. A root that is not a mapping is ignored. -/
def parseDocument (env : Env) (doc : Document) : M Nat := do
  match doc.root with
  | some (.mapping pairs) => parseMapping env doc pairs
  | _ => return 0

end Xdpacket
