import Xdpacket.Proofs.Listings
import Xdpacket.Model.Parse

namespace Xdpacket

/-- The faults that a malformed document causes. -/
def Fault.OfDocument : Fault → Prop
  | .badNode => True
  | .emptyPeek => True
  | .nullText => True
  | _ => False

/-- The walk of a mapping meets text for each key, and values that are `good`, up to the
first pair that stops it. -/
def walkOk (doc : Document) (good stops : Text → Node doc.size → Bool) : Pairs doc → Bool
  | [] => true
  | (k, v) :: pairs =>
    match doc.node k with
    | .scalar key =>
      good key (doc.node v) && (stops key (doc.node v) || walkOk doc good stops pairs)
    | _ => false

/-- Some pair stops the walk. -/
def walkStops (doc : Document) (stops : Text → Node doc.size → Bool) (pairs : Pairs doc) : Bool :=
  pairs.any (fun p => (doc.node p.1).txt.any (fun key => stops key (doc.node p.2)))

def Node.isScalar : Node n → Bool
  | .scalar _ => true
  | _ => false

def Node.isMapping : Node n → Bool
  | .mapping _ => true
  | _ => false

def ifaceShape (doc : Document) (mapping : Pairs doc) : Bool :=
  walkOk doc (fun _ _ => true) (fun _ val => !val.isScalar) mapping

def isFieldKey (key : Text) : Bool := key = "field" || key = "f"

def isOfftKey (key : Text) : Bool := key = "offt" || key = "o"

def isLenKey (key : Text) : Bool := key = "len" || key = "l"

def isMaskKey (key : Text) : Bool := key = "mask" || key = "m"

def isNumberKey (key : Text) : Bool := isOfftKey key || isLenKey key || isMaskKey key

/-- A number needs text; one out of the range of `long` ends the walk. -/
def fieldStops (key : Text) (val : Node n) : Bool :=
  isNumberKey key && val.txt.any (fun txt => (strtol txt).2)

/-- The name that the walk leaves is text. -/
def fieldNamed (doc : Document) (mapping : Pairs doc) : Bool :=
  mapping.foldl (fun named p =>
    if (doc.node p.1).txt.any isFieldKey then (doc.node p.2).isScalar else named) true

def fieldShape (mode : ParseMode) (doc : Document) (mapping : Pairs doc) : Bool :=
  walkOk doc (fun key val => !isNumberKey key || val.isScalar) fieldStops mapping &&
    (walkStops doc fieldStops mapping || mode = .add || mode = .invalid || fieldNamed doc mapping)

def isStateKey (key : Text) : Bool := key = "state" || key = "s"

def isValueKey (key : Text) : Bool := key = "value" || key = "v"

def isDstKey (key : Text) : Bool := isFieldKey key || isStateKey key || key = "bytes"

def isSrcKey (key : Text) : Bool :=
  isFieldKey key || isStateKey key || isValueKey key || key = "bytes"

/-- The keys that a side of an operation may have. -/
def opSideKeys (key : Text) : Option (Text → Bool) :=
  if key = "dst" ∨ key = "d" then some isDstKey
  else if key = "src" ∨ key = "s" then some isSrcKey
  else none

def opGood (doc : Document) (key : Text) (val : Node doc.size) : Bool :=
  match opSideKeys key, val with
  | some known, .mapping map => walkOk doc (fun _ _ => true) (fun key _ => !known key) map
  | _, _ => true

def opStops (doc : Document) (key : Text) (val : Node doc.size) : Bool :=
  match opSideKeys key, val with
  | some known, .mapping map => walkStops doc (fun key _ => !known key) map
  | some _, _ => false
  | none, _ => true

def opShape (doc : Document) (mapping : Pairs doc) : Bool :=
  walkOk doc (opGood doc) (opStops doc) mapping

/-- An item that is a mapping has the shape. -/
def itemOk (shape : Pairs doc → Bool) (item : Node doc.size) : Bool :=
  match item with
  | .mapping map => shape map
  | _ => true

def ruleGood (mode : ParseMode) (doc : Document) (key : Text) (val : Node doc.size) : Bool :=
  match val with
  | .sequence items =>
    mode ≠ .add || (opQueueOf key).isNone || items.all (fun item => itemOk (opShape doc) (doc.node item))
  | _ => true

def ruleShape (mode : ParseMode) (doc : Document) (mapping : Pairs doc) : Bool :=
  walkOk doc (ruleGood mode doc) (fun _ val => val.isMapping) mapping

def processGood (doc : Document) (key : Text) (val : Node doc.size) : Bool :=
  match val with
  | .sequence items => !(key = "rules" || key = "r") ||
      items.all (fun item => itemOk (walkOk doc (fun _ _ => true) (fun _ _ => false)) (doc.node item))
  | _ => true

def processShape (doc : Document) (mapping : Pairs doc) : Bool :=
  walkOk doc (processGood doc) (fun _ val => val.isMapping) mapping

def subsystemShape (sub : Subsystem) (mode : ParseMode) (doc : Document) (mapping : Pairs doc) :
    Bool :=
  match sub with
  | .iface => ifaceShape doc mapping
  | .field => fieldShape mode doc mapping
  | .rule => ruleShape mode doc mapping
  | .process => processShape doc mapping

/-- A child of a mode list: if it is a mapping, then with a first pair, whose key is text. -/
def childShape (mode : ParseMode) (doc : Document) (child : Node doc.size) : Bool :=
  match child with
  | .mapping [] => false
  | .mapping ((k, v) :: pairs) =>
    match doc.node k with
    | .scalar keyval => (subsystemOf keyval).all (fun sub => subsystemShape sub mode doc ((k, v) :: pairs))
    | _ => false
  | _ => true

def pairShape (doc : Document) (k v : Fin doc.size) : Bool :=
  match doc.node k, doc.node v with
  | .scalar keyname, .sequence items =>
    (modeOf keyname).all (fun mode => items.all (fun item => childShape mode doc (doc.node item)))
  | .scalar _, _ => true
  | _, _ => false

/-- Everything that `parse_mapping` looks into has the kind that it takes for granted. -/
def mappingShape (doc : Document) (pairs : Pairs doc) : Bool :=
  pairs.all (fun p => pairShape doc p.1 p.2)

end Xdpacket
