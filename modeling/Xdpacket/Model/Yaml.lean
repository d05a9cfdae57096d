import Xdpacket.Lib.Runs
import Xdpacket.Model.World

namespace Xdpacket

/-- A node of a loaded document of `n` nodes: the union `data`, by its type. -/
inductive Node (n : Nat) where
  | scalar (value : Text)
  | sequence (items : List (Fin n))
  | mapping (pairs : List (Fin n × Fin n))
deriving DecidableEq, Repr

/-- A document as libyaml loads it: a table of nodes that refer to each other
by index (so an alias may share a node, or close a cycle). Every index is one
of the table's; the first node is the root. -/
structure Document where
  size : Nat
  node : Fin size → Node size

abbrev Pairs (doc : Document) := List (Fin doc.size × Fin doc.size)

/-- `node->data.scalar.value` -/
def scalarValue (node : Node n) : M Text := do
  match node with
  | .scalar value => return value
  | _ => throw .badNode

/-- The `txt` of the walking macros: null unless the value is a scalar. -/
def Node.txt : Node n → Option Text
  | .scalar value => some value
  | _ => none

/-- A text of the document handed to `strcmp`, `strtol` or a store. -/
def needText (txt : Option Text) : M Text := do
  match txt with
  | some t => return t
  | none => throw .nullText

/-- How one turn of a walk ends: with the next pair, or at the label `die`. -/
inductive Step (σ : Type) where
  | go (s : σ)
  | die (s : σ)
deriving DecidableEq, Repr

/-- `Y_FOR_MAP`: the statements get the key's text, the value and the local
variables. -/
def yForMap (doc : Document) (statements : Text → Node doc.size → σ → M (Step σ)) :
    Pairs doc → σ → M (Step σ)
  | [], s => return .go s
  | (k, v) :: pairs, s => do
    let keyname ← scalarValue (doc.node k)
    match ← statements keyname (doc.node v) s with
    | .go s => yForMap doc statements pairs s
    | .die s => return .die s

/-- One turn of a walk: its statements, and the rest if they let it go on. A key that
is no text is a fault. -/
theorem yForMap_turn {E : Fault → Prop} {doc : Document}
    {statements : Text → Node doc.size → σ → M (Step σ)} {k x : Fin doc.size} {pairs : Pairs doc}
    {s : σ} {w : World} {Q : Step σ → World → Prop} (hbad : E .badNode)
    (h : ∀ key, doc.node k = .scalar key → Runs E (statements key (doc.node x) s) w (fun r v =>
      match r with
      | .go t => Runs E (yForMap doc statements pairs t) v Q
      | .die t => Q (.die t) v)) :
    Runs E (yForMap doc statements ((k, x) :: pairs) s) w Q := by
  unfold yForMap
  cases hk : doc.node k with
  | sequence items => exact hbad
  | mapping items => exact hbad
  | scalar key =>
    simp only [scalarValue, pure_bind]
    refine (h key hk).bind ?_
    intro r v hr
    cases r with
    | go t => exact hr
    | die t => exact hr

/-- `Y_FOR_SEQ` -/
def yForSeq (doc : Document) (statements : Node doc.size → σ → M (Step σ)) :
    List (Fin doc.size) → σ → M (Step σ)
  | [], s => return .go s
  | item :: items, s => do
    match ← statements (doc.node item) s with
    | .go s => yForSeq doc statements items s
    | .die s => return .die s

/-- White space of `isspace` in the C locale. -/
def isSpace (c : Char) : Bool :=
  c = ' ' || ('\t' ≤ c && c ≤ '\r')

def digitValue (c : Char) : Nat :=
  if '0' ≤ c ∧ c ≤ '9' then c.toNat - '0'.toNat
  else if 'a' ≤ c ∧ c ≤ 'z' then c.toNat - 'a'.toNat + 10
  else if 'A' ≤ c ∧ c ≤ 'Z' then c.toNat - 'A'.toNat + 10
  else 36

/-- The number that the longest prefix of digits below `base` denotes. -/
def takeDigits (base : Nat) : List Char → Nat → Nat
  | [], acc => acc
  | c :: cs, acc =>
    if digitValue c < base then takeDigits base cs (acc * base + digitValue c) else acc

/-- The base and the digits of a literal whose base is left open. -/
def detectBase (cs : List Char) : Nat × List Char :=
  match cs with
  | '0' :: x :: d :: rest =>
    if (x = 'x' ∨ x = 'X') ∧ digitValue d < 16 then (16, d :: rest) else (8, cs)
  | '0' :: _ => (8, cs)
  | _ => (10, cs)

/-- `strtol(txt, NULL, 0)` with a 64-bit `long`: the value, and whether `errno`
was set to `ERANGE`. What follows the digits is ignored. -/
def strtol (txt : Text) : Int × Bool :=
  let cs := txt.toList.dropWhile isSpace
  let (negative, cs) : Bool × List Char :=
    match cs with
    | '-' :: rest => (true, rest)
    | '+' :: rest => (false, rest)
    | _ => (false, cs)
  let (base, cs) := detectBase cs
  let n : Int := takeDigits base cs 0
  let n := if negative then -n else n
  if n < -9223372036854775808 then (-9223372036854775808, true)
  else if 9223372036854775807 < n then (9223372036854775807, true)
  else (n, false)

end Xdpacket
