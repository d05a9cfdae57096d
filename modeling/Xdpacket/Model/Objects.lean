import Xdpacket.Model.World

namespace Xdpacket

/-- A name as a message shows it. -/
def shown (name : Option Text) : Text := name.getD ""

/-- `field_free` of the object at `self`; an unfinished object may have no name. -/
def fieldFree (self : Addr) (name : Option Text) (refcnt : Nat) : M Unit := do
  if refcnt ≠ 0 then
    nbErr s!"field '{shown name}' free with non-zero refcnt == leak"
  else
    -- only remove from field_JS if we are there: we may be a dup
    if (← jsGet World.fieldJS name) = some self then
      modify fun w => { w with fieldJS := w.fieldJS.erase (shown name) }
    putField self none

def fieldFreeAt (a : Addr) : M Unit := do
  let f ← deref World.fields a
  fieldFree a (some f.name) f.refcnt

/-- The three `__builtin_add_overflow` checks, in their order. -/
def fieldSetOf (offt len mask : Int) : Except Text FieldSet :=
  if offt < -2147483648 ∨ 2147483647 < offt then .error s!"offt '{offt}' out of bounds"
  else if len < 0 ∨ 65535 < len then .error s!"len '{len}' out of bounds"
  else if mask < 0 ∨ 255 < mask then .error s!"mask '{mask}' out of bounds"
  else .ok ⟨Int32.ofInt offt, UInt16.ofNat len.toNat, UInt8.ofNat mask.toNat, 0⟩

/-- `field_new` -/
def fieldNew (env : Env) (name : Option Text) (offt len mask : Int) : M (Option Addr) := do
  let w ← get
  match name with
  | none => nbErr "no name given for field"; return none
  | some name =>
    if (w.fieldJS.lookup name).isSome then
      nbErr s!"field '{name}' already exists"; return none
    else
      -- a '0' mask is irrational
      let mask := if mask = 0 then 0xff else mask
      match ← calloc with
      | none => nbErr "fail alloc sz 24"; return none
      | some ret =>
        match ← env.strAlloc name MAXLINELEN with
        | .null | .inval => nbErr "string alloc fail"; fieldFree ret none 0; return none
        | .truncated copy =>
          nbErr s!"value truncated: {copy}"; fieldFree ret (some copy) 0; return none
        | .copy =>
          match fieldSetOf offt len mask with
          | .error msg => nbErr msg; fieldFree ret (some name) 0; return none
          | .ok set =>
            modify fun w => { w with fieldJS := w.fieldJS.insert name ret }
            putField ret (some ⟨name, set, 0⟩)
            return some ret

/-- `field_release` -/
def fieldRelease (field : Option Addr) : M Unit := do
  match field with
  | none => return ()
  | some a =>
    let f ← deref World.fields a
    if f.refcnt = 0 then nbErr "attempt to release 0-refcnt on field"
    else putField a (some { f with refcnt := f.refcnt - 1 })

/-- `field_get` -/
def fieldGet (name : Text) : M (Option Addr) := do
  match ← jsGet World.fieldJS (some name) with
  | none => return none
  | some a =>
    let f ← deref World.fields a
    putField a (some { f with refcnt := f.refcnt + 1 })
    return some a

def Memref.stateName (r : Memref) : Option Text :=
  match r.kind with
  | .state name _ => some name
  | .value _ _ => none

/-- `memref_release` once no reference is left. -/
def memrefFree (self : Addr) (name : Option Text) : M Unit := do
  -- only remove from state_JS if we are there
  if (← jsGet World.stateJS name) = some self then
    modify fun w => { w with stateJS := w.stateJS.erase (shown name) }
  putMemref self none

/-- `memref_release` -/
def memrefRelease (ref : Option Addr) : M Unit := do
  match ref with
  | none => return ()
  | some a =>
    let r ← deref (·.memrefs) a
    match r.kind with
    | .value _ _ => putMemref a none
    | .state name refcnt =>
      if 1 < refcnt then putMemref a (some { r with kind := .state name (refcnt - 1) })
      else memrefFree a (some name)

/-- `value_render`: `0x` and two digits for each byte. -/
def valueRender (parsed : Bytes) : Text :=
  if parsed.isEmpty then ""
  else "0x" ++ String.join (parsed.map fun b =>
    String.ofList [Nat.digitChar (b.toNat / 16), Nat.digitChar (b.toNat % 16)])

/-- The static flag of `set.flags`. -/
def MEMREF_FLAG_STATIC : UInt8 := 1

/-- `memref_value_new`. The copy of the text is not checked against null, only
`errno` is, so a null copy reaches the parser unless there is nothing to parse. -/
def memrefValueNew (env : Env) (field : Addr) (value : Text) : M (Option Addr) := do
  let f ← deref World.fields field
  match ← calloc with
  | none => nbErr s!"fail alloc size {24 + f.set.len.toNat}"; return none
  | some ret =>
    let input ← env.strAlloc value MAXVALUELEN
    if input = .null ∧ f.set.len ≠ 0 then throw .nullName
    match input with
    | .inval => nbErr ""; return none
    | .truncated copy => nbErr s!"value truncated: {copy}"; return none
    | .null | .copy =>
      match env.valueParse value f.set.len.toNat with
      | none => nbErr ""; return none
      | some parsed =>
        if ← alloc then
          let input := if input = .copy then some value else none
          putMemref ret (some
            { kind := .value input (valueRender parsed.val)
              set := { f.set with flags := f.set.flags ||| MEMREF_FLAG_STATIC }
              bytes := parsed.val
              sized := parsed.property })
          return some ret
        else nbErr ""; return none

/-- `memref_state_eq`: offsets and flags do not matter to a memref. -/
def memrefStateEq (a b : FieldSet) : Bool :=
  a.len = b.len && a.mask = b.mask

/-- A new state: all bytes zero, one reference for its creator. -/
def Memref.newState (name : Text) (set : FieldSet) : Memref :=
  { kind := .state name 1
    set := { set with flags := set.flags &&& ~~~MEMREF_FLAG_STATIC }
    bytes := List.replicate set.len.toNat 0
    sized := List.length_replicate }

/-- `memref_state_get` -/
def memrefStateGet (env : Env) (field : Addr) (stateName : Text) : M (Option Addr) := do
  let f ← deref World.fields field
  match ← jsGet World.stateJS (some stateName) with
  | some a =>
    -- if a state exists, make sure the field is the same
    let r ← deref (·.memrefs) a
    if memrefStateEq r.set f.set then
      match r.kind with
      | .state name refcnt =>
        putMemref a (some { r with kind := .state name (refcnt + 1) })
        return some a
      | .value _ _ => throw (.dangling a)
    else
      nbErr s!"field '{f.name}' does not match existing field for '{stateName}'"
      return none
  | none =>
    match ← calloc with
    | none => nbErr s!"fail alloc size {24 + f.set.len.toNat}"; return none
    | some ret =>
      match ← env.strAlloc stateName MAXLINELEN with
      | .null | .inval => nbErr "string alloc fail"; memrefFree ret none; return none
      | .truncated copy =>
        nbErr s!"value truncated: {copy}"; memrefFree ret (some copy); return none
      | .copy =>
        modify fun w => { w with stateJS := w.stateJS.insert stateName ret }
        putMemref ret (some (.newState stateName f.set))
        return some ret

def Op.zero : Op :=
  ⟨none, none, none, none, ⟨⟨0, 0, 0, 0⟩, none, ⟨0, 0, 0, 0⟩, none⟩⟩

/-- `op_free` -/
def opFree (op : Op) : M Unit := do
  fieldRelease op.dstField
  fieldRelease op.srcField
  memrefRelease op.dst
  memrefRelease op.src

/-- The exit of `op_new`: hand back what `ret` holds so far. -/
def opDie (ret : Op) (msg : Text) : M (Option Op) := do
  nbErr msg
  opFree ret
  return none

/-- A side whose field is not given is left null; an unknown field is an error. -/
def opField (name : Option Text) : M (Option (Option Addr)) := do
  match name with
  | none => return some none
  | some n =>
    match ← fieldGet n with
    | some a => return some (some a)
    | none => return none

/-- The field that a state or value of one side is made for. -/
def opMemrefField (own other : Option Addr) : M Addr := do
  match own, other with
  | some a, _ => return a
  | none, some a => return a
  | none, none => throw .nullMember

def opState (env : Env) (own other : Option Addr) (name : Option Text) :
    M (Option (Option Addr)) := do
  match name with
  | none => return some none
  | some n =>
    let field ← opMemrefField own other
    match ← memrefStateGet env field n with
    | some a => return some (some a)
    | none => return none

def opValue (env : Env) (own other : Option Addr) (value : Option Text) :
    M (Option (Option Addr)) := do
  match value with
  | none => return some none
  | some v =>
    let field ← opMemrefField own other
    match ← memrefValueNew env field v with
    | some a => return some (some a)
    | none => return none

/-- `op_new` -/
def opNew (env : Env) (dstFieldName dstStateName srcFieldName srcStateName srcValue : Option Text) :
    M (Option Op) := do
  if dstFieldName = none ∧ srcFieldName = none then
    nbErr "must provide at least one field"; return none
  else if dstFieldName = none ∧ dstStateName = none then
    nbErr "no destination specified"; return none
  else if srcFieldName = none ∧ srcStateName = none ∧ srcValue = none then
    nbErr "no source specified"; return none
  else if srcStateName ≠ none ∧ srcValue ≠ none then
    nbErr "source cannot be both a state and a value"; return none
  else if !(← alloc) then
    nbErr "fail alloc size 64"; return none
  else
    match ← opField dstFieldName with
    | none => opDie .zero s!"cannot get field '{shown dstFieldName}'"
    | some dstField =>
    match ← opField srcFieldName with
    | none => opDie { Op.zero with dstField } s!"cannot get field '{shown srcFieldName}'"
    | some srcField =>
    match ← opState env dstField srcField dstStateName with
    | none =>
      opDie { Op.zero with dstField, srcField }
        s!"cannot get destination state ref '{shown dstStateName}'"
    | some dst =>
    match ← (if srcStateName ≠ none then opState env srcField dstField srcStateName
        else opValue env srcField dstField srcValue) with
    | none =>
      opDie { Op.zero with dstField, srcField, dst }
        (if srcStateName ≠ none then s!"cannot get source state ref '{shown srcStateName}'"
          else s!"cannot parse source value '{shown srcValue}'")
    | some src =>
      let dstSet ← deref World.fields (← opMemrefField dstField srcField)
      let srcSet ← deref World.fields (← opMemrefField srcField dstField)
      return some ⟨dstField, dst, srcField, src, ⟨dstSet.set, dst, srcSet.set, src⟩⟩

end Xdpacket
