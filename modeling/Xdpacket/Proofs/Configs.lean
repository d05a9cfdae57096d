import Xdpacket.Proofs.Calls
import Xdpacket.Proofs.Made
import Xdpacket.Proofs.Reading

namespace Xdpacket

variable {w v u : World} {live : Multiset Ref} {env : Env} {a b field : Addr} {n : Text} {op : Op}

section Texts

/-- A memref without its address and its count. -/
inductive MemrefText where
  | state (name : Text)
  | value (input : Option Text) (rendered : Text) (bytes : Bytes)
deriving DecidableEq, Repr

def Memref.text (r : Memref) : MemrefText :=
  match r.kind with
  | .state name _ => .state name
  | .value input rendered => .value input rendered r.bytes

/-- An operation with texts in place of its addresses. A reference to a freed object
would be `some none`. -/
structure OpText where
  dstField : Option (Option Text)
  dst : Option (Option MemrefText)
  srcField : Option (Option Text)
  src : Option (Option MemrefText)
  setTo : FieldSet
  to' : Option (Option MemrefText)
  setFrom : FieldSet
  from' : Option (Option MemrefText)
deriving DecidableEq, Repr

def World.fieldText (w : World) (a : Addr) : Option Text := (w.fields a).map Field.name

def World.memrefText (w : World) (a : Addr) : Option MemrefText := (w.memrefs a).map Memref.text

def World.opText (w : World) (op : Op) : OpText where
  dstField := op.dstField.map w.fieldText
  dst := op.dst.map w.memrefText
  srcField := op.srcField.map w.fieldText
  src := op.src.map w.memrefText
  setTo := op.set.setTo
  to' := op.set.to'.map w.memrefText
  setFrom := op.set.setFrom
  from' := op.set.from'.map w.memrefText

/-- The set of the stored field of a name. -/
def World.fieldNamed (w : World) (n : Text) : Option FieldSet :=
  (AList.lookup n w.fieldJS).bind (fun a => (w.fields a).map Field.set)

/-- The operations to match and to write of the stored rule of a name. -/
def World.ruleNamed (w : World) (n : Text) : Option (List OpText × List OpText) :=
  (AList.lookup n w.ruleJS).bind (fun a =>
    (w.rules a).map (fun r => (r.matchJQ.map w.opText, r.writeJQ.map w.opText)))

/-- The same fields and the same rules under the same names. -/
structure SameConfig (w v : World) : Prop where
  fields : ∀ n, v.fieldNamed n = w.fieldNamed n
  rules : ∀ n, v.ruleNamed n = w.ruleNamed n

end Texts

section Extends

/-- From `v` to `u` fields and rules stay, up to their counts, and so does every memref. -/
structure Extends (v u : World) : Prop where
  fields : SameKeys Field.key v.fields u.fields
  fieldJS : u.fieldJS = v.fieldJS
  rules : u.rules = v.rules
  ruleJS : u.ruleJS = v.ruleJS
  memrefs : ∀ a r, v.memrefs a = some r → ∃ q, u.memrefs a = some q ∧ q.text = r.text

theorem Extends.refl (v : World) : Extends v v where
  fields := .refl _ _
  fieldJS := rfl
  rules := rfl
  ruleJS := rfl
  memrefs := fun _ r hr => ⟨r, hr, rfl⟩

theorem Extends.trans {t : World} (h : Extends v u) (h' : Extends u t) : Extends v t where
  fields := h.fields.trans h'.fields
  fieldJS := h'.fieldJS.trans h.fieldJS
  rules := h'.rules.trans h.rules
  ruleJS := h'.ruleJS.trans h.ruleJS
  memrefs := by
    intro a r hr
    obtain ⟨q, hq, hk⟩ := h.memrefs a r hr
    obtain ⟨p, hp, hk'⟩ := h'.memrefs a q hq
    exact ⟨p, hp, hk'.trans hk⟩

theorem Idle.extends (h : Idle v u) : Extends v u where
  fields := by rw [h.fields]; exact .refl _ _
  fieldJS := h.fieldJS
  rules := h.rules
  ruleJS := h.ruleJS
  memrefs := by rw [h.memrefs]; exact fun _ r hr => ⟨r, hr, rfl⟩

theorem Extends.fieldText (h : Extends v u) (a : Addr) : u.fieldText a = v.fieldText a := by
  have := congrArg (Option.map Prod.fst) (h.fields a)
  rwa [Option.map_map, Option.map_map] at this

theorem Extends.fieldNamed (h : Extends v u) (n : Text) : u.fieldNamed n = v.fieldNamed n := by
  unfold World.fieldNamed
  rw [h.fieldJS]
  congr 1
  funext a
  have := congrArg (Option.map Prod.snd) (h.fields a)
  rwa [Option.map_map, Option.map_map] at this

theorem Extends.memrefText (h : Extends v u) (ha : (v.memrefs a).isSome) :
    u.memrefText a = v.memrefText a := by
  obtain ⟨r, hr⟩ := Option.isSome_iff_exists.mp ha
  obtain ⟨q, hq, hk⟩ := h.memrefs a r hr
  unfold World.memrefText
  rw [hr, hq, Option.map_some, Option.map_some, hk]

/-- The memrefs of an operation are live, and its raw pointers are these. -/
structure Holds (w : World) (op : Op) : Prop where
  to' : op.set.to' = op.dst
  from' : op.set.from' = op.src
  dst : ∀ a, op.dst = some a → (w.memrefs a).isSome
  src : ∀ a, op.src = some a → (w.memrefs a).isSome

theorem Extends.mapText (h : Extends v u) {ref : Option Addr}
    (hr : ∀ a, ref = some a → (v.memrefs a).isSome) : ref.map u.memrefText = ref.map v.memrefText := by
  cases ref with
  | none => rfl
  | some a => rw [Option.map_some, Option.map_some, h.memrefText (hr a rfl)]

theorem Extends.opText (h : Extends v u) (ho : Holds v op) : u.opText op = v.opText op := by
  have hf : u.fieldText = v.fieldText := funext h.fieldText
  unfold World.opText
  rw [ho.to', ho.from', hf, h.mapText ho.dst, h.mapText ho.src]

theorem Extends.holds (h : Extends v u) (ho : Holds v op) : Holds u op where
  to' := ho.to'
  from' := ho.from'
  dst := by
    intro a ha
    obtain ⟨r, hr⟩ := Option.isSome_iff_exists.mp (ho.dst a ha)
    obtain ⟨q, hq, -⟩ := h.memrefs a r hr
    rw [hq]
    rfl
  src := by
    intro a ha
    obtain ⟨r, hr⟩ := Option.isSome_iff_exists.mp (ho.src a ha)
    obtain ⟨q, hq, -⟩ := h.memrefs a r hr
    rw [hq]
    rfl

/-- What a stored rule holds is live. -/
theorem Consistent.holds (h : Consistent w live) {r : Rule} (hr : w.rules a = some r)
    (ho : op ∈ r.matchJQ ++ r.writeJQ) : Holds w op := by
  have hok := h.ops a r hr op ho
  have hlive : ∀ x, Ref.memref x ∈ op.refs → (w.memrefs x).isSome := by
    intro x hx
    have hmem : Ref.memref x ∈ r.refs := by
      unfold Rule.refs
      rw [← opsRefs_append]
      exact mem_opsRefs ho hx
    obtain ⟨q, hq⟩ := memref_of_count (h.rule_counted hr hmem)
    rw [hq]
    rfl
  refine ⟨hok.to', hok.from', fun x hx => hlive x ?_, fun x hx => hlive x ?_⟩
  · simp [Op.refs, holdOpt, hx]
  · simp [Op.refs, holdOpt, hx]

end Extends

section Copies

/-- A memref that is no state, or a state whose length and mask fit its name. -/
def FitsState (fits : Text → UInt16 → UInt8 → Prop) (r : Memref) : Prop :=
  ∀ s, r.stateName = some s → fits s r.set.len r.set.mask

/-- All states fit, and no allocation fails any more. -/
structure Hosts (fits : Text → UInt16 → UInt8 → Prop) (v : World) : Prop where
  consistent : ∃ live, Consistent v live
  ample : ∀ fails ∈ v.oom, fails = false
  states : ∀ a r, v.memrefs a = some r → FitsState fits r

/-- There is a state of this name, length and mask. -/
def World.hasState (w : World) (s : Text) (len : UInt16) (mask : UInt8) : Prop :=
  ∃ b q, w.memrefs b = some q ∧ q.stateName = some s ∧ q.set.len = len ∧ q.set.mask = mask

/-- `v` has the fields of `w`, and its states fit the ones there. -/
structure Copies (w v : World) : Prop extends Hosts w.hasState v where
  fields : ∀ n, v.fieldNamed n = w.fieldNamed n

variable {fits : Text → UInt16 → UInt8 → Prop}

theorem ample_head {calls : List Bool} (h : ∀ fails ∈ calls, fails = false) :
    calls.headD false = false := by
  cases calls with
  | nil => rfl
  | cons fails rest => exact h fails List.mem_cons_self

theorem ample_tail {calls : List Bool} (h : ∀ fails ∈ calls, fails = false) :
    ∀ fails ∈ calls.tail, fails = false :=
  fun fails hm => h fails (List.mem_of_mem_tail hm)

theorem Hosts.idle (h : Hosts fits v) (hi : Idle v u) (hm : ∀ fails ∈ u.oom, fails = false) :
    Hosts fits u where
  consistent := ⟨_, hi.consistent h.consistent.choose_spec⟩
  ample := hm
  states := by
    rw [hi.memrefs]
    exact h.states

/-- The fields stay in any case. -/
theorem Copies.extend (h : Copies w v) (he : Extends v u) (hu : Hosts w.hasState u) : Copies w u :=
  { hu with fields := fun n => (he.fieldNamed n).trans (h.fields n) }

/-- `field_get` of a stored field. -/
theorem fieldGet_found {f : Field} (h : Hosts fits v) (hl : AList.lookup n v.fieldJS = some a)
    (hf : v.fields a = some f) :
    ∃ u, fieldGet n v = .ok (some a, u) ∧ Extends v u ∧ Hosts fits u := by
  obtain ⟨live, hc⟩ := h.consistent
  have hget : fieldGet n v = .ok (some a,
      { v with fields := Function.update v.fields a (some { f with refcnt := f.refcnt + 1 }) }) := by
    refine bind_eq_ok.mpr ⟨some a, v, ?_, bind_eq_ok.mpr ⟨f, v, deref_ok.mpr ⟨hf, rfl⟩, rfl⟩⟩
    change (Except.ok (AList.lookup n v.fieldJS, v) : Except Fault _) = _
    rw [hl]
  have he : Extends v
      { v with fields := Function.update v.fields a (some { f with refcnt := f.refcnt + 1 }) } :=
    { Extends.refl v with fields := .modify hf rfl }
  exact ⟨_, hget, he, ⟨_, ((fieldGet_does hc).ok hget).2⟩, h.ample, h.states⟩

/-- The world with another memref. -/
def World.setMemref (v : World) (a : Addr) (r : Memref) (next : Addr) (oom : List Bool)
    (stateJS : NameStore Text) : World :=
  { v with
    next := next
    oom := oom
    stateJS := stateJS
    memrefs := Function.update v.memrefs a (some r) }

variable {r : Memref} {next : Addr} {oom : List Bool} {stateJS : NameStore Text}

theorem Extends.setMemref (ht : ∀ q, v.memrefs a = some q → r.text = q.text) :
    Extends v (v.setMemref a r next oom stateJS) where
  fields := .refl _ _
  fieldJS := rfl
  rules := rfl
  ruleJS := rfl
  memrefs := by
    intro c q hq
    by_cases hca : c = a
    · subst hca
      exact ⟨r, Function.update_self .., ht q hq⟩
    · exact ⟨q, (Function.update_of_ne hca _ _).trans hq, rfl⟩

theorem Hosts.setMemref (h : Hosts fits v) (hm : ∀ fails ∈ oom, fails = false) (hr : FitsState fits r)
    (hc : ∃ live, Consistent (v.setMemref a r next oom stateJS) live) :
    Hosts fits (v.setMemref a r next oom stateJS) where
  consistent := hc
  ample := hm
  states := live_update h.states (fun q hq => by cases hq; exact hr)

theorem setMemref_text : (v.setMemref a r next oom stateJS).memrefText a = some r.text := by
  change Option.map Memref.text (Function.update v.memrefs a (some r) a) = _
  rw [Function.update_self]
  rfl

/-- `memref_state_get` of a state that fits the field, and none else of its name does. -/
theorem memrefStateGet_fits {f : Field} (h : Hosts fits v) (hf : v.fields field = some f)
    (hfit : fits n f.set.len f.set.mask)
    (hone : ∀ len mask, fits n len mask → len = f.set.len ∧ mask = f.set.mask)
    (hcopy : env.nstralloc n MAXLINELEN = .copy) :
    ∃ a u, memrefStateGet env field n v = .ok (some a, u) ∧ Extends v u ∧ Hosts fits u ∧
      u.memrefText a = some (.state n) := by
  obtain ⟨live', hc⟩ := h.consistent
  have hjs : jsGet World.stateJS (some n) v = .ok (AList.lookup n v.stateJS, v) := rfl
  cases hl : AList.lookup n v.stateJS with
  | some a =>
    obtain ⟨r, hr, hrn⟩ := hc.states.found hl
    obtain ⟨hlen, hmask⟩ := hone _ _ (h.states a r hr n hrn)
    have heq : memrefStateEq r.set f.set = true := by
      simp only [memrefStateEq, Bool.and_eq_true, decide_eq_true_eq]
      exact ⟨hlen, hmask⟩
    cases hk : r.kind with
    | value input rendered =>
      unfold Memref.stateName at hrn
      rw [hk] at hrn
      cases hrn
    | state name c =>
      have hname : name = n := by
        unfold Memref.stateName at hrn
        rw [hk] at hrn
        exact Option.some.inj hrn
      subst hname
      have hget : memrefStateGet env field name v = .ok (some a,
          v.setMemref a { r with kind := .state name (c + 1) } v.next v.oom v.stateJS) := by
        refine bind_eq_ok.mpr ⟨f, v, deref_ok.mpr ⟨hf, rfl⟩, bind_eq_ok.mpr ⟨some a, v, ?_, ?_⟩⟩
        · rw [hjs, hl]
        · refine bind_eq_ok.mpr ⟨r, v, deref_ok.mpr ⟨hr, rfl⟩, ?_⟩
          rw [if_pos heq, hk]
          rfl
      have ht : ∀ q, v.memrefs a = some q →
          Memref.text { r with kind := .state name (c + 1) } = q.text := by
        intro q hq
        rw [hr] at hq
        cases hq
        unfold Memref.text
        rw [hk]
      have hold : FitsState fits { r with kind := .state name (c + 1) } := by
        intro s hs
        cases hs
        exact h.states a r hr name hrn
      exact ⟨a, _, hget, .setMemref ht,
        h.setMemref h.ample hold ⟨_, ((memrefStateGet_does hc hf).ok hget).2.1⟩, setMemref_text⟩
  | none =>
    have hget : memrefStateGet env field n v = .ok (some v.next, v.setMemref v.next
        (.newState n f.set) (v.next + 1) v.oom.tail.tail (v.stateJS.insert n v.next)) := by
      refine bind_eq_ok.mpr ⟨f, v, deref_ok.mpr ⟨hf, rfl⟩, bind_eq_ok.mpr ⟨none, v, ?_, ?_⟩⟩
      · rw [hjs, hl]
      · refine bind_eq_ok.mpr ⟨_, _, calloc_grants (ample_head h.ample), ?_⟩
        refine bind_eq_ok.mpr ⟨_, _, strAlloc_grants (ample_head (ample_tail h.ample)), ?_⟩
        rw [hcopy]
        rfl
    have ht : ∀ q, v.memrefs v.next = some q → (Memref.newState n f.set).text = q.text := by
      intro q hq
      rw [hc.fresh.memrefs _ (Nat.le_refl _)] at hq
      cases hq
    have hnew : FitsState fits (.newState n f.set) := by
      intro s hs
      cases hs
      exact hfit
    exact ⟨_, _, hget, .setMemref ht, h.setMemref (ample_tail (ample_tail h.ample)) hnew
      ⟨_, ((memrefStateGet_does hc hf).ok hget).2.1⟩, setMemref_text⟩

/-- `memref_value_new` of a text that can be copied and parsed. -/
theorem memrefValueNew_parsed {f : Field} {input : Text} {parsed} (h : Hosts fits v)
    (hf : v.fields field = some f) (hcopy : env.nstralloc input MAXVALUELEN = .copy)
    (hp : env.valueParse input f.set.len.toNat = some parsed) :
    ∃ a u, memrefValueNew env field input v = .ok (some a, u) ∧ Extends v u ∧ Hosts fits u ∧
      u.memrefText a = some (.value (some input) (valueRender parsed.val) parsed.val) := by
  obtain ⟨live', hc⟩ := h.consistent
  have hget : memrefValueNew env field input v = .ok (some v.next, v.setMemref v.next
      { kind := .value (some input) (valueRender parsed.val)
        set := { f.set with flags := f.set.flags ||| MEMREF_FLAG_STATIC }
        bytes := parsed.val
        sized := parsed.property }
      (v.next + 1) v.oom.tail.tail.tail v.stateJS) := by
    refine bind_eq_ok.mpr ⟨f, v, deref_ok.mpr ⟨hf, rfl⟩, ?_⟩
    refine bind_eq_ok.mpr ⟨_, _, calloc_grants (ample_head h.ample), ?_⟩
    refine bind_eq_ok.mpr ⟨_, _, strAlloc_grants (ample_head (ample_tail h.ample)), ?_⟩
    have hnull : ¬ (env.nstralloc input MAXVALUELEN = .null ∧ f.set.len ≠ 0) := by
      rw [hcopy]
      intro hc
      cases hc.1
    rw [if_neg hnull, hcopy]
    simp only [hp]
    refine bind_eq_ok.mpr ⟨true, _, alloc_grants (ample_head (ample_tail (ample_tail h.ample))), ?_⟩
    rfl
  have ht : ∀ q, v.memrefs v.next = some q → Memref.text
      { kind := .value (some input) (valueRender parsed.val)
        set := { f.set with flags := f.set.flags ||| MEMREF_FLAG_STATIC }
        bytes := parsed.val
        sized := parsed.property } = q.text := by
    intro q hq
    rw [hc.fresh.memrefs _ (Nat.le_refl _)] at hq
    cases hq
  exact ⟨_, _, hget, .setMemref ht,
    h.setMemref (ample_tail (ample_tail (ample_tail h.ample))) (fun s hs => (by cases hs))
      ⟨_, ((memrefValueNew_does hc hf).ok hget).2.1⟩, setMemref_text⟩

end Copies

section Operations

/-- The field at `b` is what the one at `a` is in `w`, up to its count. -/
def FieldLike (w v : World) (a b : Addr) : Prop :=
  ∃ f g, w.fields a = some f ∧ v.fields b = some g ∧ g.key = f.key

theorem FieldLike.extend (h : FieldLike w v a b) (he : Extends v u) : FieldLike w u a b := by
  obtain ⟨f, g, hf, hg, hk⟩ := h
  obtain ⟨g', hg', hk'⟩ := he.fields.live hg
  exact ⟨f, g', hf, hg', hk'.trans hk⟩

theorem FieldLike.text (h : FieldLike w v a b) : v.fieldText b = w.fieldText a := by
  obtain ⟨f, g, hf, hg, hk⟩ := h
  unfold World.fieldText
  rw [hf, hg, Option.map_some, Option.map_some]
  exact congrArg some (congrArg Prod.fst hk)

theorem Copies.finds (h : Copies w v) (hw : Consistent w live) {f : Field}
    (hf : w.fields a = some f) : ∃ b g, AList.lookup f.name v.fieldJS = some b ∧
      v.fields b = some g ∧ g.key = f.key := by
  obtain ⟨live', hc⟩ := h.consistent
  have hn : v.fieldNamed f.name = some f.set := by
    rw [h.fields]
    unfold World.fieldNamed
    rw [hw.fields.listed hf rfl, Option.bind_some, hf, Option.map_some]
  obtain ⟨b, hl, hb⟩ := Option.bind_eq_some_iff.mp hn
  obtain ⟨g, hg, hset⟩ := Option.map_eq_some_iff.mp hb
  obtain ⟨g', hg', hname⟩ := hc.fields.found hl
  rw [hg] at hg'
  cases hg'
  exact ⟨b, g, hl, hg, Prod.ext (Option.some.inj hname) hset⟩

theorem opField_copies {ref : Option Addr} {name : Option Text} (h : Copies w v)
    (hw : Consistent w live) (hn : ref.map w.fieldText = name.map some) :
    ∃ r u, opField name v = .ok (some r, u) ∧ Extends v u ∧ Copies w u ∧
      Option.Rel (FieldLike w u) ref r := by
  cases name with
  | none =>
    have hnone := Option.map_eq_none_iff.mp hn
    subst hnone
    exact ⟨none, v, rfl, .refl v, h, .none⟩
  | some n =>
    obtain ⟨a, rfl, ha⟩ := Option.map_eq_some_iff.mp hn
    obtain ⟨f, hf, rfl⟩ := Option.map_eq_some_iff.mp ha
    obtain ⟨b, g, hl, hg, hk⟩ := h.finds hw hf
    obtain ⟨u, hget, he, hu⟩ := fieldGet_found h.toHosts hl hg
    refine ⟨some b, u, bind_eq_ok.mpr ⟨some b, u, hget, rfl⟩, he, h.extend he hu, .some ?_⟩
    exact FieldLike.extend ⟨f, g, hf, hg, hk⟩ he

theorem fieldLike_extend {own own' : Option Addr} (h : Option.Rel (FieldLike w v) own own')
    (he : Extends v u) : Option.Rel (FieldLike w u) own own' := by
  cases h with
  | some h => exact .some (h.extend he)
  | none => exact .none

theorem fieldLike_text {own own' : Option Addr} (h : Option.Rel (FieldLike w v) own own') :
    own'.map v.fieldText = own.map w.fieldText := by
  cases h with
  | some h => rw [Option.map_some, Option.map_some, h.text]
  | none => rfl

/-- The field that governs one side of a copied operation. -/
theorem side_copied {own other own' other' : Option Addr} {set : FieldSet}
    (hs : SetOf w own other set) (ho : Option.Rel (FieldLike w v) own own')
    (ht : Option.Rel (FieldLike w v) other other') :
    ∃ b g, own'.or other' = some b ∧ v.fields b = some g ∧ g.set = set := by
  obtain ⟨a, ha, -, hset⟩ := hs
  have hlike : ∃ b, own'.or other' = some b ∧ FieldLike w v a b := by
    cases ho with
    | some hab =>
      cases ha
      exact ⟨_, rfl, hab⟩
    | none =>
      cases ht with
      | some hab =>
        cases ha
        exact ⟨_, rfl, hab⟩
      | none => cases ha
  obtain ⟨b, hb, f, g, hf, hg, hk⟩ := hlike
  exact ⟨b, g, hb, hg, (congrArg Prod.snd hk).trans (hset f hf)⟩

theorem opState_copies {own other ref : Option Addr} {name : Option Text} {g : Field}
    (h : Copies w v) (hw : Consistent w live) (hm : Made env w) (hs : own.or other = some field)
    (hg : v.fields field = some g) (hb : Backed w ref g.set)
    (hn : ref.map w.memrefText = name.map (fun n => some (.state n))) :
    ∃ r u, opState env own other name v = .ok (some r, u) ∧ Extends v u ∧ Copies w u ∧
      r.map u.memrefText = ref.map w.memrefText := by
  cases name with
  | none =>
    have hnone := Option.map_eq_none_iff.mp hn
    subst hnone
    exact ⟨none, v, rfl, .refl v, h, rfl⟩
  | some n =>
    obtain ⟨a, rfl, ha⟩ := Option.map_eq_some_iff.mp hn
    obtain ⟨q, hq, htext⟩ := Option.map_eq_some_iff.mp ha
    have hkind : ∃ c, q.kind = .state n c := by
      unfold Memref.text at htext
      cases hk : q.kind with
      | value input rendered =>
        rw [hk] at htext
        cases htext
      | state name c =>
        rw [hk] at htext
        cases htext
        exact ⟨c, rfl⟩
    obtain ⟨c, hk⟩ := hkind
    have hname : q.stateName = some n := by
      unfold Memref.stateName
      rw [hk]
    have hcopy : env.nstralloc n MAXLINELEN = .copy := by
      have := hm.memrefs a q hq
      unfold MemrefMade at this
      rwa [hk] at this
    have hone : ∀ len mask, w.hasState n len mask → len = g.set.len ∧ mask = g.set.mask := by
      intro len mask hset
      obtain ⟨c, p, hp, hpn, hlen, hmask⟩ := hset
      obtain rfl := hw.states.unique hq hp hname hpn
      obtain rfl := Option.some.inj (hq.symm.trans hp)
      exact ⟨hlen.symm.trans ((hb a rfl).2 q hq).1, hmask.symm.trans ((hb a rfl).2 q hq).2⟩
    obtain ⟨b, u, hget, he, hu, hut⟩ := memrefStateGet_fits h.toHosts hg
      ⟨a, q, hq, hname, (hb a rfl).2 q hq⟩ hone hcopy
    refine ⟨some b, u, ?_, he, h.extend he hu, ?_⟩
    · unfold opState
      simp only [opMemrefField_eq hs, pure_bind]
      exact bind_eq_ok.mpr ⟨some b, u, hget, rfl⟩
    · rw [Option.map_some, Option.map_some, hut, ha]

theorem opValue_copies {own other ref : Option Addr} {input rendered : Text} {bytes : Bytes}
    {g : Field} (h : Copies w v) (hm : Made env w) (hs : own.or other = some field)
    (hg : v.fields field = some g) (hb : Backed w ref g.set)
    (hn : ref.map w.memrefText = some (some (.value (some input) rendered bytes))) :
    ∃ r u, opValue env own other (some input) v = .ok (some r, u) ∧ Extends v u ∧ Copies w u ∧
      r.map u.memrefText = ref.map w.memrefText := by
  obtain ⟨a, rfl, ha⟩ := Option.map_eq_some_iff.mp hn
  obtain ⟨q, hq, htext⟩ := Option.map_eq_some_iff.mp ha
  unfold Memref.text at htext
  cases hk : q.kind with
  | state name c =>
    rw [hk] at htext
    cases htext
  | value input' rendered' =>
    rw [hk] at htext
    cases htext
    have hmade := hm.memrefs a q hq
    unfold MemrefMade at hmade
    rw [hk] at hmade
    obtain ⟨hcopy, hparse⟩ := hmade
    rw [((hb a rfl).2 q hq).1] at hparse
    obtain ⟨parsed, hp, hbytes, hrendered⟩ := hparse
    obtain ⟨b, u, hget, he, hu, hut⟩ := memrefValueNew_parsed h.toHosts hg hcopy hp
    refine ⟨some b, u, ?_, he, h.extend he hu, ?_⟩
    · unfold opValue
      simp only [opMemrefField_eq hs, pure_bind]
      exact bind_eq_ok.mpr ⟨some b, u, hget, rfl⟩
    · rw [Option.map_some, Option.map_some, hut, ha, hbytes, hrendered]

/-- The texts that a source other than a field is made from. -/
inductive SrcNamed : Option (Option MemrefText) → Option Text → Option Text → Prop where
  | none : SrcNamed none none none
  | state (name : Text) : SrcNamed (some (some (.state name))) (some name) none
  | value (input rendered : Text) (bytes : Bytes) :
      SrcNamed (some (some (.value (some input) rendered bytes))) none (some input)

theorem opSrc_copies {own other ref : Option Addr} {ss sv : Option Text} {g : Field}
    (h : Copies w v) (hw : Consistent w live) (hm : Made env w) (hs : own.or other = some field)
    (hg : v.fields field = some g) (hb : Backed w ref g.set)
    (hn : SrcNamed (ref.map w.memrefText) ss sv) :
    ∃ r u, (if ss ≠ none then opState env own other ss else opValue env own other sv) v =
      .ok (some r, u) ∧ Extends v u ∧ Copies w u ∧ r.map u.memrefText = ref.map w.memrefText := by
  generalize ht : ref.map w.memrefText = text at hn
  cases hn with
  | none =>
    have hnone := Option.map_eq_none_iff.mp ht
    subst hnone
    exact ⟨none, v, rfl, .refl v, h, rfl⟩
  | state name =>
    have hst : ref.map w.memrefText = (some name).map (fun n => some (.state n)) := ht
    rw [← ht]
    exact opState_copies h hw hm hs hg hb hst
  | value input rendered bytes =>
    rw [← ht]
    exact opValue_copies h hm hs hg hb ht

/-- The texts that an operation was made from. -/
structure OpNamed (w : World) (op : Op) (s : OpArgs) : Prop where
  dstField : op.dstField.map w.fieldText = s.dstFieldName.map some
  dst : op.dst.map w.memrefText = s.dstStateName.map (fun n => some (.state n))
  srcField : op.srcField.map w.fieldText = s.srcFieldName.map some
  src : SrcNamed (op.src.map w.memrefText) s.srcStateName s.srcValue

theorem map_none_iff {α β γ : Type} {x : Option α} {y : Option β} {f : α → γ} {g : β → γ}
    (h : x.map f = y.map g) : x = none ↔ y = none := by
  rw [← Option.map_eq_none_iff (f := f), h, Option.map_eq_none_iff]

theorem SrcNamed.none_iff {text : Option (Option MemrefText)} {ss sv : Option Text}
    (h : SrcNamed text ss sv) : text = .none ↔ ss = .none ∧ sv = .none := by
  cases h <;> simp

theorem SrcNamed.one {text : Option (Option MemrefText)} {ss sv : Option Text}
    (h : SrcNamed text ss sv) : ¬ (ss ≠ .none ∧ sv ≠ .none) := by
  cases h <;> simp

/-- The texts of a live operation pass the checks of `op_new`. -/
theorem OpNamed.plausible {s : OpArgs} (h : OpNamed w op s) (ho : OpOk w op) (hc : op.Complete) :
    s.Plausible where
  field := by
    rw [← map_none_iff h.dstField, ← map_none_iff h.srcField]
    intro hn
    obtain ⟨a, ha, -⟩ := ho.setTo
    rw [hn.1, hn.2] at ha
    cases ha
  dst := by
    rw [← map_none_iff h.dstField, ← map_none_iff h.dst]
    intro hn
    have := hc.1
    rw [hn.1, hn.2] at this
    simp at this
  src := by
    rw [← map_none_iff h.srcField, ← h.src.none_iff, Option.map_eq_none_iff]
    intro hn
    have := hc.2
    rw [hn.1, hn.2] at this
    simp at this
  one := h.src.one

theorem live_of_text {ref : Option Addr} (h : ref.map w.memrefText ≠ some none) :
    ∀ a, ref = some a → (w.memrefs a).isSome := by
  intro a ha
  subst ha
  cases hr : w.memrefs a with
  | some r => rfl
  | none =>
    refine absurd ?_ h
    rw [Option.map_some]
    unfold World.memrefText
    rw [hr]
    rfl

theorem OpNamed.dst_whole {s : OpArgs} (h : OpNamed w op s) : op.dst.map w.memrefText ≠ some none := by
  rw [h.dst]
  cases s.dstStateName <;> simp

theorem SrcNamed.whole {text : Option (Option MemrefText)} {ss sv : Option Text}
    (h : SrcNamed text ss sv) : text ≠ some .none := by
  cases h <;> simp

/-- `op_new` whose parts all succeed. -/
theorem opNew_makes {s : OpArgs} {dstField srcField dst src : Option Addr} {v₁ v₂ v₃ : World}
    {f g : Field} (hp : s.Plausible) (hm : v.oom.headD false = false)
    (hdf : opField s.dstFieldName { v with oom := v.oom.tail } = .ok (some dstField, v₁))
    (hsf : opField s.srcFieldName v₁ = .ok (some srcField, v₂))
    (hd : opState env dstField srcField s.dstStateName v₂ = .ok (some dst, v₃))
    (hs : (if s.srcStateName ≠ none then opState env srcField dstField s.srcStateName
      else opValue env srcField dstField s.srcValue) v₃ = .ok (some src, u))
    (ha : dstField.or srcField = some a) (hb : srcField.or dstField = some b)
    (hf : u.fields a = some f) (hg : u.fields b = some g) :
    opNew env s.dstFieldName s.dstStateName s.srcFieldName s.srcStateName s.srcValue v =
      .ok (some ⟨dstField, dst, srcField, src, ⟨f.set, dst, g.set, src⟩⟩, u) := by
  unfold opNew
  rw [if_neg hp.field, if_neg hp.dst, if_neg hp.src, if_neg hp.one]
  refine bind_eq_ok.mpr ⟨true, _, alloc_grants hm, ?_⟩
  refine bind_eq_ok.mpr ⟨_, _, hdf, bind_eq_ok.mpr ⟨_, _, hsf, bind_eq_ok.mpr ⟨_, _, hd, ?_⟩⟩⟩
  refine bind_eq_ok.mpr ⟨_, _, hs, ?_⟩
  simp only [opMemrefField_eq ha, opMemrefField_eq hb, pure_bind]
  refine bind_eq_ok.mpr ⟨f, u, deref_ok.mpr ⟨hf, rfl⟩, ?_⟩
  exact bind_eq_ok.mpr ⟨g, u, deref_ok.mpr ⟨hg, rfl⟩, rfl⟩

/-- `op_new` with the texts of an operation of `w` makes one of the same texts. -/
theorem opNew_copies {s : OpArgs} (h : Copies w v) (hw : Consistent w live) (hm : Made env w)
    (ho : OpOk w op) (hc : op.Complete) (hn : OpNamed w op s) :
    ∃ op' u, opNew env s.dstFieldName s.dstStateName s.srcFieldName s.srcStateName s.srcValue v =
      .ok (some op', u) ∧ Extends v u ∧ Copies w u ∧ u.opText op' = w.opText op ∧ Holds u op' := by
  have hp := hn.plausible ho hc
  have hidle : Idle v { v with oom := v.oom.tail } := { Idle.refl v with next := Nat.le_refl _ }
  have h₀ := h.extend hidle.extends (h.toHosts.idle hidle (ample_tail h.ample))
  obtain ⟨dstField, v₁, hr₁, he₁, h₁, hdf⟩ := opField_copies h₀ hw hn.dstField
  obtain ⟨srcField, v₂, hr₂, he₂, h₂, hsf⟩ := opField_copies h₁ hw hn.srcField
  have hdf := fieldLike_extend hdf he₂
  obtain ⟨b, g, hb, hg, hgs⟩ := side_copied ho.setTo hdf hsf
  obtain ⟨c, k, hcs, hk, hks⟩ := side_copied ho.setFrom hsf hdf
  obtain ⟨dst, v₃, hr₃, he₃, h₃, hdt⟩ :=
    opState_copies h₂ hw hm hb hg (by rw [hgs]; exact ho.dst) hn.dst
  obtain ⟨k₃, hk₃, hkk⟩ := he₃.fields.live hk
  have hks₃ : k₃.set = op.set.setFrom := (congrArg Prod.snd hkk).trans hks
  obtain ⟨src, u, hr₄, he₄, hu, hst⟩ :=
    opSrc_copies h₃ hw hm hcs hk₃ (by rw [hks₃]; exact ho.src) hn.src
  obtain ⟨g₄, hg₄, hgk⟩ := (he₃.trans he₄).fields.live hg
  obtain ⟨k₄, hk₄, hkk₄⟩ := he₄.fields.live hk₃
  have hgs₄ : g₄.set = op.set.setTo := (congrArg Prod.snd hgk).trans hgs
  have hks₄ : k₄.set = op.set.setFrom := (congrArg Prod.snd hkk₄).trans hks₃
  refine ⟨⟨dstField, dst, srcField, src, ⟨g₄.set, dst, k₄.set, src⟩⟩, u,
    opNew_makes hp (ample_head h.ample) hr₁ hr₂ hr₃ hr₄ hb hcs hg₄ hk₄, ?_, hu, ?_, ?_⟩
  · exact hidle.extends.trans (he₁.trans (he₂.trans (he₃.trans he₄)))
  · have hlive := live_of_text (by rw [hdt]; exact hn.dst_whole)
    unfold World.opText
    rw [ho.to', ho.from']
    simp only [fieldLike_text (fieldLike_extend hdf (he₃.trans he₄)),
      fieldLike_text (fieldLike_extend hsf (he₃.trans he₄)), he₄.mapText hlive, hdt, hst, hgs₄, hks₄]
  · refine ⟨rfl, rfl, ?_, live_of_text (by rw [hst]; exact hn.src.whole)⟩
    have hlive := live_of_text (by rw [hdt]; exact hn.dst_whole)
    exact live_of_text (by rw [he₄.mapText hlive, hdt]; exact hn.dst_whole)

end Operations

end Xdpacket
