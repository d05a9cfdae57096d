import Mathlib.Algebra.Order.Group.Multiset
import Xdpacket.Lib.Ledger
import Xdpacket.Lib.Registry
import Xdpacket.Model.Process

namespace Xdpacket

/-- What is held: an object with a reference count, or a value or rout set,
which has one holder for as long as it lives. -/
inductive Ref where
  | field (a : Addr)
  | memref (a : Addr)
  | rule (a : Addr)
  | iface (a : Addr)
  | rset (a : Addr)
deriving DecidableEq, Repr

/-- The reference in a pointer that may be null. -/
def holdOpt (ref : Addr → Ref) : Option Addr → Multiset Ref
  | none => 0
  | some a => {ref a}

@[simp] theorem holdOpt_none_add (ref : Addr → Ref) (live : Multiset Ref) :
    holdOpt ref none + live = live :=
  zero_add _

@[simp] theorem holdOpt_some_add (ref : Addr → Ref) (a : Addr) (live : Multiset Ref) :
    holdOpt ref (some a) + live = ref a ::ₘ live :=
  Multiset.singleton_add _ _

def Op.refs (op : Op) : Multiset Ref :=
  holdOpt .field op.dstField + holdOpt .field op.srcField + holdOpt .memref op.dst +
    holdOpt .memref op.src

def opsRefs (ops : List Op) : Multiset Ref := (ops.map Op.refs).sum

def Rule.refs (r : Rule) : Multiset Ref := opsRefs r.matchJQ + opsRefs r.writeJQ

def Rout.refs (rt : Rout) : Multiset Ref := {.rule rt.rule} + {.iface rt.output} + {.rset rt.set}

def routsRefs (rts : List Rout) : Multiset Ref := (rts.map Rout.refs).sum

def Process.refs (p : Process) : Multiset Ref := {.iface p.inIface} + routsRefs p.routJQ

@[simp] theorem opsRefs_nil : opsRefs [] = 0 := rfl

@[simp] theorem opsRefs_cons (op : Op) (ops : List Op) :
    opsRefs (op :: ops) = op.refs + opsRefs ops := by
  simp [opsRefs]

@[simp] theorem opsRefs_append (xs ys : List Op) : opsRefs (xs ++ ys) = opsRefs xs + opsRefs ys := by
  simp [opsRefs]

@[simp] theorem routsRefs_nil : routsRefs [] = 0 := rfl

@[simp] theorem routsRefs_cons (rt : Rout) (rts : List Rout) :
    routsRefs (rt :: rts) = rt.refs + routsRefs rts := by
  simp [routsRefs]

@[simp] theorem routsRefs_append (xs ys : List Rout) :
    routsRefs (xs ++ ys) = routsRefs xs + routsRefs ys := by
  simp [routsRefs]

theorem mem_opsRefs {ops : List Op} {op : Op} {x : Ref} (ho : op ∈ ops) (hx : x ∈ op.refs) :
    x ∈ opsRefs ops := by
  induction ops with
  | nil => cases ho
  | cons p ops ih =>
    rw [opsRefs_cons, Multiset.mem_add]
    rcases List.mem_cons.mp ho with he | hm
    · exact .inl (he ▸ hx)
    · exact .inr (ih hm)

theorem mem_routsRefs {rts : List Rout} {rt : Rout} {x : Ref} (hr : rt ∈ rts) (hx : x ∈ rt.refs) :
    x ∈ routsRefs rts := by
  induction rts with
  | nil => cases hr
  | cons p rts ih =>
    rw [routsRefs_cons, Multiset.mem_add]
    rcases List.mem_cons.mp hr with he | hm
    · exact .inl (he ▸ hx)
    · exact .inr (ih hm)

def Memref.count (r : Memref) : Nat :=
  match r.kind with
  | .state _ refcnt => refcnt
  | .value _ _ => 1

/-- The count an object keeps; zero at an address that holds none. -/
def World.count (w : World) : Ref → Nat
  | .field a => (w.fields a).elim 0 Field.refcnt
  | .memref a => (w.memrefs a).elim 0 Memref.count
  | .rule a => (w.rules a).elim 0 Rule.refcnt
  | .iface a => (w.ifaces a).elim 0 Iface.refcnt
  | .rset a => (w.rsets a).elim 0 (fun _ => 1)

/-- How often the rule at `a` holds `r`. -/
def World.ruleHolds (w : World) (r : Ref) (a : Addr) : Nat :=
  (w.rules a).elim 0 (fun rule => rule.refs.count r)

def World.processHolds (w : World) (r : Ref) (a : Addr) : Nat :=
  (w.processes a).elim 0 (fun p => p.refs.count r)

/-- The holders of `r` that can be reached from the stores. -/
def World.stored (w : World) (r : Ref) : Nat :=
  w.ruleJS.total (w.ruleHolds r) + w.processJS.total (w.processHolds r)

theorem World.stored_rule {w : World} {n : Text} {a : Addr} {rule : Rule} {r : Ref}
    (hl : AList.lookup n w.ruleJS = some a) (hr : w.rules a = some rule) (hm : r ∈ rule.refs) :
    0 < w.stored r := by
  have hle := NameStore.le_total (f := w.ruleHolds r) hl
  have hp : 0 < w.ruleHolds r a := by
    simp only [World.ruleHolds, hr, Option.elim_some]
    exact Multiset.count_pos.mpr hm
  unfold World.stored
  omega

theorem World.stored_process {w : World} {n : Text} {a : Addr} {p : Process} {r : Ref}
    (hl : AList.lookup n w.processJS = some a) (hp : w.processes a = some p) (hm : r ∈ p.refs) :
    0 < w.stored r := by
  have hle := NameStore.le_total (f := w.processHolds r) hl
  have hpos : 0 < w.processHolds r a := by
    simp only [World.processHolds, hp, Option.elim_some]
    exact Multiset.count_pos.mpr hm
  unfold World.stored
  omega

/-- What stays of an object whatever its count. -/
def Field.key (f : Field) : Text × FieldSet := (f.name, f.set)

def Memref.key (r : Memref) : FieldSet × Option Text := (r.set, r.stateName)

def Rule.key (r : Rule) : Text × List Op × List Op := (r.name, r.matchJQ, r.writeJQ)

def RoutSet.key (s : RoutSet) : Addr × Option Addr × Option Addr := (s.ifOut, s.matchJQ, s.writeJQ)

def Iface.key (i : Iface) : Iface := { i with refcnt := 0 }

/-- From `w` to `v` no freed object came back and none changed its key. -/
structure Grows (w v : World) : Prop where
  next : w.next ≤ v.next
  fields : Evolves w.next Field.key w.fields v.fields
  memrefs : Evolves w.next Memref.key w.memrefs v.memrefs
  rules : Evolves w.next Rule.key w.rules v.rules
  rsets : Evolves w.next RoutSet.key w.rsets v.rsets

/-- Nothing was written to a state, and each new one is zero. -/
structure Quiet (w v : World) : Prop extends Grows w v where
  bytes : Evolves w.next Memref.bytes w.memrefs v.memrefs
  zeroed : ∀ a r, w.next ≤ a → v.memrefs a = some r → r.stateName.isSome →
    r.bytes = List.replicate r.set.len.toNat 0
  written : v.written = w.written

/-- The stores and the objects in them are the same up to counts; only what is
held by them in flight may have changed. -/
structure Same (w v : World) : Prop extends Quiet w v where
  fieldKeys : SameKeys Field.key w.fields v.fields
  ruleKeys : SameKeys Rule.key w.rules v.rules
  ifaceKeys : SameKeys Iface.key w.ifaces v.ifaces
  processes : v.processes = w.processes
  fieldJS : v.fieldJS = w.fieldJS
  ruleJS : v.ruleJS = w.ruleJS
  ifaceJS : v.ifaceJS = w.ifaceJS
  processJS : v.processJS = w.processJS
  tracked : v.tracked = w.tracked

theorem Grows.refl (w : World) : Grows w w :=
  ⟨Nat.le_refl _, .refl _ _ _, .refl _ _ _, .refl _ _ _, .refl _ _ _⟩

theorem Grows.trans {w v u : World} (h : Grows w v) (h' : Grows v u) : Grows w u where
  next := Nat.le_trans h.next h'.next
  fields := h.fields.trans h.next h'.fields
  memrefs := h.memrefs.trans h.next h'.memrefs
  rules := h.rules.trans h.next h'.rules
  rsets := h.rsets.trans h.next h'.rsets

/-- No address from `next` on holds an object. -/
structure Fresh (w : World) : Prop where
  fields : FreshFrom w.next w.fields
  memrefs : FreshFrom w.next w.memrefs
  rules : FreshFrom w.next w.rules
  rsets : FreshFrom w.next w.rsets
  ifaces : FreshFrom w.next w.ifaces
  processes : FreshFrom w.next w.processes

theorem Quiet.refl {w : World} (h : Fresh w) : Quiet w w where
  toGrows := .refl w
  bytes := .refl _ _ _
  zeroed := by
    intro a r ha hr
    rw [h.memrefs a ha] at hr
    cases hr
  written := rfl

theorem Quiet.trans {w v u : World} (h : Quiet w v) (h' : Quiet v u) : Quiet w u where
  toGrows := h.toGrows.trans h'.toGrows
  bytes := h.bytes.trans h.next h'.bytes
  zeroed := by
    intro a r ha hr hs
    rcases Nat.lt_or_ge a v.next with hlt | hge
    · obtain ⟨q, hq, hb⟩ := h'.bytes a hlt r hr
      obtain ⟨q', hq', hk⟩ := h'.memrefs a hlt r hr
      rw [hq] at hq'
      cases hq'
      have hset : r.set = q.set := congrArg Prod.fst hk
      have hname : r.stateName = q.stateName := congrArg Prod.snd hk
      rw [hb, hset]
      exact h.zeroed a q ha hq (hname ▸ hs)
    · exact h'.zeroed a r hge hr hs
  written := h'.written.trans h.written

theorem Same.refl {w : World} (h : Fresh w) : Same w w where
  toQuiet := .refl h
  fieldKeys := .refl _ _
  ruleKeys := .refl _ _
  ifaceKeys := .refl _ _
  processes := rfl
  fieldJS := rfl
  ruleJS := rfl
  ifaceJS := rfl
  processJS := rfl
  tracked := rfl

theorem Same.trans {w v u : World} (h : Same w v) (h' : Same v u) : Same w u where
  toQuiet := h.toQuiet.trans h'.toQuiet
  fieldKeys := h.fieldKeys.trans h'.fieldKeys
  ruleKeys := h.ruleKeys.trans h'.ruleKeys
  ifaceKeys := h.ifaceKeys.trans h'.ifaceKeys
  processes := h'.processes.trans h.processes
  fieldJS := h'.fieldJS.trans h.fieldJS
  ruleJS := h'.ruleJS.trans h.ruleJS
  ifaceJS := h'.ifaceJS.trans h.ifaceJS
  processJS := h'.processJS.trans h.processJS
  tracked := h'.tracked.trans h.tracked

/-- The memref behind one side of an operation was made for the field set. -/
def Backed (w : World) (ref : Option Addr) (set : FieldSet) : Prop :=
  ∀ a, ref = some a → a < w.next ∧
    ∀ r, w.memrefs a = some r → r.set.len = set.len ∧ r.set.mask = set.mask

/-- The set of one side of an operation is that of its field, or of the other
side's when it has none. -/
def SetOf (w : World) (own other : Option Addr) (set : FieldSet) : Prop :=
  ∃ a, own.or other = some a ∧ a < w.next ∧ ∀ f, w.fields a = some f → f.set = set

/-- A finished operation: its raw pointers are the memrefs it holds, each made
for the set of its side, and only a state is ever written. -/
structure OpOk (w : World) (op : Op) : Prop where
  to' : op.set.to' = op.dst
  from' : op.set.from' = op.src
  dst : Backed w op.dst op.set.setTo
  src : Backed w op.src op.set.setFrom
  state : ∀ a r, op.dst = some a → w.memrefs a = some r → r.stateName.isSome
  setTo : SetOf w op.dstField op.srcField op.set.setTo
  setFrom : SetOf w op.srcField op.dstField op.set.setFrom

/-- A finished rout: its set copied the output and the roots of its rule. -/
structure RoutOk (w : World) (rt : Rout) : Prop where
  rule : rt.rule < w.next
  set : rt.set < w.next
  copied : ∀ s, w.rsets rt.set = some s → s.ifOut = rt.output ∧
    ∀ r, w.rules rt.rule = some r →
      s.matchJQ = jqRoot rt.rule r.matchJQ ∧ s.writeJQ = jqRoot rt.rule r.writeJQ

theorem Backed.mono {w v : World} {ref : Option Addr} {set : FieldSet} (h : Backed w ref set)
    (hg : Grows w v) : Backed v ref set := by
  intro a ha
  obtain ⟨hlt, hr⟩ := h a ha
  refine ⟨Nat.lt_of_lt_of_le hlt hg.next, ?_⟩
  intro r' hr'
  obtain ⟨r, hm, hk⟩ := hg.memrefs a hlt r' hr'
  have hset : r'.set = r.set := congrArg Prod.fst hk
  rw [hset]
  exact hr r hm

theorem SetOf.mono {w v : World} {own other : Option Addr} {set : FieldSet}
    (h : SetOf w own other set) (hg : Grows w v) : SetOf v own other set := by
  obtain ⟨a, ha, hlt, hf⟩ := h
  refine ⟨a, ha, Nat.lt_of_lt_of_le hlt hg.next, ?_⟩
  intro f' hf'
  obtain ⟨f, hm, hk⟩ := hg.fields a hlt f' hf'
  have hset : f'.set = f.set := congrArg Prod.snd hk
  rw [hset]
  exact hf f hm

theorem OpOk.mono {w v : World} {op : Op} (h : OpOk w op) (hg : Grows w v) : OpOk v op where
  to' := h.to'
  from' := h.from'
  dst := h.dst.mono hg
  src := h.src.mono hg
  state := by
    intro a r' ha hr'
    obtain ⟨r, hm, hk⟩ := hg.memrefs a (h.dst a ha).1 r' hr'
    have hname : r'.stateName = r.stateName := congrArg Prod.snd hk
    rw [hname]
    exact h.state a r ha hm
  setTo := h.setTo.mono hg
  setFrom := h.setFrom.mono hg

theorem RoutOk.mono {w v : World} {rt : Rout} (h : RoutOk w rt) (hg : Grows w v) : RoutOk v rt where
  rule := Nat.lt_of_lt_of_le h.rule hg.next
  set := Nat.lt_of_lt_of_le h.set hg.next
  copied := by
    intro s' hs'
    obtain ⟨s, hs, hk⟩ := hg.rsets _ h.set s' hs'
    simp only [RoutSet.key, Prod.mk.injEq] at hk
    obtain ⟨ho, hc⟩ := h.copied s hs
    refine ⟨hk.1.trans ho, ?_⟩
    intro r' hr'
    obtain ⟨r, hr, hk'⟩ := hg.rules _ h.rule r' hr'
    simp only [Rule.key, Prod.mk.injEq] at hk'
    rw [hk.2.1, hk.2.2, hk'.2.1, hk'.2.2]
    exact hc r hr

end Xdpacket
