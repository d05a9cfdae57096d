import Xdpacket.Proofs.Histories

namespace Xdpacket

variable {w : World} {live : Multiset Ref} {a : Addr} {env : Env}

/-- The rule at `a` is in the store. -/
def World.StoredRule (w : World) (a : Addr) (r : Rule) : Prop :=
  AList.lookup r.name w.ruleJS = some a ∧ w.rules a = some r

/-- The process at `a` is in the store, under the name of its iface. -/
def World.StoredProcess (w : World) (a : Addr) (p : Process) : Prop :=
  ∃ i, w.ifaces p.inIface = some i ∧ AList.lookup i.name w.processJS = some a ∧
    w.processes a = some p

/-- A pointer to a field is null or leads to a field of the store. -/
def FieldAlive (w : World) (field : Option Addr) : Prop :=
  ∀ a, field = some a → ∃ f, w.fields a = some f ∧ AList.lookup f.name w.fieldJS = some a

/-- A pointer to a memref is null or leads to a value, or to a state of the store. -/
def MemrefAlive (w : World) (ref : Option Addr) : Prop :=
  ∀ a, ref = some a → ∃ r, w.memrefs a = some r ∧
    ∀ n, r.stateName = some n → AList.lookup n w.stateJS = some a

/-- Everything an operation points at is alive, and its raw pointers are the
memrefs it holds. -/
structure OpAlive (w : World) (op : Op) : Prop where
  dstField : FieldAlive w op.dstField
  srcField : FieldAlive w op.srcField
  dst : MemrefAlive w op.dst
  src : MemrefAlive w op.src
  to' : op.set.to' = op.dst
  from' : op.set.from' = op.src

/-- Everything a rout points at is alive, and its set holds the roots of its
rule's queues. -/
structure RoutAlive (w : World) (rt : Rout) : Prop where
  rule : ∃ r, w.StoredRule rt.rule r ∧ ∃ s, w.rsets rt.set = some s ∧ s.ifOut = rt.output ∧
    s.matchJQ = jqRoot rt.rule r.matchJQ ∧ s.writeJQ = jqRoot rt.rule r.writeJQ
  output : ∃ i, w.ifaces rt.output = some i ∧ AList.lookup i.name w.ifaceJS = some rt.output

/-- Two live objects never have the same name. -/
def DistinctNames (heap : Heap α) (name : α → Option Text) : Prop :=
  ∀ a b o p n, heap a = some o → heap b = some p → name o = some n → name p = some n → a = b

/-- No pointer of the stores leads to a freed object, and no count is too low. -/
structure NoDanglingReference (w : World) : Prop where
  counted : ∀ x, w.stored x ≤ w.count x
  ops : ∀ a r, w.StoredRule a r → ∀ op ∈ r.matchJQ ++ r.writeJQ, OpAlive w op
  routs : ∀ a p, w.StoredProcess a p →
    p.routSetJQ = p.routJQ.map Rout.set ∧ ∀ rt ∈ p.routJQ, RoutAlive w rt
  inputs : ∀ a p, w.StoredProcess a p →
    ∃ i, w.ifaces p.inIface = some i ∧ AList.lookup i.name w.ifaceJS = some p.inIface
  fieldNames : DistinctNames w.fields (fun f => some f.name)
  stateNames : DistinctNames w.memrefs Memref.stateName
  ruleNames : DistinctNames w.rules (fun r => some r.name)
  ifaceNames : DistinctNames w.ifaces (fun i => some i.name)
  oneProcess : ∀ a b p q, w.StoredProcess a p → w.StoredProcess b q → p.inIface = q.inIface → a = b
  handled : ∀ a i, w.ifaces a = some i →
    (i.handler.isSome ↔ ∃ b p, w.StoredProcess b p ∧ p.inIface = a)
  contexts : ∀ a i b p, w.ifaces a = some i → w.StoredProcess b p → p.inIface = a →
    i.context = jqRoot b p.routSetJQ

namespace Consistent

theorem fieldAlive (h : Consistent w live) {field : Option Addr}
    (hc : ∀ x ∈ holdOpt .field field, 0 < w.count x) : FieldAlive w field := by
  intro a ha
  subst ha
  obtain ⟨f, hf, -⟩ := field_of_count (hc _ (Multiset.mem_singleton_self _))
  exact ⟨f, hf, h.fields.listed hf rfl⟩

theorem memrefAlive (h : Consistent w live) {ref : Option Addr}
    (hc : ∀ x ∈ holdOpt .memref ref, 0 < w.count x) : MemrefAlive w ref := by
  intro a ha
  subst ha
  obtain ⟨r, hr⟩ := memref_of_count (hc _ (Multiset.mem_singleton_self _))
  exact ⟨r, hr, fun n hn => h.states.listed hr hn⟩

theorem opAlive (h : Consistent w live) {r : Rule} (hr : w.rules a = some r) {op : Op}
    (ho : op ∈ r.matchJQ ++ r.writeJQ) : OpAlive w op := by
  have hc : ∀ x ∈ op.refs, 0 < w.count x := by
    intro x hx
    apply h.rule_counted hr
    rw [Rule.refs, ← opsRefs_append]
    exact mem_opsRefs ho hx
  have hok := h.ops a r hr op ho
  simp only [Op.refs, Multiset.mem_add] at hc
  exact
    { dstField := h.fieldAlive (fun x hx => hc x (.inl (.inl (.inl hx))))
      srcField := h.fieldAlive (fun x hx => hc x (.inl (.inl (.inr hx))))
      dst := h.memrefAlive (fun x hx => hc x (.inl (.inr hx)))
      src := h.memrefAlive (fun x hx => hc x (.inr hx))
      to' := hok.to'
      from' := hok.from' }

theorem routAlive (h : Consistent w live) {p : Process} (hp : w.processes a = some p) {rt : Rout}
    (hrt : rt ∈ p.routJQ) : RoutAlive w rt := by
  have hc : ∀ x ∈ rt.refs, 0 < w.count x := by
    intro x hx
    apply h.process_counted hp
    rw [Process.refs, Multiset.mem_add]
    exact .inr (mem_routsRefs hrt hx)
  simp only [Rout.refs, Multiset.mem_add, Multiset.mem_singleton] at hc
  obtain ⟨r, hr, -⟩ := rule_of_count (hc _ (.inl (.inl rfl)))
  obtain ⟨i, hi, -⟩ := iface_of_count (hc _ (.inl (.inr rfl)))
  obtain ⟨s, hs⟩ := rset_of_count (hc _ (.inr rfl))
  obtain ⟨hout, hroots⟩ := ((h.routs a p hp).2 rt hrt).copied s hs
  exact
    { rule := ⟨r, ⟨h.rules.listed hr rfl, hr⟩, s, hs, hout, hroots r hr⟩
      output := ⟨i, hi, h.ifaces.listed hi rfl⟩ }

/-- Every live process is in the store. -/
theorem storedProcess (h : Consistent w live) {p : Process} (hp : w.processes a = some p) :
    w.StoredProcess a p := by
  obtain ⟨i, hi⟩ := Option.isSome_iff_exists.mp (h.inputs a p hp)
  exact ⟨i, hi, h.processes.listed hp (by rw [hi]; rfl), hp⟩

theorem handled (h : Consistent w live) {i : Iface} (hi : w.ifaces a = some i) :
    i.handler.isSome ↔ ∃ b p, w.StoredProcess b p ∧ p.inIface = a := by
  have hh := h.handlers a i hi
  unfold HandlerOk at hh
  constructor
  · intro hs
    obtain ⟨handler, hh'⟩ := Option.isSome_iff_exists.mp hs
    rw [hh'] at hh
    obtain ⟨b, p, hp, hin, -⟩ := hh
    exact ⟨b, p, h.storedProcess hp, hin⟩
  · intro hs
    obtain ⟨b, p, ⟨j, hj, hl, hp⟩, hin⟩ := hs
    cases hih : i.handler with
    | some handler => rfl
    | none =>
      rw [hih] at hh
      exact absurd hin (hh b p hp)

theorem noDangling (h : Consistent w live) : NoDanglingReference w where
  counted := h.balanced.stored_le
  ops := fun a r hr op ho => h.opAlive hr.2 ho
  routs := by
    intro a p hp
    obtain ⟨i, hi, hl, hp⟩ := hp
    exact ⟨(h.routs a p hp).1, fun rt hrt => h.routAlive hp hrt⟩
  inputs := by
    intro a p hp
    obtain ⟨i, hi, hl, hp⟩ := hp
    exact ⟨i, hi, h.ifaces.listed hi rfl⟩
  fieldNames := fun _ _ _ _ _ ho hp hn hm => h.fields.unique ho hp hn hm
  stateNames := fun _ _ _ _ _ ho hp hn hm => h.states.unique ho hp hn hm
  ruleNames := fun _ _ _ _ _ ho hp hn hm => h.rules.unique ho hp hn hm
  ifaceNames := fun _ _ _ _ _ ho hp hn hm => h.ifaces.unique ho hp hn hm
  oneProcess := by
    intro a b p q hp hq he
    obtain ⟨i, hi, hl, hp⟩ := hp
    obtain ⟨j, hj, hm, hq⟩ := hq
    exact h.process_unique hp hq he
  handled := fun a i hi => h.handled hi
  contexts := by
    intro a i b p hi hp hin
    obtain ⟨j, hj, hl, hp⟩ := hp
    subst hin
    exact (handler_of_process h hp hi).2

end Consistent

/-- No run uses a freed object, and none leaves a dangling reference behind. -/
theorem no_dangling_reference (env : Env) (openFds : List Nat) (oom sys : List Bool)
    (events : List Event) :
    Runs NoDangle (handleAll env events) (World.start openFds oom sys)
      (fun _ w => NoDanglingReference w) :=
  (handleAll_consistent (consistent_start openFds oom sys)).imp
    (fun _ _ h => h.choose_spec.noDangling)

end Xdpacket
