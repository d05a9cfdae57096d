import Xdpacket.Proofs.Compliance
import Xdpacket.Proofs.Unnoticed

namespace Xdpacket

variable {w v : World} {env : Env} {doc : Document} {mode : ParseMode} {name : Text}

/-- In every reachable state the parser reads the document only as what it is, and reports an error
where it, or what it hands on, comes to a node of a wrong kind. -/
def Call.Answers (c : Call doc) : Prop := ∀ env w, Reachable env w →
  Runs (fun e => ¬ e.OfDocument) (c.errors env) w (fun errs _ => c.malformed = true → errs ≠ 0)

section Enough

/-- Without the faults that a document causes, everything may happen. -/
instance tidy : SocketFree env (fun e => ¬ e.OfDocument) (fun _ => True) where
  dangling := fun _ h => h
  nullName := fun h => h
  nullMember := fun h => h
  beyond := fun _ _ => trivial
  forgetField := fun _ _ => trivial
  forgetMemref := fun _ _ => trivial
  forgetRule := fun _ _ => trivial
  makeField := fun _ _ _ => trivial
  makeMemref := fun _ _ _ => trivial
  makeRule := fun _ _ _ => trivial
  countField := fun _ _ _ => trivial
  countState := fun _ _ _ _ => trivial
  countRule := fun _ _ _ => trivial
  changeIface := fun _ _ _ _ => trivial
  sockets := fun _ _ _ _ => trivial

theorem tidy_runs (env : Env) (m : M α) [h : Obeys env (fun e => ¬ e.OfDocument) (fun _ => True) m]
    (w : World) : Runs (fun e => ¬ e.OfDocument) m w (fun _ _ => True) :=
  h.keeps.runs trivial

/-- Below the parsers nothing is taken from a document on trust. -/
theorem trusted_tidy : Trusted env (fun e => ¬ e.OfDocument) (fun _ => True)
    (fun q => ∀ op ∈ q, op.Complete) (fun _ => True) where
  idle := fun _ _ _ _ _ => trivial
  noOps := fun _ ho => (by cases ho)
  noRouts := trivial
  alloc := fun w _ => tidy_runs env _ w
  emitAll := fun w _ => tidy_runs env _ w
  opNew := by
    intro _ _ _ _ _ w _
    refine (Obeys.opNew_keeps (P := tidy.toPolicy) w trivial).imp ?_
    intro r v hr
    refine ⟨trivial, fun q hq op ho => ?_⟩
    rcases List.mem_append.mp ho with ho | ho
    · exact hq op ho
    · exact hr.2 op (Option.mem_toList.mp ho)
  routNew := fun _ _ w _ => (tidy_runs env _ w).imp (fun _ _ _ => ⟨trivial, fun _ _ => trivial⟩)
  field := fun _ _ _ _ hn => (Obeys.fieldParseMode (P := tidy.toPolicy) hn).keeps.runs trivial
  iface := fun _ _ w _ => tidy_runs env _ w
  rule := by
    intro _ s w _ hm hw
    refine (Obeys.ruleParseMode (P := tidy.toPolicy) ?_).keeps.runs trivial
    intro op ho
    rcases List.mem_append.mp ho with ho | ho
    · exact hm op ho
    · exact hw op ho
  process := fun _ _ w _ _ => tidy_runs env _ w

end Enough

section Needed

/-- Nothing is stored, and memory does not run out. -/
structure Bare (w : World) : Prop where
  fields : w.fieldJS = ∅
  rules : w.ruleJS = ∅
  ifaces : w.ifaceJS = ∅
  processes : w.processJS = ∅
  memory : w.oom = []

/-- An environment in which every name is too long, so that nothing gets stored. -/
def Env.wordy : Env := { Env.sample with nstralloc := fun name _ => .truncated name }

namespace Bare

variable {E : Fault → Prop} {js : World → NameStore Text} {α : Type} {k : Option Addr → M α}
  {Q : α → World → Prop}

/-- A bare world knows no name. -/
theorem jsGet (hjs : js w = ∅) (h : Runs E (k none) w Q) :
    Runs E (jsGet js (some name) >>= k) w Q := by
  simp only [Xdpacket.jsGet, Runs.bind_iff, Runs.get_iff, Runs.pure_iff, hjs, AList.lookup_empty]
  exact h

theorem fieldGet (hb : Bare w) (h : Runs E (k none) w Q) : Runs E (fieldGet name >>= k) w Q :=
  Runs.bind_iff.mpr (jsGet hb.fields h)

theorem ruleGet (hb : Bare w) (h : Runs E (k none) w Q) : Runs E (ruleGet name >>= k) w Q :=
  Runs.bind_iff.mpr (jsGet hb.rules h)

theorem alloc (hb : Bare w) {k : Bool → M α} (h : Runs E (k true) w Q) :
    Runs E (alloc >>= k) w Q := by
  simp only [Xdpacket.alloc, Runs.bind_iff, Runs.modifyGet_iff, hb.memory]
  exact h

theorem say (hb : Bare w) (msg : Text) : Bare { w with log := w.log ++ [msg] } :=
  ⟨hb.fields, hb.rules, hb.ifaces, hb.processes, hb.memory⟩

theorem die (hb : Bare w) {errCnt : Nat} {msg : Text} :
    Runs E (parseDie errCnt msg) w (fun _ v => Bare v) :=
  hb.say msg

theorem emitAll (hb : Bare w) : Runs E emitAll w (fun _ v => Bare v) := by
  have hnone : jsAddrs (∅ : NameStore Text) = [] := rfl
  simp only [Xdpacket.emitAll, ifaceEmitAll, fieldEmitAll, ruleEmitAll, processEmitAll,
    Runs.bind_iff, Runs.get_iff, Runs.pure_iff, hb.fields, hb.rules, hb.ifaces, hb.processes, hnone,
    emitEach]
  exact hb

theorem opNew (hb : Bare w) {df ds sf ss sv : Option Text} :
    Runs E (opNew .wordy df ds sf ss sv) w (fun r v => Bare v ∧ r = none) := by
  have hsay : ∀ {msg : Text}, Runs E (nbErr msg >>= fun _ => pure none : M (Option Op)) w
      (fun r v => Bare v ∧ r = none) := fun {msg} => ⟨hb.say msg, rfl⟩
  have hfree : ∀ {msg : Text}, Runs E (opDie .zero msg) w (fun r v => Bare v ∧ r = none) :=
    fun {msg} => ⟨hb.say msg, rfl⟩
  unfold Xdpacket.opNew
  split
  · exact hsay
  rename_i hfields
  split
  · exact hsay
  split
  · exact hsay
  split
  · exact hsay
  refine hb.alloc ?_
  cases df with
  | some n => exact Runs.bind_iff.mpr (hb.fieldGet hfree)
  | none =>
    cases sf with
    | some n =>
      have hd : opField none = pure (some none) := rfl
      rw [hd, pure_bind]
      exact Runs.bind_iff.mpr (hb.fieldGet hfree)
    | none => exact absurd ⟨rfl, rfl⟩ hfields

theorem routNew (hb : Bare w) {rule out : Option Text} :
    Runs E (routNew rule out) w (fun r v => Bare v ∧ r = none) := by
  have hsay : ∀ {msg : Text}, Runs E (nbErr msg >>= fun _ => pure none : M (Option Rout)) w
      (fun r v => Bare v ∧ r = none) := fun {msg} => ⟨hb.say msg, rfl⟩
  unfold Xdpacket.routNew
  cases rule with
  | none => exact hsay
  | some rule =>
    cases out with
    | none => exact hsay
    | some out => exact hb.alloc (hb.ruleGet ⟨hb.say _, rfl⟩)

/-- A name that is too long: the object is freed again and nothing gets stored. -/
theorem fieldNew (hb : Bare w) {name : Option Text} {offt len mask : Int} :
    Runs E (fieldNew .wordy name offt len mask) w (fun r v => Bare v ∧ r = none) := by
  unfold Xdpacket.fieldNew
  cases name with
  | none => exact ⟨hb.say _, rfl⟩
  | some n =>
    simp [hb.fields, hb.memory, calloc, Xdpacket.alloc, newAddr, Env.strAlloc, Env.wordy, nbErr,
      fieldFree, Xdpacket.jsGet, putField]
    exact ⟨rfl, hb.rules, hb.ifaces, hb.processes, rfl⟩

theorem ruleNew (hb : Bare w) : Runs E (ruleNew .wordy name [] []) w (fun r v =>
    Bare v ∧ r = none) := by
  simp [Xdpacket.ruleNew, hb.rules, hb.memory, calloc, Xdpacket.alloc, newAddr, Env.strAlloc,
    Env.wordy, nbErr, ruleFree, ruleReleaseRefs, opFreeAll, Xdpacket.jsGet, putRule]
  exact ⟨hb.fields, rfl, hb.ifaces, hb.processes, rfl⟩

theorem ifaceNew (hb : Bare w) : Runs E (ifaceNew .wordy name) w (fun r v =>
    Bare v ∧ r = none) := by
  simp [Xdpacket.ifaceNew, hb.ifaces, hb.memory, calloc, Xdpacket.alloc, newAddr, Env.strAlloc,
    Env.wordy, Env.sample, nbErr, ifaceDie, ifaceFree, Xdpacket.jsGet, putIface]
  exact ⟨hb.fields, hb.rules, rfl, hb.processes, rfl⟩

theorem processNew (hb : Bare w) : Runs E (processNew name []) w (fun r v =>
    Bare v ∧ r = none) := by
  simp [Xdpacket.processNew, hb.ifaces, hb.processes, hb.memory, calloc, Xdpacket.alloc, newAddr,
    nbErr, Xdpacket.ifaceGet, processFree, routFreeAll, Xdpacket.jsGet, putProcess]
  exact ⟨hb.fields, hb.rules, rfl, rfl, rfl⟩

theorem field (hb : Bare w) {s : FieldArgs}
    (hn : mode = .add ∨ mode = .invalid ∨ s.name.isSome) :
    Runs E (fieldParseMode .wordy mode s) w (fun _ v => Bare v) := by
  cases mode with
  | invalid => exact hb.die
  | add =>
    refine hb.fieldNew.bind ?_
    intro r v hv
    rw [hv.2]
    exact hv.1.die
  | del =>
    obtain ⟨n, hn⟩ := Option.isSome_iff_exists.mp (by simpa using hn)
    simp only [fieldParseMode, hn, needText, pure_bind]
    exact jsGet hb.fields hb.die
  | prn =>
    obtain ⟨n, hn⟩ := Option.isSome_iff_exists.mp (by simpa using hn)
    simp only [fieldParseMode, hn, needText, pure_bind]
    split
    · simp [parseEmit, fieldEmitAll, emitEach, hb.fields, jsAddrs]
      exact hb
    · exact jsGet hb.fields hb

theorem iface (hb : Bare w) {s : IfaceArgs} :
    Runs E (ifaceParseMode .wordy mode s) w (fun _ v => Bare v) := by
  cases mode with
  | invalid => exact hb.die
  | add =>
    refine hb.ifaceNew.bind ?_
    intro r v hv
    rw [hv.2]
    exact hv.1.die
  | del => exact jsGet hb.ifaces hb.die
  | prn =>
    unfold ifaceParseMode
    dsimp only
    split
    · simp [parseEmit, ifaceEmitAll, emitEach, hb.ifaces, jsAddrs]
      exact hb
    · exact jsGet hb.ifaces hb

theorem rule (hb : Bare w) {s : RuleArgs} (hm : s.matchJQ = []) (hw : s.writeJQ = []) :
    Runs E (ruleParseMode .wordy mode s) w (fun _ v => Bare v) := by
  cases mode with
  | invalid => exact hb.die
  | add =>
    unfold ruleParseMode
    rw [hm, hw]
    refine hb.ruleNew.bind ?_
    intro r v hv
    rw [hv.2]
    exact hv.1.die
  | del => exact jsGet hb.rules hb.die
  | prn =>
    unfold ruleParseMode
    dsimp only
    split
    · simp [parseEmit, ruleEmitAll, emitEach, hb.rules, jsAddrs]
      exact hb
    · exact jsGet hb.rules hb

theorem process (hb : Bare w) {s : ProcessArgs} (hr : s.routJQ = []) :
    Runs E (processParseMode mode s) w (fun _ v => Bare v) := by
  cases mode with
  | invalid => exact hb.die
  | add =>
    unfold processParseMode
    rw [hr]
    refine hb.processNew.bind ?_
    intro r v hv
    rw [hv.2]
    exact hv.1.die
  | del => exact jsGet hb.processes hb.die
  | prn =>
    unfold processParseMode
    dsimp only
    split
    · simp [parseEmit, processEmitAll, emitEach, hb.processes, jsAddrs]
      exact hb
    · exact jsGet hb.processes hb

end Bare

/-- In a bare world with names that are too long the parsers have no fault but those of the
document. -/
theorem trusted_bare : Trusted .wordy (fun _ => False) Bare (fun ops => ops = [])
    (fun routs => routs = []) where
  idle := fun _ _ _ _ hb => ⟨hb.fields, hb.rules, hb.ifaces, hb.processes, hb.memory⟩
  noOps := rfl
  noRouts := rfl
  alloc := fun w hb => by
    simp [alloc, hb.memory]
    exact hb
  emitAll := fun _ hb => hb.emitAll
  opNew := fun _ _ _ _ _ _ hb => hb.opNew.imp (fun r _ hv => ⟨hv.1, fun q hq => by simp [hv.2, hq]⟩)
  routNew := fun _ _ _ hb => hb.routNew.imp (fun r _ hv => ⟨hv.1, fun q hq => by simp [hv.2, hq]⟩)
  field := fun _ _ _ hb hn => hb.field hn
  iface := fun _ _ _ hb => hb.iface
  rule := fun _ _ _ hb hm hw => hb.rule hm hw
  process := fun _ _ _ hb hr => hb.process hr

theorem bare_start : Bare (World.start [] [] []) := ⟨rfl, rfl, rfl, rfl, rfl⟩

end Needed

theorem Call.errors_asks {c : Call doc} {other : Fault → Prop} {K : World → Prop}
    {ops : List Op → Prop} {routs : List Rout → Prop} (hT : Trusted env other K ops routs)
    (h : K w) : AsksShape other c.shape (c.errors env) w (fun _ _ => True) := by
  cases c with
  | document pairs => exact (parseMapping_asks hT h).imp (fun _ _ _ => trivial)
  | subsystem sub mode mapping => exact (subsystemParse_asks hT h).imp (fun _ _ _ => trivial)
  | op mapping =>
    refine (opParseNew_asks hT h).bind id ?_
    intro r v hs _
    cases r with
    | some op => exact Asks.pure hs trivial
    | none => exact Asks.pure hs trivial

/-- The parsers read a document only as what it is, and report what they find of a wrong kind:
exactly where it has the shape that they take for granted and nothing of a wrong kind is silent. -/
theorem document_answered_iff (doc : Document) (c : Call doc) :
    (∀ d ∈ c.calls, d.Answers) ↔ c.shape = true ∧ ∀ d ∈ c.calls, d.silent = false := by
  constructor
  · intro h
    constructor
    · have hrun := h c Call.self_mem .wordy _ (reachable_start [] [] [])
      exact (Call.errors_asks trusted_bare bare_start).needed (hrun.imp (fun _ _ _ => trivial))
    · intro d hd
      by_contra hs
      obtain ⟨hm, w, hr, hrun⟩ := Call.unnoticed (Bool.eq_true_of_not_eq_false hs)
      obtain ⟨errs, v, -, hne, he⟩ := (h d hd .lavish w hr).ends hrun (fun _ hn => hn)
      exact hne hm he
  · rintro ⟨hshape, hs⟩ d hd env w -
    have htyped : Runs (fun e => ¬ e.OfDocument) (d.errors env) w (fun _ _ => True) :=
      (Call.errors_asks trusted_tidy trivial).met (Call.shape_calls hshape hd)
    cases hm : d.malformed with
    | false => exact htyped.imp (fun _ _ _ h => (by cases h))
    | true =>
      have hcounts : Counts (d.errors env) :=
        Call.counts_malformed hm (fun e he => hs e (Call.calls_trans hd he))
      exact (htyped.and (hcounts w)).imp (fun _ _ h _ => h.2)

/-- `dst: {field: f, state: []}, src: {value: 1}` -/
def Document.stateList : Document where
  size := 10
  node := List.get [.scalar "dst", .mapping [(2, 3), (4, 5)], .scalar "field", .scalar "f",
    .scalar "state", .sequence [], .scalar "src", .mapping [(8, 9)], .scalar "value", .scalar "1"]

/-- The list is taken for no state at all. -/
example : (Call.op ([(0, 1), (6, 7)] : List (Fin 10 × Fin 10)) : Call .stateList).silent = true := by
  decide

/-- `add: [{}]` -/
def Document.emptyChild : Document where
  size := 4
  node
    | 0 => .mapping [(1, 2)]
    | 1 => .scalar "add"
    | 2 => .sequence [3]
    | 3 => .mapping []

/-- The first pair of an empty mapping is looked at. -/
theorem empty_child_peeked : ¬ ∀ (doc : Document) (c : Call doc), ∀ d ∈ c.calls, d.Answers := by
  intro h
  exact h .emptyChild (.document [((1 : Fin 4), (2 : Fin 4))]) _ List.mem_cons_self .sample _
    (reachable_start [] [] []) trivial

end Xdpacket
