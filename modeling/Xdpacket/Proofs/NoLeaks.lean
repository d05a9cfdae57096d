import Xdpacket.Proofs.AllOrNothing

namespace Xdpacket

variable {w v : World} {env : Env} {doc : Document} {mapping : Pairs doc} {mode : ParseMode}

/-- A mapping whose parser hands back all that it took: a rule's walk does not end
early once an operation was built; a process is added by a whole walk, or else no
rout was built. -/
def HandsBack (env : Env) (doc : Document) : MappingCondition doc := fun sub mode mapping w =>
  match sub with
  | .rule => mode = .add → Stops doc mapping → ∀ rs u,
      (ruleListed doc mapping).mapM (ruleBuild env doc) w = .ok (rs, u) → ∀ r ∈ rs, r.2 = none
  | .process => mode = .add ∧ ¬ Stops doc mapping ∨ ∀ rs u,
      (processListed doc mapping).mapM routBuild w = .ok (rs, u) → ∀ r ∈ rs, r = none
  | _ => True

/-- The walk of a rule that hands back: it ends with both queues to store, or empty. -/
theorem ruleWalk_handsBack (h : Consistent w 0) (hm : HandsBack env doc .rule mode mapping w) :
    Frames NoDangle Same (yForMap doc (ruleParseKey env mode doc) mapping ⟨0, "", [], []⟩) w
      (fun r v => match r with
        | .go s => Queued 0 (s.matchJQ ++ s.writeJQ) v ∧ (mode ≠ .add → Consistent v 0)
        | .die _ => Consistent v 0) := by
  have hempty : ∀ {s : RuleArgs} {v : World}, RuleWalk mode 0 s v →
      s.matchJQ ++ s.writeJQ = [] → Consistent v 0 := by
    intro s v hs hn
    have hq := hs.queued.1
    rwa [hn, opsRefs_nil, zero_add] at hq
  by_cases hadd : mode = .add
  · subst hadd
    refine Runs.imp ((ruleWalk_does h).and ruleWalk_builds) ?_
    intro r v hv
    obtain ⟨⟨hs, hq⟩, rs, ⟨u, hu, -⟩, hmq, hwq, hend⟩ := hv
    cases r with
    | go s => exact ⟨hs, hq.queued, fun hn => absurd rfl hn⟩
    | die s =>
      refine ⟨hs, hempty hq ?_⟩
      rw [hmq, hwq]
      exact queues_empty_iff.mpr (hm rfl hend.1 rs u hu)
  · refine Runs.imp (ruleWalk_does h) ?_
    intro r v hv
    obtain ⟨hs, hq⟩ := hv
    have hn : r.state.matchJQ ++ r.state.writeJQ = [] := by
      rw [(hq.adding hadd).1, (hq.adding hadd).2]
      rfl
    cases r with
    | go s => exact ⟨hs, hq.queued, fun _ => hempty hq hn⟩
    | die s => exact ⟨hs, hempty hq hn⟩

/-- `rule_parse` of a mapping that hands back -/
theorem ruleParse_handsBack (h : Consistent w 0) (hm : HandsBack env doc .rule mode mapping w) :
    Frames NoDangle Quiet (ruleParse env mode doc mapping) w (fun _ v => Consistent v 0 ∧
      (mode = .add → Same w v ∨ v.ruleJS ≠ w.ruleJS)) := by
  unfold ruleParse
  refine Runs.bind (ruleWalk_handsBack h hm) ?_
  intro r v hv
  obtain ⟨hs, hr⟩ := hv
  cases r with
  | die s => exact ⟨hs.toQuiet, hr, fun _ => .inl hs⟩
  | go s =>
    obtain ⟨hq, hother⟩ := hr
    by_cases hadd : mode = .add
    · subst hadd
      refine Runs.imp (ruleParse_add hq) ?_
      intro errs u hu
      obtain ⟨hqu, hc, hcase⟩ := hu
      refine ⟨hs.toQuiet.trans hqu, hc, fun _ => ?_⟩
      rcases hcase with ⟨-, -, hs'⟩ | ⟨-, hfree, a, ha⟩
      · exact .inl (hs.trans hs')
      · refine .inr (fun he => ?_)
        have hl := hc.rules.listed ha rfl
        rw [he, ← hs.ruleJS, hfree] at hl
        cases hl
    · refine Runs.imp (ruleParse_other (hother hadd) hadd) ?_
      intro errs u hu
      exact ⟨hs.toQuiet.trans hu.1, hu.2, fun hn => absurd hn hadd⟩

/-- The walk of a process that hands back. -/
theorem processWalk_handsBack (h : Consistent w 0)
    (hm : HandsBack env doc .process mode mapping w) :
    Frames NoDangle Same (yForMap doc (processParseKey doc) mapping ⟨0, "", []⟩) w
      (fun r v => match r with
        | .go s => RoutsQueued 0 s.routJQ v ∧ (mode ≠ .add → Consistent v 0)
        | .die _ => Consistent v 0) := by
  refine Runs.imp ((processWalk_does h).and processWalk_builds) ?_
  intro r v hv
  obtain ⟨⟨hs, hq⟩, rs, ⟨u, hu, -⟩, hrq, hend⟩ := hv
  have hempty : (∀ x ∈ rs, x = none) → Consistent v 0 := by
    intro hn
    have hc := hq.1
    rwa [hrq, routs_empty_iff.mpr hn, routsRefs_nil, zero_add] at hc
  rcases hm with ⟨hadd, hgo⟩ | hnone
  · cases r with
    | go s => exact ⟨hs, hq, fun hn => absurd hadd hn⟩
    | die s => exact absurd hend.1 hgo
  · have hc := hempty (hnone rs u hu)
    cases r with
    | go s => exact ⟨hs, hq, fun _ => hc⟩
    | die s => exact ⟨hs, hc⟩

/-- `process_parse` of a mapping that hands back: an add is refused or stored, a
delete takes one process away, a print leaves everything. -/
theorem processParse_handsBack (h : Consistent w 0)
    (hm : HandsBack env doc .process mode mapping w) :
    Frames NoDangle Quiet (processParse mode doc mapping) w (fun _ v => Consistent v 0 ∧
      (mode = .add → Same w v ∨ v.processJS ≠ w.processJS) ∧ (mode = .prn → Same w v) ∧
      (mode = .del → v.stored = w.stored ∨
        ∃ a p, w.processes a = some p ∧ ∀ x, w.stored x = v.stored x + p.refs.count x)) := by
  unfold processParse
  refine Runs.bind (processWalk_handsBack h hm) ?_
  intro r v hv
  obtain ⟨hs, hr⟩ := hv
  cases r with
  | die s => exact ⟨hs.toQuiet, hr, fun _ => .inl hs, fun _ => hs, fun _ => .inl hs.stored⟩
  | go s =>
    obtain ⟨hq, hother⟩ := hr
    cases mode with
    | add =>
      refine Runs.imp (processParse_add hq) ?_
      intro errs u hu
      obtain ⟨hqu, hc, hcase⟩ := hu
      refine ⟨hs.toQuiet.trans hqu, hc, fun _ => ?_, fun hn => (by cases hn), fun hn => (by cases hn)⟩
      rcases hcase with ⟨-, -, hs'⟩ | ⟨-, hfree, a, p, i, hp, -, hi, hin⟩
      · exact .inl (hs.trans hs')
      · refine .inr (fun he => ?_)
        have hl := hc.processes.listed hp (by rw [hi]; rfl)
        rw [he, ← hs.processJS, hin, hfree] at hl
        cases hl
    | del =>
      refine Runs.imp (processParse_del (hother (by decide))) ?_
      intro errs u hu
      obtain ⟨hqu, hc, hcase⟩ := hu
      refine ⟨hs.toQuiet.trans hqu, hc, fun hn => (by cases hn), fun hn => (by cases hn), fun _ => ?_⟩
      rw [hs.stored, hs.processes] at hcase
      exact hcase
    | prn =>
      refine Runs.imp (processParse_prn (hother (by decide))) ?_
      intro errs u hu
      have hsu := hs.trans hu.1
      exact ⟨hsu.toQuiet, hu.2, fun hn => (by cases hn), fun _ => hsu, fun hn => (by cases hn)⟩
    | invalid =>
      refine Runs.imp (parseDie_quiet (hother (by decide))) ?_
      intro errs u hu
      exact ⟨hs.toQuiet.trans hu.1, hu.2, fun hn => (by cases hn), fun hn => (by cases hn),
        fun hn => (by cases hn)⟩

/-- A mapping that hands back leaves nothing in flight. -/
theorem subsystemParse_handsBack {sub : Subsystem} (h : Consistent w 0)
    (hm : HandsBack env doc sub mode mapping w) :
    Frames NoDangle Quiet (subsystemParse env sub mode doc mapping) w (fun _ v =>
      Consistent v 0) := by
  cases sub with
  | iface => exact ifaceParse_does h
  | field => exact fieldParse_does h
  | rule => exact (ruleParse_handsBack h hm).imp (fun _ _ hv => hv.1)
  | process => exact (processParse_handsBack h hm).imp (fun _ _ hv => hv.1)

theorem settled_invariant : ProgramInvariant env (fun w => Consistent w 0) where
  consistent := fun _ h => ⟨0, h⟩
  idle := fun _ _ h hi => hi.consistent h
  handled := fun _ _ h hh => hh.consistent h
  removed := fun _ _ h => eptkRemove_does h

/-- No count is higher than the number of stored holders, and mappings that store
nothing change no count. -/
structure NoLeakedReference (env : Env) (w : World) : Prop where
  counted : ∀ x, w.count x ≤ w.stored x
  field : ∀ a f, w.fields a = some f → w.stored (.field a) = 0 → f.refcnt = 0
  rule : ∀ a r, w.rules a = some r → w.stored (.rule a) = 0 → r.refcnt = 0
  iface : ∀ a i, w.ifaces a = some i → w.stored (.iface a) = 0 → i.refcnt = 0
  state : ∀ n a, AList.lookup n w.stateJS = some a → 0 < w.stored (.memref a)
  printed : ∀ doc mapping errs v, HandsBack env doc .process .prn mapping w →
    processParse .prn doc mapping w = .ok (errs, v) → v.count = w.count
  deleted : ∀ doc mapping errs v, HandsBack env doc .process .del mapping w →
    processParse .del doc mapping w = .ok (errs, v) → v.count = w.count ∨
      ∃ a p, w.processes a = some p ∧ ∀ x, w.count x = v.count x + p.refs.count x
  ruleRejected : ∀ doc mapping errs v, HandsBack env doc .rule .add mapping w →
    ruleParse env .add doc mapping w = .ok (errs, v) → v.ruleJS = w.ruleJS → v.count = w.count
  processRejected : ∀ doc mapping errs v, HandsBack env doc .process .add mapping w →
    processParse .add doc mapping w = .ok (errs, v) → v.processJS = w.processJS →
      v.count = w.count

theorem Consistent.noLeak (h : Consistent w 0) : NoLeakedReference env w where
  counted := fun x => Nat.le_of_eq (h.balanced.exact x)
  field := by
    intro a f hf hz
    have hc := h.balanced.exact (.field a)
    simpa only [World.count, hf, Option.elim_some, hz] using hc
  rule := by
    intro a r hr hz
    have hc := h.balanced.exact (.rule a)
    simpa only [World.count, hr, Option.elim_some, hz] using hc
  iface := by
    intro a i hi hz
    have hc := h.balanced.exact (.iface a)
    simpa only [World.count, hi, Option.elim_some, hz] using hc
  state := by
    intro n a hl
    obtain ⟨r, hr, -⟩ := h.states.found hl
    have hc := h.balanced.exact (.memref a)
    have hpos := h.counted a r hr
    simp only [World.count, hr, Option.elim_some] at hc
    omega
  printed := by
    intro doc mapping errs v hm hr
    obtain ⟨-, hc, -, hs, -⟩ := (processParse_handsBack h hm).ok hr
    exact (hs rfl).count h hc
  deleted := by
    intro doc mapping errs v hm hr
    obtain ⟨-, hc, -, -, hs⟩ := (processParse_handsBack h hm).ok hr
    rcases hs rfl with hs | ⟨a, p, hp, hs⟩
    · left
      funext x
      rw [hc.balanced.exact, h.balanced.exact, hs]
    · right
      refine ⟨a, p, hp, fun x => ?_⟩
      rw [hc.balanced.exact, h.balanced.exact, hs]
  ruleRejected := by
    intro doc mapping errs v hm hr he
    obtain ⟨-, hc, hs⟩ := (ruleParse_handsBack h hm).ok hr
    exact ((hs rfl).resolve_right (not_not.mpr he)).count h hc
  processRejected := by
    intro doc mapping errs v hm hr he
    obtain ⟨-, hc, hs, -⟩ := (processParse_handsBack h hm).ok hr
    exact ((hs rfl).resolve_right (not_not.mpr he)).count h hc

/-- In a run whose mappings all hand back what they took, no reference is leaked. -/
theorem no_leaked_reference (env : Env) (openFds : List Nat) (oom sys : List Bool)
    (events : List Event)
    (hm : RunMeets env (HandsBack env) events (World.start openFds oom sys)) :
    Runs NoDangle (handleAll env events) (World.start openFds oom sys)
      (fun _ w => NoLeakedReference env w) :=
  (handleAll_keeps settled_invariant (fun _ _ _ _ _ h hm => subsystemParse_handsBack h hm)
    (consistent_start openFds oom sys) hm).imp (fun _ _ h => h.noLeak)

/-- `{field: name, len: len}` -/
def lenField (name len : Text) : Document where
  size := 5
  node := List.get [.mapping [(1, 2), (3, 4)], .scalar "field", .scalar name, .scalar "len",
    .scalar len]

def lenFieldPairs (name len : Text) : Pairs (lenField name len) :=
  ([(1, 2), (3, 4)] : List (Fin 5 × Fin 5))

def lenFieldAdd (name len : Text) : Event :=
  .mapping .field .add (lenField name len) ([(1, 2), (3, 4)] : List (Fin 5 × Fin 5))

def byteFieldAdd : Event := lenFieldAdd "f" "1"

theorem no_leaked_reference_twoAdds :
    Runs NoDangle (handleAll .sample [byteFieldAdd, .mapping .rule .add emptyOpRule emptyOpPairs])
      (World.start [] [] []) (fun _ w => NoLeakedReference .sample w) :=
  no_leaked_reference .sample [] [] [] _
    ⟨trivial, fun _ _ => ⟨fun _ hs => absurd hs emptyOp_walks, fun _ _ => trivial⟩⟩

/-- `{rule: x, match: [{dst: {field: f}, src: {state: s}}], write: {}}` -/
def cutRule : Document where
  size := 16
  node := List.get [.mapping [(1, 2), (3, 4), (14, 15)], .scalar "rule", .scalar "x",
    .scalar "match", .sequence [5], .mapping [(6, 7), (10, 11)], .scalar "dst", .mapping [(8, 9)],
    .scalar "field", .scalar "f", .scalar "src", .mapping [(12, 13)], .scalar "state", .scalar "s",
    .scalar "write", .mapping []]

def cutRuleAdd : Event :=
  .mapping .rule .add cutRule ([(1, 2), (3, 4), (14, 15)] : List (Fin 16 × Fin 16))

/-- A rule mapping that ends early keeps the references of the operation it built. -/
theorem cut_rule_leaks : ∃ w a, handleAll .sample [byteFieldAdd, cutRuleAdd]
    (World.start [] [] []) = .ok ((), w) ∧ w.stored (.field a) < w.count (.field a) :=
  ⟨_, 1, rfl, by decide⟩

end Xdpacket
