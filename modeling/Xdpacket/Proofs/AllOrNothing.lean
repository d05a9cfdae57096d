import Xdpacket.Proofs.Histories
import Xdpacket.Proofs.Listings

namespace Xdpacket

variable {w v : World} {live : Multiset Ref} {env : Env} {doc : Document} {mapping : Pairs doc}

/-- Every store, every object in it and every count is as before. -/
structure Untouched (w v : World) : Prop where
  fieldJS : v.fieldJS = w.fieldJS
  stateJS : ∀ n, AList.lookup n v.stateJS = AList.lookup n w.stateJS
  ruleJS : v.ruleJS = w.ruleJS
  ifaceJS : v.ifaceJS = w.ifaceJS
  processJS : v.processJS = w.processJS
  fields : v.fields = w.fields
  rules : v.rules = w.rules
  ifaces : v.ifaces = w.ifaces
  processes : v.processes = w.processes
  count : v.count = w.count

section Frame

/-- The counts that two consistent worlds with the same stores agree on. -/
theorem Same.count (h : Same w v) (hw : Consistent w live) (hv : Consistent v live) :
    v.count = w.count := by
  funext x
  rw [hv.balanced x, hw.balanced x, h.stored]

theorem Same.untouched (h : Same w v) (hw : Consistent w live) (hv : Consistent v live) :
    Untouched w v := by
  have hc := h.count hw hv
  refine ⟨h.fieldJS, ?_, h.ruleJS, h.ifaceJS, h.processJS, ?_, ?_, ?_, h.processes, hc⟩
  · have hstate : ∀ n a, AList.lookup n v.stateJS = some a ↔ AList.lookup n w.stateJS = some a := by
      intro n a
      have hca : v.count (.memref a) = w.count (.memref a) := congrFun hc _
      constructor
      · intro hl
        obtain ⟨r, hr, hn⟩ := hv.states.found hl
        have hpos := hv.counted a r hr
        have hcr : v.count (.memref a) = r.count := by simp only [World.count, hr, Option.elim_some]
        obtain ⟨r', hr'⟩ := memref_of_count (w := w) (a := a) (by omega)
        obtain ⟨q, hq, hk⟩ := h.memrefs a (hw.fresh.memrefs.below hr') r hr
        have hname : r.stateName = q.stateName := congrArg Prod.snd hk
        exact hw.states.listed hq (hname ▸ hn)
      · intro hl
        obtain ⟨r, hr, hn⟩ := hw.states.found hl
        have hpos := hw.counted a r hr
        have hcr : w.count (.memref a) = r.count := by simp only [World.count, hr, Option.elim_some]
        obtain ⟨r', hr'⟩ := memref_of_count (w := v) (a := a) (by omega)
        obtain ⟨q, hq, hk⟩ := h.memrefs a (hw.fresh.memrefs.below hr) r' hr'
        rw [hr] at hq
        cases hq
        have hname : r'.stateName = r.stateName := congrArg Prod.snd hk
        exact hv.states.listed hr' (hname.trans hn)
    intro n
    cases hl : AList.lookup n w.stateJS with
    | some a => exact (hstate n a).mpr hl
    | none =>
      cases hl' : AList.lookup n v.stateJS with
      | none => rfl
      | some a =>
        rw [(hstate n a).mp hl'] at hl
        cases hl
  · apply h.fieldKeys.eq_of_measure (fun a => congrFun hc (.field a))
    intro f g hk hr
    cases f
    cases g
    simp only [Field.key, Prod.mk.injEq] at hk
    exact Field.mk.injEq .. |>.mpr ⟨hk.1, hk.2, hr⟩
  · apply h.ruleKeys.eq_of_measure (fun a => congrFun hc (.rule a))
    intro r q hk hr
    cases r
    cases q
    simp only [Rule.key, Prod.mk.injEq] at hk
    exact Rule.mk.injEq .. |>.mpr ⟨hk.1, hk.2.1, hk.2.2, hr⟩
  · apply h.ifaceKeys.eq_of_measure (fun a => congrFun hc (.iface a))
    intro i j hk hr
    cases i
    cases j
    simp only [Iface.key, Iface.mk.injEq] at hk
    obtain ⟨h1, h2, h3, h4, h5, h6, h7, h8, h9, -⟩ := hk
    exact Iface.mk.injEq .. |>.mpr ⟨h1, h2, h3, h4, h5, h6, h7, h8, h9, hr⟩

/-- References that stay counted although nothing was stored mean a changed count. -/
theorem Untouched.nothing_lost {lost : Multiset Ref} (h : Untouched w v) (hs : v.stored = w.stored)
    (hw : Consistent w live) (hv : Consistent v (lost + live)) : lost = 0 := by
  apply Multiset.eq_zero_of_forall_notMem
  intro x hx
  have hpos := Multiset.count_pos.mpr hx
  have hcv := hv.balanced x
  have hcw := hw.balanced x
  rw [Multiset.count_add, hs, congrFun h.count x] at hcv
  omega

/-- A finished operation holds a field. -/
theorem OpOk.holds {op : Op} (h : OpOk w op) : ∃ x, x ∈ op.refs := by
  obtain ⟨a, ha, -⟩ := h.setTo
  refine ⟨.field a, ?_⟩
  unfold Op.refs
  cases hd : op.dstField with
  | some b =>
    rw [hd, Option.some_or] at ha
    cases ha
    simp [holdOpt]
  | none =>
    rw [hd, Option.none_or] at ha
    simp [holdOpt, ha]

end Frame

section Rules

/-- What the attempts made for one queue answered. -/
def answersFor (q : OpQueue) (rs : List (OpQueue × Option Op)) : List (Option Op) :=
  (rs.filter (fun r => r.1 = q)).map Prod.snd

/-- The mapping's rule is new in the store and holds what the attempts answered:
every one of them an operation, and in their order. -/
def RuleStored (doc : Document) (mapping : Pairs doc) (rs : List (OpQueue × Option Op))
    (w v : World) : Prop :=
  AList.lookup (lastName doc namesRule mapping) w.ruleJS = none ∧
    ∃ a r, AList.lookup (lastName doc namesRule mapping) v.ruleJS = some a ∧
      v.rules a = some r ∧ r.matchJQ.map some = answersFor .matchJQ rs ∧
        r.writeJQ.map some = answersFor .writeJQ rs

/-- All or nothing: stored with all that the mapping lists, or refused without a trace. -/
def RuleAllOrNothing (env : Env) (doc : Document) (mapping : Pairs doc) (w : World) (errs : Nat)
    (v : World) : Prop :=
  (∃ rs u, (ruleListed doc mapping).mapM (ruleBuild env doc) w = .ok (rs, u) ∧
    RuleStored doc mapping rs w v) ∨ errs ≠ 0 ∧ Untouched w v

/-- The listed operations can all be built, or the rule cannot be created whatever its
operations; a mapping whose walk ends early lists none that can be built. -/
def RuleAddable (env : Env) (doc : Document) (mapping : Pairs doc) (w : World) : Prop :=
  ∃ rs u, (ruleListed doc mapping).mapM (ruleBuild env doc) w = .ok (rs, u) ∧
    (Stops doc mapping → ∀ r ∈ rs, r.2 = none) ∧
    (¬ Stops doc mapping →
      (∀ r ∈ rs, r.2.isSome) ∨ RuleRefused env (lastName doc namesRule mapping) u)

variable {rs : List (OpQueue × Option Op)}

theorem mem_of_queue {r : OpQueue × Option Op} {op : Op} (hr : r ∈ rs) (ho : r.2 = some op) :
    op ∈ builtFor .matchJQ rs ++ builtFor .writeJQ rs := by
  obtain ⟨q, o⟩ := r
  rw [List.mem_append]
  cases q with
  | matchJQ => exact .inl (List.mem_filterMap.mpr ⟨_, hr, by simpa using ho⟩)
  | writeJQ => exact .inr (List.mem_filterMap.mpr ⟨_, hr, by simpa using ho⟩)

/-- Nothing was queued exactly when no attempt built anything. -/
theorem queues_empty_iff :
    builtFor .matchJQ rs ++ builtFor .writeJQ rs = [] ↔ ∀ r ∈ rs, r.2 = none := by
  constructor
  · intro h r hr
    cases ho : r.2 with
    | none => rfl
    | some op =>
      have hm := mem_of_queue hr ho
      rw [h] at hm
      cases hm
  · intro h
    have hq : ∀ q, builtFor q rs = [] := by
      intro q
      apply List.filterMap_eq_nil_iff.mpr
      intro r hr
      rw [h r hr]
      exact ite_self none
    rw [hq, hq]
    rfl

/-- The queues hold every answer exactly when every attempt built its operation. -/
theorem queues_full_iff :
    ((builtFor .matchJQ rs).map some = answersFor .matchJQ rs ∧
      (builtFor .writeJQ rs).map some = answersFor .writeJQ rs) ↔ ∀ r ∈ rs, r.2.isSome := by
  constructor
  · intro h r hr
    have hall : ∀ q, (builtFor q rs).map some = answersFor q rs := by
      intro q
      cases q with
      | matchJQ => exact h.1
      | writeJQ => exact h.2
    have hm : r.2 ∈ answersFor r.1 rs :=
      List.mem_map.mpr ⟨r, List.mem_filter.mpr ⟨hr, decide_eq_true rfl⟩, rfl⟩
    rw [← hall r.1] at hm
    obtain ⟨op, -, ho⟩ := List.mem_map.mp hm
    rw [← ho]
    rfl
  · intro h
    have hall : ∀ q, (builtFor q rs).map some = answersFor q rs := by
      intro q
      induction rs with
      | nil => rfl
      | cons r rs ih =>
        have htail := ih (fun x hx => h x (List.mem_cons_of_mem _ hx))
        obtain ⟨op, ho⟩ := Option.isSome_iff_exists.mp (h r (List.mem_cons_self ..))
        by_cases hq : r.1 = q
        · simp only [builtFor, answersFor, List.filterMap_cons, List.filter_cons, hq, ho, if_true,
            decide_true, List.map_cons] at htail ⊢
          rw [htail]
        · simpa only [builtFor, answersFor, List.filterMap_cons, List.filter_cons, hq, if_false,
            decide_false, Bool.false_eq_true] using htail
    exact ⟨hall _, hall _⟩

theorem Beside.ruleRefused {n : Text} (h : Beside id id w v) :
    RuleRefused env n v ↔ RuleRefused env n w := by
  obtain ⟨l, rfl⟩ := h
  exact Iff.rfl

/-- `rule_parse` in mode `add` is all or nothing exactly for such mappings. -/
theorem ruleParse_all_or_nothing (h : Consistent w live) {errs : Nat}
    (hr : ruleParse env .add doc mapping w = .ok (errs, v)) :
    RuleAllOrNothing env doc mapping w errs v ↔ RuleAddable env doc mapping w := by
  unfold ruleParse at hr
  obtain ⟨r, t, hwalk, hr⟩ := bind_eq_ok.mp hr
  obtain ⟨hs, hq⟩ := (ruleWalk_does h).ok hwalk
  obtain ⟨rs, ⟨u, hu, hb⟩, hm, hw, hend⟩ := ruleWalk_builds.ok hwalk
  have hqueue : Queued live (builtFor .matchJQ rs ++ builtFor .writeJQ rs) t := by
    rw [← hm, ← hw]
    exact hq.queued
  -- the attempts are those of both sides
  have hany : RuleAllOrNothing env doc mapping w errs v ↔
      RuleStored doc mapping rs w v ∨ errs ≠ 0 ∧ Untouched w v := by
    unfold RuleAllOrNothing
    rw [hu]
    simp
  have hcond : RuleAddable env doc mapping w ↔ (Stops doc mapping → ∀ r ∈ rs, r.2 = none) ∧
      (¬ Stops doc mapping →
        (∀ r ∈ rs, r.2.isSome) ∨ RuleRefused env (lastName doc namesRule mapping) u) := by
    unfold RuleAddable
    rw [hu]
    simp
  rw [hany, hcond]
  cases r with
  | die s =>
    obtain ⟨rfl, rfl⟩ := pure_eq_ok.mp hr
    obtain ⟨hstop, herr⟩ := hend
    constructor
    · intro hp
      refine ⟨fun _ => queues_empty_iff.mp ?_, fun hn => absurd hstop hn⟩
      rcases hp with ⟨hfree, a, r, hl, -⟩ | ⟨-, hun⟩
      · rw [hs.ruleJS, hfree] at hl
        cases hl
      · have hz := hun.nothing_lost hs.stored h hqueue.1
        cases hx : builtFor .matchJQ rs ++ builtFor .writeJQ rs with
        | nil => rfl
        | cons op ops =>
          rw [hx] at hqueue hz
          obtain ⟨x, hxo⟩ := (hqueue.2 op (List.mem_cons_self ..)).holds
          have hmem := mem_opsRefs (List.mem_cons_self (l := ops)) hxo
          rw [hz] at hmem
          exact absurd hmem (Multiset.notMem_zero _)
    · intro hp
      rw [queues_empty_iff.mpr (hp.1 hstop), Queued, opsRefs_nil, zero_add] at hqueue
      exact .inr ⟨herr, hs.untouched h hqueue.1⟩
  | go s =>
    obtain ⟨hstop, hname⟩ := hend
    simp only [Step.state] at hq hm hw
    obtain ⟨-, hcv, hcase⟩ := (ruleParse_add hq.queued).ok hr
    rw [hname, hm, hw, hb.ruleRefused] at hcase
    rcases hcase with ⟨href, hne, hs'⟩ | ⟨hkept, hfree, a, ha⟩
    · exact ⟨fun _ => ⟨fun hx => absurd hx hstop, fun _ => .inr href⟩,
        fun _ => .inr ⟨hne, (hs.trans hs').untouched h hcv⟩⟩
    · have hl := hcv.rules.listed ha rfl
      rw [hs.ruleJS] at hfree
      constructor
      · intro hp
        refine ⟨fun hx => absurd hx hstop, fun _ => .inl (queues_full_iff.mp ?_)⟩
        rcases hp with ⟨-, b, r, hlb, hrb, hma, hwa⟩ | ⟨-, hun⟩
        · rw [hl] at hlb
          cases hlb
          rw [ha] at hrb
          cases hrb
          exact ⟨hma, hwa⟩
        · rw [hun.ruleJS, hfree] at hl
          cases hl
      · intro hp
        have hfull := queues_full_iff.mpr ((hp.2 hstop).resolve_right hkept)
        exact .inl ⟨hfree, a, _, hl, ha, hfull.1, hfull.2⟩

end Rules

section Processes

/-- The mapping's process is new in the store and holds what the attempts answered:
every one of them a rout, and in their order. -/
def ProcessStored (doc : Document) (mapping : Pairs doc) (rs : List (Option Rout))
    (w v : World) : Prop :=
  AList.lookup (lastName doc namesProcess mapping) w.processJS = none ∧
    ∃ a p, AList.lookup (lastName doc namesProcess mapping) v.processJS = some a ∧
      v.processes a = some p ∧ p.routJQ.map some = rs

/-- All or nothing: stored with all that the mapping lists, or refused without a trace. -/
def ProcessAllOrNothing (doc : Document) (mapping : Pairs doc) (w : World) (errs : Nat)
    (v : World) : Prop :=
  (∃ rs u, (processListed doc mapping).mapM routBuild w = .ok (rs, u) ∧
    ProcessStored doc mapping rs w v) ∨ errs ≠ 0 ∧ Untouched w v

/-- The listed pairs can all be built, or the process cannot be created whatever its
pairs; a mapping whose walk ends early lists none that can be built. -/
def ProcessAddable (doc : Document) (mapping : Pairs doc) (w : World) : Prop :=
  ∃ rs u, (processListed doc mapping).mapM routBuild w = .ok (rs, u) ∧
    (Stops doc mapping → ∀ r ∈ rs, r = none) ∧
    (¬ Stops doc mapping →
      (∀ r ∈ rs, r.isSome) ∨ ProcessRefused (lastName doc namesProcess mapping) u)

variable {rs : List (Option Rout)}

theorem routs_empty_iff : rs.filterMap id = [] ↔ ∀ r ∈ rs, r = none := by
  simp [List.filterMap_eq_nil_iff]

theorem routs_full_iff : (rs.filterMap id).map some = rs ↔ ∀ r ∈ rs, r.isSome := by
  constructor
  · intro h r hr
    rw [← h] at hr
    obtain ⟨rt, -, rfl⟩ := List.mem_map.mp hr
    rfl
  · intro h
    induction rs with
    | nil => rfl
    | cons r rs ih =>
      obtain ⟨rt, rfl⟩ := Option.isSome_iff_exists.mp (h r (List.mem_cons_self ..))
      rw [List.filterMap_cons_some (by rfl), List.map_cons,
        ih (fun x hx => h x (List.mem_cons_of_mem _ hx))]

theorem Beside.processRefused {n : Text} (h : Beside id id w v) :
    ProcessRefused n v ↔ ProcessRefused n w := by
  obtain ⟨l, rfl⟩ := h
  exact Iff.rfl

/-- `process_parse` in mode `add` is all or nothing exactly for such mappings. -/
theorem processParse_all_or_nothing (h : Consistent w live) {errs : Nat}
    (hr : processParse .add doc mapping w = .ok (errs, v)) :
    ProcessAllOrNothing doc mapping w errs v ↔ ProcessAddable doc mapping w := by
  unfold processParse at hr
  obtain ⟨r, t, hwalk, hr⟩ := bind_eq_ok.mp hr
  obtain ⟨hs, hq⟩ := (processWalk_does h).ok hwalk
  obtain ⟨rs, ⟨u, hu, hb⟩, hm, hend⟩ := processWalk_builds.ok hwalk
  have hqueue : RoutsQueued live (rs.filterMap id) t := by
    rw [← hm]
    exact hq
  have hany : ProcessAllOrNothing doc mapping w errs v ↔
      ProcessStored doc mapping rs w v ∨ errs ≠ 0 ∧ Untouched w v := by
    unfold ProcessAllOrNothing
    rw [hu]
    simp
  have hcond : ProcessAddable doc mapping w ↔ (Stops doc mapping → ∀ r ∈ rs, r = none) ∧
      (¬ Stops doc mapping →
        (∀ r ∈ rs, r.isSome) ∨ ProcessRefused (lastName doc namesProcess mapping) u) := by
    unfold ProcessAddable
    rw [hu]
    simp
  rw [hany, hcond]
  cases r with
  | die s =>
    obtain ⟨rfl, rfl⟩ := pure_eq_ok.mp hr
    obtain ⟨hstop, herr⟩ := hend
    constructor
    · intro hp
      refine ⟨fun _ => routs_empty_iff.mp ?_, fun hn => absurd hstop hn⟩
      rcases hp with ⟨hfree, a, p, hl, -⟩ | ⟨-, hun⟩
      · rw [hs.processJS, hfree] at hl
        cases hl
      · have hz := hun.nothing_lost hs.stored h hqueue.1
        cases hx : rs.filterMap id with
        | nil => rfl
        | cons rt rts =>
          rw [hx] at hz
          have hmem : Ref.rset rt.set ∈ routsRefs (rt :: rts) :=
            mem_routsRefs (List.mem_cons_self ..) (by simp [Rout.refs])
          rw [hz] at hmem
          exact absurd hmem (Multiset.notMem_zero _)
    · intro hp
      rw [routs_empty_iff.mpr (hp.1 hstop), RoutsQueued, routsRefs_nil, zero_add] at hqueue
      exact .inr ⟨herr, hs.untouched h hqueue.1⟩
  | go s =>
    obtain ⟨hstop, hname⟩ := hend
    simp only [Step.state] at hq hm
    obtain ⟨-, hcv, hcase⟩ := (processParse_add hq).ok hr
    rw [hname, hm, hb.processRefused] at hcase
    rcases hcase with ⟨href, hne, hs'⟩ | ⟨hkept, hfree, a, p, i, hp, hrts, hi, hin⟩
    · exact ⟨fun _ => ⟨fun hx => absurd hx hstop, fun _ => .inr href⟩,
        fun _ => .inr ⟨hne, (hs.trans hs').untouched h hcv⟩⟩
    · have hl := hcv.processes.listed hp (by rw [hi]; rfl)
      rw [hin] at hl
      rw [hs.processJS] at hfree
      constructor
      · intro hst
        refine ⟨fun hx => absurd hx hstop, fun _ => .inl (routs_full_iff.mp ?_)⟩
        rcases hst with ⟨-, b, q, hlb, hqb, hqr⟩ | ⟨-, hun⟩
        · rw [hl] at hlb
          cases hlb
          rw [hp] at hqb
          cases hqb
          rw [← hrts]
          exact hqr
        · rw [hun.processJS, hfree] at hl
          cases hl
      · intro hst
        have hfull := routs_full_iff.mpr ((hst.2 hstop).resolve_right hkept)
        exact .inl ⟨hfree, a, p, hl, hp, hrts ▸ hfull⟩

end Processes

/-- Adding a rule or a process is all or nothing exactly for the mappings of which
everything listed can be built, or whose object is refused whatever they list. -/
theorem adding_all_or_nothing_iff (h : Reachable env w) :
    (∀ doc mapping errs v, ruleParse env .add doc mapping w = .ok (errs, v) →
      (RuleAllOrNothing env doc mapping w errs v ↔ RuleAddable env doc mapping w)) ∧
    (∀ doc mapping errs v, processParse .add doc mapping w = .ok (errs, v) →
      (ProcessAllOrNothing doc mapping w errs v ↔ ProcessAddable doc mapping w)) := by
  obtain ⟨live, hc⟩ := h.consistent
  exact ⟨fun _ _ _ _ hr => ruleParse_all_or_nothing hc hr,
    fun _ _ _ _ hr => processParse_all_or_nothing hc hr⟩

/-- `{rule: x, match: [{}]}` -/
def emptyOpRule : Document where
  size := 6
  node := List.get [.mapping [(1, 2), (3, 4)], .scalar "rule", .scalar "x", .scalar "match",
    .sequence [5], .mapping []]

def emptyOpPairs : Pairs emptyOpRule := ([(1, 2), (3, 4)] : List (Fin 6 × Fin 6))

theorem adding_all_or_nothing_emptyOp :
    ∃ errs v, ruleParse .sample .add emptyOpRule emptyOpPairs (World.start [] [] []) =
        .ok (errs, v) ∧
      (RuleAllOrNothing .sample emptyOpRule emptyOpPairs (World.start [] [] []) errs v ↔
        RuleAddable .sample emptyOpRule emptyOpPairs (World.start [] [] [])) :=
  ⟨_, _, rfl, (adding_all_or_nothing_iff (reachable_start [] [] [])).1 _ _ _ _ rfl⟩

theorem emptyOp_walks : ¬ Stops emptyOpRule emptyOpPairs := by
  intro hs
  obtain ⟨pair, hm, items, hp⟩ := hs
  have hm : pair ∈ ([(1, 2), (3, 4)] : List (Fin 6 × Fin 6)) := hm
  cases hm with
  | head => cases hp
  | tail _ hm =>
    rw [List.mem_singleton.mp hm] at hp
    cases hp

theorem emptyOp_not_addable : ¬ RuleAddable .sample emptyOpRule emptyOpPairs (World.start [] [] []) := by
  intro h
  obtain ⟨rs, u, hu, -, hbuilt⟩ := h
  have hrun : (ruleListed emptyOpRule emptyOpPairs).mapM (ruleBuild .sample emptyOpRule)
      (World.start [] [] []) = .ok ([(.matchJQ, none)],
        { World.start [] [] [] with log := ["must provide at least one field"] }) := rfl
  rw [hrun] at hu
  cases hu
  rcases hbuilt emptyOp_walks with h | h
  · have := h _ (List.mem_singleton_self _)
    cases this
  · rcases h with h | h | h | h
    · cases h
    · cases h
    · exact h rfl
    · cases h

/-- The rule is stored, without the one operation that the mapping lists. -/
theorem rule_stored_without_match :
    ∃ errs v, ruleParse .sample .add emptyOpRule emptyOpPairs (World.start [] [] []) =
        .ok (errs, v) ∧
      ¬ RuleAllOrNothing .sample emptyOpRule emptyOpPairs (World.start [] [] []) errs v := by
  refine ⟨_, _, rfl, ?_⟩
  rw [ruleParse_all_or_nothing (consistent_start [] [] []) rfl]
  exact emptyOp_not_addable

end Xdpacket
