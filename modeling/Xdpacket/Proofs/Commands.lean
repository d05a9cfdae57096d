import Xdpacket.Proofs.Emitters
import Xdpacket.Proofs.Lifecycles

namespace Xdpacket

variable {w v : World} {live : Multiset Ref} {a : Addr} {env : Env} {doc : Document}
  {mapping : Pairs doc} {mode : ParseMode} {σ : Type} {E : Fault → Prop}
  {S : World → World → Prop}

section Walks

/-- An invariant of the local variables and the world that every turn keeps is kept
by the walk. -/
theorem yForMap_frames [IsTrans World S] {statements : Text → Node doc.size → σ → M (Step σ)}
    (Inv : σ → World → Prop) (hfault : E .badNode) (hrefl : ∀ s w, Inv s w → S w w)
    (hturn : ∀ key val s w, Inv s w →
      Frames E S (statements key val s) w (fun r v => Inv r.state v))
    {pairs : Pairs doc} {s : σ} (h : Inv s w) :
    Frames E S (yForMap doc statements pairs s) w (fun r v => Inv r.state v) := by
  induction pairs generalizing s w with
  | nil => exact ⟨hrefl s w h, h⟩
  | cons pair pairs ih =>
    obtain ⟨k, x⟩ := pair
    unfold yForMap
    cases hk : doc.node k with
    | scalar keyname =>
      simp only [scalarValue, pure_bind]
      apply (hturn keyname (doc.node x) s w h).bind
      intro r v hv
      cases r with
      | go t => exact ih hv
      | die t => exact ⟨hrefl t v hv, hv⟩
    | sequence items => exact hfault
    | mapping pairs => exact hfault

theorem yForSeq_frames [IsTrans World S] {statements : Node doc.size → σ → M (Step σ)}
    (Inv : σ → World → Prop) (hrefl : ∀ s w, Inv s w → S w w)
    (hturn : ∀ item s w, Inv s w →
      Frames E S (statements item s) w (fun r v => Inv r.state v))
    {items : List (Fin doc.size)} {s : σ} (h : Inv s w) :
    Frames E S (yForSeq doc statements items s) w (fun r v => Inv r.state v) := by
  induction items generalizing s w with
  | nil => exact ⟨hrefl s w h, h⟩
  | cons item items ih =>
    unfold yForSeq
    apply (hturn (doc.node item) s w h).bind
    intro r v hv
    cases r with
    | go t => exact ih hv
    | die t => exact ⟨hrefl t v hv, hv⟩

theorem badNode_noDangle : NoDangle .badNode := fun a ha => by cases ha

/-- A turn that only prints and answers. -/
theorem nbErr_turn {msg : Text} {r : α} :
    Frames E Idle (nbErr msg >>= fun _ => pure r : M α) w (fun _ _ => True) :=
  ⟨{ Idle.refl w with next := Nat.le_refl _ }, trivial⟩

theorem pure_turn {r : α} : Frames E Idle (pure r : M α) w (fun _ _ => True) :=
  ⟨.refl w, trivial⟩

/-- A walk whose turns change no object. -/
theorem yForMap_idle {statements : Text → Node doc.size → σ → M (Step σ)}
    (hturn : ∀ key val s w, Frames NoDangle Idle (statements key val s) w (fun _ _ => True))
    {pairs : Pairs doc} {s : σ} :
    Frames NoDangle Idle (yForMap doc statements pairs s) w (fun _ _ => True) :=
  yForMap_frames (fun _ _ => True) badNode_noDangle (fun _ w _ => Idle.refl w)
    (fun key val s w _ => hturn key val s w) trivial

theorem ifaceParseKey_idle {key : Text} {val : Node n} {s : IfaceArgs} :
    Frames NoDangle Idle (ifaceParseKey key val s) w (fun _ _ => True) := by
  unfold ifaceParseKey
  split
  · split
    · exact pure_turn
    · exact nbErr_turn
  · exact nbErr_turn

theorem fieldParseNumber_idle {key : Text} {val : Node n} {s : FieldArgs}
    {assign : Int → FieldArgs} :
    Frames NoDangle Idle (fieldParseNumber key val s assign) w (fun _ _ => True) := by
  unfold fieldParseNumber
  cases val.txt with
  | none =>
    intro b hb
    cases hb
  | some txt =>
    simp only [needText, pure_bind]
    split
    · exact nbErr_turn
    · exact pure_turn

theorem fieldParseKey_idle {key : Text} {val : Node n} {s : FieldArgs} :
    Frames NoDangle Idle (fieldParseKey key val s) w (fun _ _ => True) := by
  unfold fieldParseKey
  split
  · exact pure_turn
  split
  · exact fieldParseNumber_idle
  split
  · exact fieldParseNumber_idle
  split
  · exact fieldParseNumber_idle
  · exact nbErr_turn

theorem opParseDst_idle {key : Text} {val : Node n} {s : OpArgs} :
    Frames NoDangle Idle (opParseDst key val s) w (fun _ _ => True) := by
  unfold opParseDst
  split
  · exact pure_turn
  split
  · exact pure_turn
  split
  · exact pure_turn
  · exact nbErr_turn

theorem opParseSrc_idle {key : Text} {val : Node n} {s : OpArgs} :
    Frames NoDangle Idle (opParseSrc key val s) w (fun _ _ => True) := by
  unfold opParseSrc
  split
  · exact pure_turn
  split
  · exact pure_turn
  split
  · exact pure_turn
  split
  · exact pure_turn
  · exact nbErr_turn

theorem opParseKey_idle {key : Text} {val : Node doc.size} {s : OpArgs} :
    Frames NoDangle Idle (opParseKey doc key val s) w (fun _ _ => True) := by
  unfold opParseKey
  split
  · split
    · exact yForMap_idle (fun _ _ _ _ => opParseDst_idle)
    · exact nbErr_turn
  split
  · split
    · exact yForMap_idle (fun _ _ _ _ => opParseSrc_idle)
    · exact nbErr_turn
  · exact nbErr_turn

/-- `op_parse_new` -/
theorem opParseNew_does (h : Consistent w live) :
    Frames NoDangle Same (opParseNew env doc mapping) w (fun r v =>
      Consistent v (r.elim 0 Op.refs + live) ∧ ∀ op, r = some op → OpOk v op) := by
  unfold opParseNew
  apply (keep h (yForMap_idle (fun _ _ _ _ => opParseKey_idle))).bind
  intro r v hv
  obtain ⟨h, -⟩ := hv
  cases r with
  | go s => exact opNew_does h
  | die s =>
    refine ⟨.refl h.fresh, ?_, fun op ho => by cases ho⟩
    rwa [Option.elim_none, zero_add]

end Walks

section Queues

/-- The operations queued so far are finished, and hold what is in flight. -/
def Queued (live : Multiset Ref) (ops : List Op) (w : World) : Prop :=
  Consistent w (opsRefs ops + live) ∧ ∀ op ∈ ops, OpOk w op

theorem ruleParseItem_does {item : Node doc.size} {s : Nat × List Op} (h : Queued live s.2 w) :
    Frames NoDangle Same (ruleParseItem env doc item s) w (fun r v =>
      Queued live r.state.2 v) := by
  have hidle : ∀ {u : World} {msg : Text} {t : Nat}, Queued live s.2 u →
      Frames NoDangle Same (nbErr msg >>= fun _ => pure (.go (t, s.2)) :
        M (Step (Nat × List Op))) u (fun r v => Queued live r.state.2 v) := by
    intro u msg t hu
    have hi : Idle u { u with log := u.log ++ [msg] } := { Idle.refl u with next := Nat.le_refl _ }
    have hs := hi.same hu.1.fresh
    exact ⟨hs, hi.consistent hu.1, fun op ho => (hu.2 op ho).mono hs.toGrows⟩
  unfold ruleParseItem
  split
  · rename_i map
    apply (opParseNew_does h.1).bind_frame
    intro r v hs hv
    have hold : ∀ op ∈ s.2, OpOk v op := fun op ho => (h.2 op ho).mono hs.toGrows
    cases r with
    | none =>
      have hc : Consistent v (opsRefs s.2 + live) := by
        have := hv.1
        rwa [Option.elim_none, zero_add] at this
      exact hidle ⟨hc, hold⟩
    | some op =>
      refine ⟨.refl hv.1.fresh, ?_, ?_⟩
      · have he : opsRefs (s.2 ++ [op]) + live = op.refs + (opsRefs s.2 + live) := by
          rw [opsRefs_append, opsRefs_cons, opsRefs_nil]
          ac_rfl
        change Consistent v (opsRefs (s.2 ++ [op]) + live)
        rw [he]
        exact hv.1
      · intro p hp
        rcases List.mem_append.mp hp with hm | hm
        · exact hold p hm
        · rw [List.mem_singleton.mp hm]
          exact hv.2 op rfl
  · exact hidle h

theorem Queued.swap {xs ys : List Op} (h : Queued live (xs ++ ys) w) : Queued live (ys ++ xs) w := by
  refine ⟨?_, fun op ho => h.2 op (List.mem_append.mpr (List.mem_append.mp ho).symm)⟩
  rw [opsRefs_append, add_comm (opsRefs ys), ← opsRefs_append]
  exact h.1

/-- A list extends one queue, with the other one carried along. -/
theorem yForSeq_queued {seq : List (Fin doc.size)} {errCnt : Nat} {mine other : List Op}
    (h : Queued live (mine ++ other) w) :
    Frames NoDangle Same (yForSeq doc (ruleParseItem env doc) seq (errCnt, mine)) w
      (fun r v => Queued live (r.state.2 ++ other) v) := by
  have hc : Queued (opsRefs other + live) mine w := by
    refine ⟨?_, fun op ho => h.2 op (List.mem_append_left _ ho)⟩
    rw [← add_assoc, ← opsRefs_append]
    exact h.1
  refine Runs.imp (yForSeq_frames
    (fun (t : Nat × List Op) v => Queued (opsRefs other + live) t.2 v)
    (fun _ _ ht => Same.refl ht.1.fresh) (fun _ _ _ ht => ruleParseItem_does ht) hc) ?_
  intro r v hv
  obtain ⟨hs, hq⟩ := hv
  refine ⟨hs, ?_, ?_⟩
  · rw [opsRefs_append, add_assoc]
    exact hq.1
  · intro op ho
    rcases List.mem_append.mp ho with hm | hm
    · exact hq.2 op hm
    · exact (h.2 op (List.mem_append_right _ hm)).mono hs.toGrows

/-- What `rule_parse` keeps while it walks: a queue is only built in mode `add`. -/
structure RuleWalk (mode : ParseMode) (live : Multiset Ref) (s : RuleArgs) (w : World) : Prop where
  queued : Queued live (s.matchJQ ++ s.writeJQ) w
  adding : mode ≠ .add → s.matchJQ = [] ∧ s.writeJQ = []

theorem ruleParseKey_does {key : Text} {val : Node doc.size} {s : RuleArgs}
    (h : RuleWalk mode live s w) :
    Frames NoDangle Same (ruleParseKey env mode doc key val s) w (fun r v =>
      RuleWalk mode live r.state v) := by
  have hkeep : ∀ {m : M (Step RuleArgs)}, Frames NoDangle Idle m w (fun r _ =>
      r.state.matchJQ = s.matchJQ ∧ r.state.writeJQ = s.writeJQ) →
      Frames NoDangle Same m w (fun r v => RuleWalk mode live r.state v) := by
    intro m hm
    refine Runs.imp hm ?_
    intro r v hv
    obtain ⟨hi, hm, hw⟩ := hv
    have hs := hi.same h.queued.1.fresh
    refine ⟨hs, ⟨?_, ?_⟩, ?_⟩
    · rw [hm, hw]
      exact hi.consistent h.queued.1
    · rw [hm, hw]
      exact fun op ho => (h.queued.2 op ho).mono hs.toGrows
    · rw [hm, hw]
      exact h.adding
  have herr : ∀ {msg : Text} {r : Step RuleArgs}, r.state.matchJQ = s.matchJQ →
      r.state.writeJQ = s.writeJQ →
      Frames NoDangle Same (nbErr msg >>= fun _ => pure r : M (Step RuleArgs)) w
        (fun r v => RuleWalk mode live r.state v) :=
    fun hm hw => hkeep ⟨{ Idle.refl w with next := Nat.le_refl _ }, hm, hw⟩
  unfold ruleParseKey
  split
  · split
    · exact hkeep ⟨.refl w, rfl, rfl⟩
    · exact herr rfl rfl
  · split
    · exact herr rfl rfl
    rename_i hadd
    have hmode : mode = .add := not_not.mp hadd
    split
    · apply (yForSeq_queued h.queued).bind
      intro r v hv
      exact ⟨.refl hv.1.fresh, hv, fun hm => absurd hmode hm⟩
    split
    · apply (yForSeq_queued h.queued.swap).bind
      intro r v hv
      exact ⟨.refl hv.1.fresh, hv.swap, fun hm => absurd hmode hm⟩
    · exact herr rfl rfl
  · exact herr rfl rfl

/-- The walk of `rule_parse` -/
theorem ruleWalk_does (h : Consistent w live) :
    Frames NoDangle Same (yForMap doc (ruleParseKey env mode doc) mapping ⟨0, "", [], []⟩) w
      (fun r v => RuleWalk mode live r.state v) := by
  apply yForMap_frames (RuleWalk mode live) badNode_noDangle
    (fun s w hs => Same.refl hs.queued.1.fresh)
    (fun _ _ _ _ hs => ruleParseKey_does hs)
  refine ⟨⟨?_, fun op ho => by cases ho⟩, fun _ => ⟨rfl, rfl⟩⟩
  rwa [List.append_nil, opsRefs_nil, zero_add]

/-- The routs queued so far are finished, and hold what is in flight. -/
def RoutsQueued (live : Multiset Ref) (rts : List Rout) (w : World) : Prop :=
  Consistent w (routsRefs rts + live) ∧ ∀ rt ∈ rts, RoutOk w rt

theorem RoutsQueued.idle {rts : List Rout} (h : RoutsQueued live rts w) (hi : Idle w v) :
    RoutsQueued live rts v :=
  ⟨hi.consistent h.1, fun rt hrt => (h.2 rt hrt).mono (hi.same h.1.fresh).toGrows⟩

/-- Print a message; the routs stay queued. -/
theorem nbErr_routs {rts : List Rout} {msg : Text} {r : α} {q : α → List Rout}
    (h : RoutsQueued live rts w) (hq : q r = rts) :
    Frames NoDangle Same (nbErr msg >>= fun _ => pure r : M α) w
      (fun r v => RoutsQueued live (q r) v) := by
  have hi : Idle w { w with log := w.log ++ [msg] } := { Idle.refl w with next := Nat.le_refl _ }
  refine ⟨hi.same h.1.fresh, ?_⟩
  change RoutsQueued live (q r) _
  rw [hq]
  exact h.idle hi

theorem processParsePair_does {key : Text} {val : Node n} {s : Nat × List Rout}
    (h : RoutsQueued live s.2 w) :
    Frames NoDangle Same (processParsePair key val s) w (fun r v =>
      RoutsQueued live r.state.2 v) := by
  unfold processParsePair
  apply (routNew_does h.1).bind_frame
  intro r v hs hv
  have hold : ∀ rt ∈ s.2, RoutOk v rt := fun rt hrt => (h.2 rt hrt).mono hs.toGrows
  cases r with
  | none =>
    have hc := hv.1
    rw [Option.elim_none, zero_add] at hc
    exact nbErr_routs (q := fun r : Step (Nat × List Rout) => r.state.2) ⟨hc, hold⟩ rfl
  | some rt =>
    refine ⟨.refl hv.1.fresh, ?_, ?_⟩
    · have he : routsRefs (s.2 ++ [rt]) + live = rt.refs + (routsRefs s.2 + live) := by
        rw [routsRefs_append, routsRefs_cons, routsRefs_nil]
        ac_rfl
      change Consistent v (routsRefs (s.2 ++ [rt]) + live)
      rw [he]
      exact hv.1
    · intro x hx
      rcases List.mem_append.mp hx with hm | hm
      · exact hold x hm
      · rw [List.mem_singleton.mp hm]
        exact hv.2 rt rfl

theorem processParseItem_does {item : Node doc.size} {s : Nat × List Rout}
    (h : RoutsQueued live s.2 w) :
    Frames NoDangle Same (processParseItem doc item s) w (fun r v =>
      RoutsQueued live r.state.2 v) := by
  unfold processParseItem
  split
  · exact yForMap_frames (fun (s : Nat × List Rout) v => RoutsQueued live s.2 v)
      badNode_noDangle (fun _ _ ht => Same.refl ht.1.fresh) (fun _ _ _ _ ht => processParsePair_does ht) h
  · exact nbErr_routs (q := fun r : Step (Nat × List Rout) => r.state.2) h rfl

theorem processParseKey_does {key : Text} {val : Node doc.size} {s : ProcessArgs}
    (h : RoutsQueued live s.routJQ w) :
    Frames NoDangle Same (processParseKey doc key val s) w (fun r v =>
      RoutsQueued live r.state.routJQ v) := by
  have herr : ∀ {msg : Text} {r : Step ProcessArgs}, r.state.routJQ = s.routJQ →
      Frames NoDangle Same (nbErr msg >>= fun _ => pure r : M (Step ProcessArgs)) w
        (fun r v => RoutsQueued live r.state.routJQ v) :=
    fun hr => nbErr_routs (q := fun r : Step ProcessArgs => r.state.routJQ) h hr
  unfold processParseKey
  split
  · split
    · exact ⟨.refl h.1.fresh, h⟩
    · exact herr rfl
  · split
    · refine Frames.bind (yForSeq_frames (fun (s : Nat × List Rout) v => RoutsQueued live s.2 v)
        (fun _ _ ht => Same.refl ht.1.fresh) (fun _ _ _ ht => processParseItem_does ht) h) ?_
      intro r v hv
      exact ⟨.refl hv.1.fresh, hv⟩
    · exact herr rfl
  · exact herr rfl

/-- The walk of `process_parse` -/
theorem processWalk_does (h : Consistent w live) :
    Frames NoDangle Same (yForMap doc (processParseKey doc) mapping ⟨0, "", []⟩) w
      (fun r v => RoutsQueued live r.state.routJQ v) := by
  apply yForMap_frames (fun (s : ProcessArgs) v => RoutsQueued live s.routJQ v)
    badNode_noDangle (fun s w hs => Same.refl hs.1.fresh) (fun _ _ _ _ hs => processParseKey_does hs)
  refine ⟨?_, fun rt hrt => by cases hrt⟩
  rwa [routsRefs_nil, zero_add]

end Queues

section Modes

/-- The last step of a parser that found nothing to do but answer. -/
theorem parseDie_keep {errCnt : Nat} {msg : Text} (h : Consistent w live) :
    Frames NoDangle Same (parseDie errCnt msg) w (fun r v => Consistent v live ∧ r ≠ 0) :=
  (keep h parseDie_idle).imp (fun r v hr => ⟨hr.1, by have := hr.2; omega⟩)

theorem parseEmit_keep {errCnt : Nat} {emit : M Nat} (h : Consistent w live)
    (he : Frames NoDangle Idle emit w (fun _ _ => True)) :
    Frames NoDangle Same (parseEmit errCnt emit) w (fun _ v => Consistent v live) :=
  (keep h (parseEmit_idle he)).imp (fun _ _ hr => hr.1)

/-- `rule_parse` in mode `add`, after the walk: refused, or stored with the queues. -/
theorem ruleParse_add {s : RuleArgs} (h : Queued live (s.matchJQ ++ s.writeJQ) w) :
    Frames NoDangle Quiet (ruleParseMode env .add s) w (fun r v => Consistent v live ∧
      (RuleRefused env s.name w ∧ r ≠ 0 ∧ Same w v ∨
        ¬ RuleRefused env s.name w ∧ AList.lookup s.name w.ruleJS = none ∧
          ∃ a, v.rules a = some ⟨s.name, s.matchJQ, s.writeJQ, 0⟩)) := by
  obtain ⟨hc, hops⟩ := h
  rw [opsRefs_append] at hc
  unfold ruleParseMode
  refine Runs.bind ((ruleNew_does hc hops).and ruleNew_refused) ?_
  intro r v hv
  obtain ⟨⟨hq, hcv, hr⟩, href⟩ := hv
  cases r with
  | none =>
    refine Runs.imp (parseDie_keep hcv) ?_
    intro r u hu
    exact ⟨hq.trans hu.1.toQuiet, hu.2.1, .inl ⟨href.mp rfl, hu.2.2, hr.trans hu.1⟩⟩
  | some a =>
    have hkept : ¬ RuleRefused env s.name w := by
      intro hn
      have := href.mpr hn
      cases this
    refine Runs.imp (parseEmit_idle (ruleEmit_idle hcv hr.1)) ?_
    intro r u hu
    refine ⟨hq.trans (hu.1.quiet hcv.fresh), hu.1.consistent hcv, .inr ⟨hkept, hr.2, a, ?_⟩⟩
    rw [hu.1.rules]
    exact hr.1

theorem parseDie_quiet {errCnt : Nat} {msg : Text} (h : Consistent w live) :
    Frames NoDangle Quiet (parseDie errCnt msg) w (fun _ v => Consistent v live) :=
  ((parseDie_keep h).imp (fun _ _ hr => hr.1)).weaken (fun _ => Same.toQuiet)

theorem parseEmit_quiet {errCnt : Nat} {emit : M Nat} (h : Consistent w live)
    (he : Frames NoDangle Idle emit w (fun _ _ => True)) :
    Frames NoDangle Quiet (parseEmit errCnt emit) w (fun _ v => Consistent v live) :=
  (parseEmit_keep h he).weaken (fun _ => Same.toQuiet)

/-- The end of a delete: the object is shown, then freed. -/
theorem emitThenFree {errCnt : Nat} {emit : M Nat} {free : M Unit} (h : Consistent w live)
    (he : Frames NoDangle Idle emit w (fun _ _ => True))
    (hf : ∀ v, Idle w v → Consistent v live →
      Frames NoDangle Quiet free v (fun _ u => Consistent u live)) :
    Frames NoDangle Quiet
      (do if (← emit) ≠ 0 then parseDie errCnt "" else free; return errCnt) w
      (fun _ v => Consistent v live) := by
  refine Runs.bind he ?_
  intro r v hv
  obtain ⟨hi, -⟩ := hv
  have hc := hi.consistent h
  have hq := hi.quiet h.fresh
  split
  · exact Runs.imp (parseDie_quiet hc) (fun _ _ hu => ⟨hq.trans hu.1, hu.2⟩)
  · refine Runs.bind (hf v hi hc) ?_
    intro _ u hu
    exact ⟨hq.trans hu.1, hu.2⟩

/-- `rule_parse` in the other modes, after the walk -/
theorem ruleParse_other {s : RuleArgs} (h : Consistent w live) (hm : mode ≠ .add) :
    Frames NoDangle Quiet (ruleParseMode env mode s) w (fun _ v => Consistent v live) := by
  cases mode with
  | add => exact absurd rfl hm
  | invalid => exact parseDie_quiet h
  | del =>
    simp only [ruleParseMode]
    rw [jsGet_bind]
    cases hl : AList.lookup s.name w.ruleJS with
    | none => exact parseDie_quiet h
    | some a =>
      obtain ⟨r, hr, -⟩ := h.rules.found hl
      simp only []
      rw [deref_bind hr]
      by_cases hc : r.refcnt = 0
      · rw [if_neg (not_not.mpr hc)]
        refine emitThenFree h (ruleEmit_idle h hr) ?_
        intro v hi hcv
        rw [← hi.rules] at hr
        exact ruleFreeAt_does hcv hr hc
      · rw [if_pos hc]
        exact parseDie_quiet h
  | prn =>
    simp only [ruleParseMode]
    split
    · exact parseEmit_quiet h (ruleEmitAll_idle h)
    · rw [jsGet_bind]
      cases hl : AList.lookup s.name w.ruleJS with
      | none => exact ⟨.refl h.fresh, h⟩
      | some a =>
        obtain ⟨r, hr, -⟩ := h.rules.found hl
        exact parseEmit_quiet h (ruleEmit_idle h hr)

/-- `field_parse` after the walk -/
theorem fieldParseMode_does {s : FieldArgs} (h : Consistent w live) :
    Frames NoDangle Quiet (fieldParseMode env mode s) w (fun _ v => Consistent v live) := by
  unfold fieldParseMode
  cases mode with
  | invalid => exact parseDie_quiet h
  | add =>
    simp only []
    apply (fieldNew_does h).bind
    intro r v hv
    obtain ⟨h, hr⟩ := hv
    cases r with
    | none => exact parseDie_quiet h
    | some a =>
      obtain ⟨f, hf⟩ := Option.isSome_iff_exists.mp (hr a rfl)
      exact parseEmit_quiet h (fieldEmit_idle hf)
  | del =>
    simp only []
    cases hn : s.name with
    | none =>
      intro b hb
      cases hb
    | some name =>
      simp only [needText, pure_bind]
      rw [jsGet_bind]
      cases hl : AList.lookup name w.fieldJS with
      | none => exact parseDie_quiet h
      | some a =>
        obtain ⟨f, hf, -⟩ := h.fields.found hl
        simp only []
        rw [deref_bind hf]
        by_cases hc : f.refcnt = 0
        · rw [if_neg (not_not.mpr hc)]
          refine emitThenFree h (fieldEmit_idle hf) ?_
          intro v hi hcv
          rw [← hi.fields] at hf
          exact fieldFreeAt_does hcv hf hc
        · rw [if_pos hc]
          exact parseDie_quiet h
  | prn =>
    simp only []
    cases hn : s.name with
    | none =>
      intro b hb
      cases hb
    | some name =>
      simp only [needText, pure_bind]
      split
      · exact parseEmit_quiet h (fieldEmitAll_idle h)
      · rw [jsGet_bind]
        cases hl : AList.lookup name w.fieldJS with
        | none => exact ⟨.refl h.fresh, h⟩
        | some a =>
          obtain ⟨f, hf, -⟩ := h.fields.found hl
          exact parseEmit_quiet h (fieldEmit_idle hf)

/-- `field_parse` -/
theorem fieldParse_does (h : Consistent w live) :
    Frames NoDangle Quiet (fieldParse env mode doc mapping) w (fun _ v => Consistent v live) := by
  unfold fieldParse
  refine Frames.bind ((keep h (yForMap_idle
    (fun _ _ _ _ => fieldParseKey_idle))).weaken (fun _ => Same.toQuiet)) ?_
  intro r w hv
  obtain ⟨h, -⟩ := hv
  cases r with
  | die s => exact ⟨.refl h.fresh, h⟩
  | go s => exact fieldParseMode_does h

/-- `iface_parse` after the walk -/
theorem ifaceParseMode_does {s : IfaceArgs} (h : Consistent w live) :
    Frames NoDangle Quiet (ifaceParseMode env mode s) w (fun _ v => Consistent v live) := by
  unfold ifaceParseMode
  cases mode with
  | invalid => exact parseDie_quiet h
  | add =>
    simp only []
    refine Runs.bind (ifaceNew_does h) ?_
    intro r v hv
    obtain ⟨hq, hc, hr⟩ := hv
    cases r with
    | none => exact Runs.imp (parseDie_quiet hc) (fun _ _ hu => ⟨hq.trans hu.1, hu.2⟩)
    | some a =>
      obtain ⟨hlive, hfree⟩ := hr a rfl
      obtain ⟨i, hi⟩ := Option.isSome_iff_exists.mp hlive
      simp only []
      rw [deref_run hi]
      refine Runs.bind (eptkRegister_does hc hlive hfree) ?_
      intro ok u hu
      obtain ⟨hqu, hcu, hif⟩ := hu
      have hq := hq.trans hqu
      rw [← hif] at hi
      split
      · exact Runs.imp (parseDie_quiet hcu) (fun _ _ hu => ⟨hq.trans hu.1, hu.2⟩)
      · exact Runs.imp (parseEmit_quiet hcu (ifaceEmit_idle hi))
          (fun _ _ hu => ⟨hq.trans hu.1, hu.2⟩)
  | del =>
    simp only []
    rw [jsGet_bind]
    cases hl : AList.lookup s.name w.ifaceJS with
    | none => exact parseDie_quiet h
    | some a =>
      obtain ⟨i, hi, -⟩ := h.ifaces.found hl
      simp only []
      rw [deref_bind hi]
      split
      · exact parseDie_quiet h
      refine Frames.bind ((keep h (ifaceEmit_idle hi)).weaken (fun _ => Same.toQuiet)) ?_
      intro rc v hv
      obtain ⟨h, -⟩ := hv
      split
      · exact parseDie_quiet h
      apply (eptkRemove_does h).bind
      intro k u h
      split
      · exact parseDie_quiet h
      · exact ⟨.refl h.fresh, h⟩
  | prn =>
    simp only []
    split
    · exact parseEmit_quiet h (ifaceEmitAll_idle h)
    · rw [jsGet_bind]
      cases hl : AList.lookup s.name w.ifaceJS with
      | none => exact ⟨.refl h.fresh, h⟩
      | some a =>
        obtain ⟨i, hi, -⟩ := h.ifaces.found hl
        exact parseEmit_quiet h (ifaceEmit_idle hi)

/-- `iface_parse` -/
theorem ifaceParse_does (h : Consistent w live) :
    Frames NoDangle Quiet (ifaceParse env mode doc mapping) w (fun _ v => Consistent v live) := by
  unfold ifaceParse
  refine Frames.bind ((keep h (yForMap_idle
    (fun _ _ _ _ => ifaceParseKey_idle))).weaken (fun _ => Same.toQuiet)) ?_
  intro r w hv
  obtain ⟨h, -⟩ := hv
  cases r with
  | die s => exact ⟨.refl h.fresh, h⟩
  | go s => exact ifaceParseMode_does h

/-- `process_parse` in mode `add`, after the walk: refused, or stored with the queue. -/
theorem processParse_add {s : ProcessArgs} (h : RoutsQueued live s.routJQ w) :
    Frames NoDangle Quiet (processParseMode .add s) w (fun r v => Consistent v live ∧
      (ProcessRefused s.name w ∧ r ≠ 0 ∧ Same w v ∨
        ¬ ProcessRefused s.name w ∧ AList.lookup s.name w.processJS = none ∧ ∃ a p i,
          v.processes a = some p ∧ p.routJQ = s.routJQ ∧ v.ifaces p.inIface = some i ∧
            i.name = s.name)) := by
  unfold processParseMode
  refine Runs.bind ((processNew_does h.1 h.2).and (processNew_refused h.1)) ?_
  intro r v hv
  obtain ⟨⟨hq, hcv, hr⟩, href⟩ := hv
  cases r with
  | none =>
    refine Runs.imp (parseDie_keep hcv) ?_
    intro r u hu
    exact ⟨hq.trans hu.1.toQuiet, hu.2.1, .inl ⟨href.mp rfl, hu.2.2, hr.trans hu.1⟩⟩
  | some a =>
    obtain ⟨hl, p, i, hp, hrts, hi, hn⟩ := hr
    have hkept : ¬ ProcessRefused s.name w := by
      intro hn
      have := href.mpr hn
      cases this
    refine Runs.imp (parseEmit_idle (processEmit_idle hcv hp)) ?_
    intro r u hu
    refine ⟨hq.trans (hu.1.quiet hcv.fresh), hu.1.consistent hcv,
      .inr ⟨hkept, hl, a, p, i, ?_, hrts, ?_, hn⟩⟩
    · rw [hu.1.processes]
      exact hp
    · rw [hu.1.ifaces]
      exact hi

/-- `process_parse` in mode `prn`, after the walk -/
theorem processParse_prn {s : ProcessArgs} (h : Consistent w live) :
    Frames NoDangle Same (processParseMode .prn s) w (fun _ v => Consistent v live) := by
  simp only [processParseMode]
  split
  · exact parseEmit_keep h (processEmitAll_idle h)
  · rw [jsGet_bind]
    cases hl : AList.lookup s.name w.processJS with
    | none => exact ⟨.refl h.fresh, h⟩
    | some a =>
      obtain ⟨p, hp, -⟩ := h.processes.found hl
      exact parseEmit_keep h (processEmit_idle h hp)

/-- `process_parse` in mode `del`, after the walk: nothing, or one process goes
with the references it held. -/
theorem processParse_del {s : ProcessArgs} (h : Consistent w live) :
    Frames NoDangle Quiet (processParseMode .del s) w (fun _ v => Consistent v live ∧
      (v.stored = w.stored ∨ ∃ a p, w.processes a = some p ∧
        ∀ x, w.stored x = v.stored x + p.refs.count x)) := by
  have hdie : ∀ {u : World} {msg : Text}, Idle w u →
      Runs NoDangle (parseDie s.errCnt msg) u (fun _ v => Quiet w v ∧ Consistent v live ∧
        (v.stored = w.stored ∨ ∃ a p, w.processes a = some p ∧
          ∀ x, w.stored x = v.stored x + p.refs.count x)) := by
    intro u msg hi
    refine Runs.imp (parseDie_keep (hi.consistent h)) ?_
    intro r v hv
    have hs := (hi.same h.fresh).trans hv.1
    exact ⟨hs.toQuiet, hv.2.1, .inl hs.stored⟩
  simp only [processParseMode]
  rw [jsGet_bind]
  cases hl : AList.lookup s.name w.processJS with
  | none => exact hdie (.refl w)
  | some a =>
    obtain ⟨p, hp, -⟩ := h.processes.found hl
    refine Runs.bind (processEmit_idle h hp) ?_
    intro r v hv
    obtain ⟨hi, -⟩ := hv
    have hc := hi.consistent h
    split
    · exact hdie hi
    · have hp' : v.processes a = some p := by
        rw [hi.processes]
        exact hp
      refine Runs.bind (processFreeAt_does hc hp') ?_
      intro _ u hu
      obtain ⟨hq, hcu, hstored⟩ := hu
      refine ⟨(hi.quiet h.fresh).trans hq, hcu, .inr ⟨a, p, hp, ?_⟩⟩
      rw [← (hi.same h.fresh).stored]
      exact hstored

end Modes

end Xdpacket
