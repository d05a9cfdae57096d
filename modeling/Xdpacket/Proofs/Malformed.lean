import Xdpacket.Proofs.Shapes

namespace Xdpacket

variable {w v : World} {env : Env} {doc : Document} {mode : ParseMode} {σ : Type}
  {other : Fault → Prop}

/-- What the parsers build on: in the worlds `K` nothing below them has a bad fault of the
document, and it leads to such worlds again. `ops` and `routs` say what may be queued. -/
structure Trusted (env : Env) (other : Fault → Prop) (K : World → Prop) (ops : List Op → Prop)
    (routs : List Rout → Prop) : Prop where
  idle : ∀ w log outlist outroot, K w →
    K { w with log := log, outlist := outlist, outroot := outroot }
  noOps : ops []
  noRouts : routs []
  alloc : ∀ w, K w → Runs other alloc w (fun _ v => K v)
  emitAll : ∀ w, K w → Runs other emitAll w (fun _ v => K v)
  opNew : ∀ df ds sf ss sv w, K w → Runs other (opNew env df ds sf ss sv) w (fun r v =>
    K v ∧ ∀ q, ops q → ops (q ++ r.toList))
  routNew : ∀ rule out w, K w → Runs other (routNew rule out) w (fun r v =>
    K v ∧ ∀ q, routs q → routs (q ++ r.toList))
  field : ∀ mode s w, K w → (mode = .add ∨ mode = .invalid ∨ s.name.isSome) →
    Runs other (fieldParseMode env mode s) w (fun _ v => K v)
  iface : ∀ mode s w, K w → Runs other (ifaceParseMode env mode s) w (fun _ v => K v)
  rule : ∀ mode s w, K w → ops s.matchJQ → ops s.writeJQ →
    Runs other (ruleParseMode env mode s) w (fun _ v => K v)
  process : ∀ mode s w, K w → routs s.routJQ →
    Runs other (processParseMode mode s) w (fun _ v => K v)

abbrev AsksShape (other : Fault → Prop) (P : Bool) (m : M α) (w : World) (Q : α → World → Prop) :
    Prop :=
  Asks other Fault.OfDocument (P = true) m w Q

def Step.isDie : Step σ → Bool
  | .go _ => false
  | .die _ => true

section Walks

variable {good stops : Text → Node doc.size → Bool}
  {statements : Text → Node doc.size → σ → M (Step σ)} {I : σ → World → Prop}

/-- A walk asks for keys that are text and for what its turns ask. -/
theorem yForMap_asks
    (hturn : ∀ key val s w, I s w → AsksShape other (good key val) (statements key val s) w
      (fun r v => I r.state v ∧ r.isDie = stops key val))
    {pairs : Pairs doc} {s : σ} (h : I s w) :
    AsksShape other (walkOk doc good stops pairs) (yForMap doc statements pairs s) w
      (fun r v => I r.state v ∧ r.isDie = walkStops doc stops pairs) := by
  induction pairs generalizing s w with
  | nil => exact Asks.pure rfl ⟨h, rfl⟩
  | cons pair pairs ih =>
    obtain ⟨k, x⟩ := pair
    unfold yForMap
    cases hk : doc.node k with
    | sequence items =>
      refine Asks.bind (Q := fun _ _ => True) (A := walkOk doc good stops ((k, x) :: pairs) = true)
        (Asks.throw trivial ?_) id (fun _ _ hp _ => ?_)
      · simp [walkOk, hk]
      · simp [walkOk, hk] at hp
    | mapping items =>
      refine Asks.bind (Q := fun _ _ => True) (A := walkOk doc good stops ((k, x) :: pairs) = true)
        (Asks.throw trivial ?_) id (fun _ _ hp _ => ?_)
      · simp [walkOk, hk]
      · simp [walkOk, hk] at hp
    | scalar key =>
      simp only [scalarValue, pure_bind]
      have hok : walkOk doc good stops ((k, x) :: pairs) =
          (good key (doc.node x) && (stops key (doc.node x) || walkOk doc good stops pairs)) := by
        simp only [walkOk, hk]
      have hstops : walkStops doc stops ((k, x) :: pairs) =
          (stops key (doc.node x) || walkStops doc stops pairs) := by
        simp only [walkStops, List.any_cons, hk, Node.txt, Option.any_some]
      rw [hok, hstops]
      refine (hturn key (doc.node x) s w h).bind ?_ ?_
      · intro hp
        exact (Bool.and_eq_true_iff.mp hp).1
      · intro r v hg hv
        obtain ⟨hv, hdie⟩ := hv
        rw [hg]
        cases r with
        | die t =>
          rw [← hdie]
          exact Asks.pure rfl ⟨hv, rfl⟩
        | go t =>
          rw [← hdie]
          simp only [Step.isDie, Bool.true_and, Bool.false_or]
          exact ih hv

/-- A walk of a list whose turns never stop asks for what its turns ask. -/
theorem yForSeq_asks {good : Node doc.size → Bool} {statements : Node doc.size → σ → M (Step σ)}
    (hturn : ∀ item s w, I s w → AsksShape other (good item) (statements item s) w
      (fun r v => I r.state v ∧ r.isDie = false))
    {items : List (Fin doc.size)} {s : σ} (h : I s w) :
    AsksShape other (items.all (fun item => good (doc.node item))) (yForSeq doc statements items s) w
      (fun r v => I r.state v ∧ r.isDie = false) := by
  induction items generalizing s w with
  | nil => exact Asks.pure rfl ⟨h, rfl⟩
  | cons item items ih =>
    unfold yForSeq
    rw [List.all_cons]
    refine (hturn (doc.node item) s w h).bind ?_ ?_
    · intro hp
      exact (Bool.and_eq_true_iff.mp hp).1
    · intro r v hg hv
      obtain ⟨hv, hgo⟩ := hv
      rw [hg, Bool.true_and]
      cases r with
      | die t => cases hgo
      | go t => exact ih hv

end Walks

section Parsers

variable {K : World → Prop} {ops : List Op → Prop} {routs : List Rout → Prop}

theorem Trusted.say (hT : Trusted env other K ops routs) (h : K w) (msg : Text) :
    K { w with log := w.log ++ [msg] } :=
  hT.idle w (w.log ++ [msg]) w.outlist w.outroot h

/-- The message of a mistake, and an answer. -/
theorem Trusted.counts (hT : Trusted env other K ops routs) {α : Type} (h : K w) {msg : Text}
    {r : α} {Q : α → World → Prop} (hq : ∀ v, K v → Q r v) :
    Runs other (nbErr msg >>= fun _ => pure r : M α) w Q :=
  hq _ (hT.say h msg)

/-- The name that the walk of a field leaves. -/
theorem fieldWalk_name {pairs : Pairs doc} {s : FieldArgs} :
    Runs (fun _ => True) (yForMap doc fieldParseKey pairs s) w (fun r _ => ∀ t, r = .go t →
      t.name.isSome = pairs.foldl (fun named p =>
        if (doc.node p.1).txt.any isFieldKey then (doc.node p.2).isScalar else named)
          s.name.isSome) := by
  have hkey : ∀ key (val : Node doc.size) (s : FieldArgs) w,
      Runs (fun _ => True) (fieldParseKey key val s) w (fun r _ => ∀ t, r = .go t →
        t.name.isSome = if isFieldKey key then val.isScalar else s.name.isSome) := by
    intro key val s w
    have hnum : ∀ {assign : Int → FieldArgs}, isFieldKey key = false →
        (∀ z, (assign z).name = s.name) →
        Runs (fun _ => True) (fieldParseNumber key val s assign) w (fun r _ => ∀ t, r = .go t →
          t.name.isSome = if isFieldKey key then val.isScalar else s.name.isSome) := by
      intro assign hk ha
      unfold fieldParseNumber
      cases val.txt with
      | none => exact trivial
      | some txt =>
        simp only [needText, pure_bind]
        split
        · intro t ht
          cases ht
        · intro t ht
          cases ht
          rw [hk, ha]
          rfl
    unfold fieldParseKey
    by_cases hf : key = "field" ∨ key = "f"
    · rw [if_pos hf]
      intro t ht
      cases ht
      have hk : isFieldKey key = true := by rcases hf with rfl | rfl <;> rfl
      rw [hk]
      cases val <;> rfl
    · have hk : isFieldKey key = false := by
        simpa [isFieldKey] using hf
      rw [if_neg hf]
      split
      · exact hnum hk (fun _ => rfl)
      split
      · exact hnum hk (fun _ => rfl)
      split
      · exact hnum hk (fun _ => rfl)
      · intro t ht
        cases ht
        rw [hk]
        rfl
  induction pairs generalizing s w with
  | nil =>
    intro t ht
    cases ht
    rfl
  | cons pair pairs ih =>
    obtain ⟨k, x⟩ := pair
    refine yForMap_turn trivial ?_
    intro key hk
    simp only [List.foldl_cons, hk, Node.txt, Option.any_some]
    refine (hkey key (doc.node x) s w).imp ?_
    intro r v hr
    cases r with
    | die t =>
      intro u hu
      cases hu
    | go t =>
      rw [← hr t rfl]
      exact ih

variable (hT : Trusted env other K ops routs)

include hT

theorem ifaceParse_asks {mapping : Pairs doc} (h : K w) :
    AsksShape other (ifaceShape doc mapping) (ifaceParse env mode doc mapping) w
      (fun _ v => K v) := by
  have hturn : ∀ key (val : Node doc.size) s w, K w →
      AsksShape other true (ifaceParseKey key val s) w
        (fun r v => K v ∧ r.isDie = !val.isScalar) := by
    intro key val s w h
    unfold ifaceParseKey
    cases val with
    | scalar txt =>
      dsimp only
      split
      · exact Asks.pure rfl ⟨h, rfl⟩
      · exact Asks.of_runs (hT.counts h (fun v hv => ⟨hv, rfl⟩)) rfl
    | sequence items => exact Asks.of_runs (hT.counts h (fun v hv => ⟨hv, rfl⟩)) rfl
    | mapping pairs => exact Asks.of_runs (hT.counts h (fun v hv => ⟨hv, rfl⟩)) rfl
  unfold ifaceParse
  refine (yForMap_asks (I := fun _ w => K w) (fun key val s w h => hturn key val s w h) h).bind
    id ?_
  intro r v hp hv
  cases r with
  | die s => exact Asks.pure hp hv.1
  | go s => exact Asks.of_runs (hT.iface mode s v hv.1) hp

theorem fieldParseNumber_asks {key : Text} {val : Node n} {s : FieldArgs} {assign : Int → FieldArgs}
    (h : K w) :
    AsksShape other val.isScalar (fieldParseNumber key val s assign) w (fun r v =>
      K v ∧ r.isDie = val.txt.any (fun txt => (strtol txt).2)) := by
  unfold fieldParseNumber
  cases val with
  | scalar txt =>
    simp only [needText, Node.txt, pure_bind, Option.any_some]
    cases hr : (strtol txt).2 with
    | true =>
      simp only [if_true]
      exact Asks.of_runs (hT.counts h (fun v hv => ⟨hv, rfl⟩)) rfl
    | false =>
      simp only [Bool.false_eq_true, if_false]
      exact Asks.pure rfl ⟨h, rfl⟩
  | sequence items => exact .inr ⟨trivial, by simp [Node.isScalar]⟩
  | mapping pairs => exact .inr ⟨trivial, by simp [Node.isScalar]⟩

theorem fieldParseKey_asks {key : Text} {val : Node n} {s : FieldArgs} (h : K w) :
    AsksShape other (!isNumberKey key || val.isScalar) (fieldParseKey key val s) w (fun r v =>
      K v ∧ r.isDie = fieldStops key val) := by
  have hnum : ∀ {assign : Int → FieldArgs}, isNumberKey key = true →
      AsksShape other (!isNumberKey key || val.isScalar) (fieldParseNumber key val s assign) w
        (fun r v => K v ∧ r.isDie = fieldStops key val) := by
    intro assign hk
    unfold fieldStops
    rw [hk, Bool.not_true, Bool.false_or, Bool.true_and]
    exact fieldParseNumber_asks hT h
  unfold fieldParseKey
  split
  · rename_i hk
    have hn : isNumberKey key = false := by
      rcases hk with rfl | rfl <;> decide
    unfold fieldStops
    rw [hn]
    exact Asks.pure rfl ⟨h, rfl⟩
  rename_i hf
  split
  · rename_i hk
    exact hnum (by rcases hk with rfl | rfl <;> decide)
  rename_i ho
  split
  · rename_i hk
    exact hnum (by rcases hk with rfl | rfl <;> decide)
  rename_i hl
  split
  · rename_i hk
    exact hnum (by rcases hk with rfl | rfl <;> decide)
  · rename_i hm
    have hn : isNumberKey key = false := by
      simp only [isNumberKey, isOfftKey, isLenKey, isMaskKey, Bool.or_eq_false_iff,
        decide_eq_false_iff_not]
      tauto
    unfold fieldStops
    rw [hn]
    exact Asks.of_runs (hT.counts h (fun v hv => ⟨hv, rfl⟩)) rfl

theorem fieldParse_asks {mapping : Pairs doc} (h : K w) :
    AsksShape other (fieldShape mode doc mapping) (fieldParse env mode doc mapping) w
      (fun _ v => K v) := by
  have hwalk : AsksShape other
      (walkOk doc (fun key val => !isNumberKey key || val.isScalar) fieldStops mapping)
      (yForMap doc fieldParseKey mapping ⟨0, some "", 0, 0, 0⟩) w (fun r v =>
        (K v ∧ r.isDie = walkStops doc fieldStops mapping) ∧
          ∀ t, r = .go t → t.name.isSome = fieldNamed doc mapping) :=
    Runs.imp (Runs.and (yForMap_asks (I := fun _ w => K w)
      (fun _ _ _ _ h => fieldParseKey_asks hT h) h) fieldWalk_name)
      (fun _ _ hv => ⟨hv.1.1, hv.1.2, hv.2⟩)
  unfold fieldParse
  refine hwalk.bind (fun hp => (Bool.and_eq_true_iff.mp hp).1) ?_
  intro r v hok hv
  obtain ⟨⟨hK, hdie⟩, hname⟩ := hv
  unfold fieldShape
  rw [hok, ← hdie, Bool.true_and]
  cases r with
  | die s => exact Asks.pure (by simp [Step.isDie]) hK
  | go s =>
    rw [← hname s rfl]
    cases hn : s.name with
    | some name =>
      exact Asks.of_runs (hT.field mode s v hK (.inr (.inr (by rw [hn]; rfl)))) (by simp)
    | none =>
      cases mode with
      | add => exact Asks.of_runs (hT.field .add s v hK (.inl rfl)) (by simp)
      | invalid => exact Asks.of_runs (hT.field .invalid s v hK (.inr (.inl rfl))) (by simp)
      | del =>
        change AsksShape other _ (fieldParseMode env .del s) v _
        simp only [fieldParseMode, hn, needText]
        exact .inr ⟨trivial, by simp [Step.isDie]⟩
      | prn =>
        change AsksShape other _ (fieldParseMode env .prn s) v _
        simp only [fieldParseMode, hn, needText]
        exact .inr ⟨trivial, by simp [Step.isDie]⟩

/-- One side of an operation: unknown keys end its walk. -/
theorem opSide_asks {statements : Text → Node doc.size → OpArgs → M (Step OpArgs)}
    {known : Text → Bool}
    (hknown : ∀ key val s, known key = true → ∃ t, statements key val s = pure (.go t))
    (hother : ∀ key val s, known key = false →
      ∃ msg, statements key val s = nbErr msg >>= fun _ => pure (.die s))
    {map : Pairs doc} {s : OpArgs} (h : K w) :
    AsksShape other (walkOk doc (fun _ _ => true) (fun key _ => !known key) map)
      (yForMap doc statements map s) w
      (fun r v => K v ∧ r.isDie = walkStops doc (fun key _ => !known key) map) := by
  refine yForMap_asks (I := fun _ w => K w) ?_ h
  intro key val s w h
  cases hk : known key with
  | true =>
    obtain ⟨t, ht⟩ := hknown key val s hk
    rw [ht]
    exact Asks.pure rfl ⟨h, rfl⟩
  | false =>
    obtain ⟨msg, hm⟩ := hother key val s hk
    rw [hm]
    exact Asks.of_runs (hT.counts h (fun v hv => ⟨hv, rfl⟩)) rfl

omit hT in
theorem opParseDst_known (key : Text) (val : Node n) (s : OpArgs) (hk : isDstKey key = true) :
    ∃ t, opParseDst key val s = pure (.go t) := by
  unfold opParseDst
  split
  · exact ⟨_, rfl⟩
  split
  · exact ⟨_, rfl⟩
  split
  · exact ⟨_, rfl⟩
  · simp only [isDstKey, isFieldKey, isStateKey, Bool.or_eq_true, decide_eq_true_eq] at hk
    tauto

omit hT in
theorem opParseDst_other (key : Text) (val : Node n) (s : OpArgs) (hk : isDstKey key = false) :
    ∃ msg, opParseDst key val s = nbErr msg >>= fun _ => pure (.die s) := by
  simp only [isDstKey, isFieldKey, isStateKey, Bool.or_eq_false_iff, decide_eq_false_iff_not] at hk
  unfold opParseDst
  rw [if_neg (by tauto), if_neg (by tauto), if_neg (by tauto)]
  exact ⟨_, rfl⟩

omit hT in
theorem opParseSrc_known (key : Text) (val : Node n) (s : OpArgs) (hk : isSrcKey key = true) :
    ∃ t, opParseSrc key val s = pure (.go t) := by
  unfold opParseSrc
  split
  · exact ⟨_, rfl⟩
  split
  · exact ⟨_, rfl⟩
  split
  · exact ⟨_, rfl⟩
  split
  · exact ⟨_, rfl⟩
  · simp only [isSrcKey, isFieldKey, isStateKey, isValueKey, Bool.or_eq_true, decide_eq_true_eq] at hk
    tauto

omit hT in
theorem opParseSrc_other (key : Text) (val : Node n) (s : OpArgs) (hk : isSrcKey key = false) :
    ∃ msg, opParseSrc key val s = nbErr msg >>= fun _ => pure (.die s) := by
  simp only [isSrcKey, isFieldKey, isStateKey, isValueKey, Bool.or_eq_false_iff,
    decide_eq_false_iff_not] at hk
  unfold opParseSrc
  rw [if_neg (by tauto), if_neg (by tauto), if_neg (by tauto), if_neg (by tauto)]
  exact ⟨_, rfl⟩

theorem opParseKey_asks {key : Text} {val : Node doc.size} {s : OpArgs} (h : K w) :
    AsksShape other (opGood doc key val) (opParseKey doc key val s) w (fun r v =>
      K v ∧ r.isDie = opStops doc key val) := by
  unfold opParseKey opGood opStops opSideKeys
  by_cases hd : key = "dst" ∨ key = "d"
  · simp only [hd, if_true]
    cases val with
    | mapping map => exact opSide_asks hT opParseDst_known opParseDst_other h
    | scalar txt => exact Asks.of_runs (hT.counts h (fun v hv => ⟨hv, rfl⟩)) rfl
    | sequence items => exact Asks.of_runs (hT.counts h (fun v hv => ⟨hv, rfl⟩)) rfl
  by_cases hs : key = "src" ∨ key = "s"
  · simp only [hd, hs, if_true, if_false]
    cases val with
    | mapping map => exact opSide_asks hT opParseSrc_known opParseSrc_other h
    | scalar txt => exact Asks.of_runs (hT.counts h (fun v hv => ⟨hv, rfl⟩)) rfl
    | sequence items => exact Asks.of_runs (hT.counts h (fun v hv => ⟨hv, rfl⟩)) rfl
  · simp only [hd, hs, if_false]
    exact Asks.of_runs (hT.counts h (fun v hv => ⟨hv, rfl⟩)) rfl

theorem opParseNew_asks {mapping : Pairs doc} (h : K w) :
    AsksShape other (opShape doc mapping) (opParseNew env doc mapping) w (fun r v =>
      K v ∧ ∀ q, ops q → ops (q ++ r.toList)) := by
  unfold opParseNew
  refine (yForMap_asks (I := fun _ w => K w) (fun _ _ _ _ h => opParseKey_asks hT h) h).bind
    id ?_
  intro r v hp hv
  cases r with
  | go s => exact Asks.of_runs (hT.opNew _ _ _ _ _ v hv.1) hp
  | die s =>
    refine Asks.pure hp ⟨hv.1, fun q hq => ?_⟩
    rwa [Option.toList_none, List.append_nil]

theorem ruleParseItem_asks {item : Node doc.size} {s : Nat × List Op} (h : K w ∧ ops s.2) :
    AsksShape other (itemOk (opShape doc) item) (ruleParseItem env doc item s) w (fun r v =>
      (K v ∧ ops r.state.2) ∧ r.isDie = false) := by
  unfold ruleParseItem itemOk
  cases item with
  | scalar txt => exact Asks.of_runs (hT.counts h.1 (fun v hv => ⟨⟨hv, h.2⟩, rfl⟩)) rfl
  | sequence items => exact Asks.of_runs (hT.counts h.1 (fun v hv => ⟨⟨hv, h.2⟩, rfl⟩)) rfl
  | mapping map =>
    refine (opParseNew_asks hT h.1).bind id ?_
    intro r v hp hv
    cases r with
    | some op => exact Asks.pure hp ⟨⟨hv.1, hv.2 s.2 h.2⟩, rfl⟩
    | none => exact Asks.of_runs (hT.counts hv.1 (fun v hv => ⟨⟨hv, h.2⟩, rfl⟩)) hp

theorem ruleParseKey_asks {key : Text} {val : Node doc.size} {s : RuleArgs}
    (h : K w ∧ ops s.matchJQ ∧ ops s.writeJQ) :
    AsksShape other (ruleGood mode doc key val) (ruleParseKey env mode doc key val s) w
      (fun r v => (K v ∧ ops r.state.matchJQ ∧ ops r.state.writeJQ) ∧ r.isDie = val.isMapping) := by
  have hsay : ∀ {good : Bool} {msg : Text} {r : Step RuleArgs} {die : Bool}, good = true →
      r.state.matchJQ = s.matchJQ → r.state.writeJQ = s.writeJQ → r.isDie = die →
      AsksShape other good (nbErr msg >>= fun _ => pure r : M (Step RuleArgs)) w (fun r v =>
        (K v ∧ ops r.state.matchJQ ∧ ops r.state.writeJQ) ∧ r.isDie = die) := by
    intro good msg r die hg hm hw hd
    refine Asks.of_runs (hT.counts h.1 (fun v hv => ⟨⟨hv, ?_, ?_⟩, hd⟩)) hg
    · rw [hm]
      exact h.2.1
    · rw [hw]
      exact h.2.2
  unfold ruleParseKey
  cases val with
  | scalar txt =>
    dsimp only
    split
    · exact Asks.pure rfl ⟨h, rfl⟩
    · exact hsay rfl rfl rfl rfl
  | mapping pairs => exact hsay rfl rfl rfl rfl
  | sequence items =>
    dsimp only
    unfold ruleGood opQueueOf
    by_cases hadd : mode = .add
    · subst hadd
      simp only [ne_eq, not_true_eq_false, if_false, decide_false, Bool.false_or]
      by_cases hm : key = "match" ∨ key = "m"
      · simp only [hm, if_true, Option.isNone_some, Bool.false_or]
        refine (yForSeq_asks (I := fun (s : Nat × List Op) w => K w ∧ ops s.2)
          (fun _ _ _ h => ruleParseItem_asks hT h) ⟨h.1, h.2.1⟩).bind id ?_
        intro r v hp hv
        exact Asks.pure hp ⟨⟨hv.1.1, hv.1.2, h.2.2⟩, rfl⟩
      · by_cases hw : key = "write" ∨ key = "w"
        · simp only [hm, hw, if_true, if_false, Option.isNone_some, Bool.false_or]
          refine (yForSeq_asks (I := fun (s : Nat × List Op) w => K w ∧ ops s.2)
            (fun _ _ _ h => ruleParseItem_asks hT h) ⟨h.1, h.2.2⟩).bind id ?_
          intro r v hp hv
          exact Asks.pure hp ⟨⟨hv.1.1, h.2.1, hv.1.2⟩, rfl⟩
        · simp only [hm, hw, if_false, Option.isNone_none, Bool.true_or]
          exact hsay rfl rfl rfl rfl
    · simp only [ne_eq, hadd, not_false_eq_true, if_true, decide_true, Bool.true_or]
      exact hsay rfl rfl rfl rfl

theorem ruleParse_asks {mapping : Pairs doc} (h : K w) :
    AsksShape other (ruleShape mode doc mapping) (ruleParse env mode doc mapping) w
      (fun _ v => K v) := by
  unfold ruleParse
  refine (yForMap_asks (I := fun (s : RuleArgs) w => K w ∧ ops s.matchJQ ∧ ops s.writeJQ)
    (fun _ _ _ _ h => ruleParseKey_asks hT h) ⟨h, hT.noOps, hT.noOps⟩).bind id ?_
  intro r v hp hv
  obtain ⟨⟨hK, hm, hw⟩, -⟩ := hv
  cases r with
  | die s => exact Asks.pure hp hK
  | go s => exact Asks.of_runs (hT.rule mode s v hK hm hw) hp

theorem processParseItem_asks {item : Node doc.size} {s : Nat × List Rout} (h : K w ∧ routs s.2) :
    AsksShape other (itemOk (walkOk doc (fun _ _ => true) (fun _ _ => false)) item)
      (processParseItem doc item s) w (fun r v => (K v ∧ routs r.state.2) ∧ r.isDie = false) := by
  unfold processParseItem itemOk
  cases item with
  | scalar txt => exact Asks.of_runs (hT.counts h.1 (fun v hv => ⟨⟨hv, h.2⟩, rfl⟩)) rfl
  | sequence items => exact Asks.of_runs (hT.counts h.1 (fun v hv => ⟨⟨hv, h.2⟩, rfl⟩)) rfl
  | mapping map =>
    have hturn : ∀ key (val : Node doc.size) (s : Nat × List Rout) w, K w ∧ routs s.2 →
        AsksShape other true (processParsePair key val s) w (fun r v =>
          (K v ∧ routs r.state.2) ∧ r.isDie = false) := by
      intro key val s w h
      refine (Asks.of_runs (hT.routNew (some key) val.txt w h.1) rfl).bind id ?_
      intro r v hp hv
      cases r with
      | some rt => exact Asks.pure hp ⟨⟨hv.1, hv.2 s.2 h.2⟩, rfl⟩
      | none => exact Asks.of_runs (hT.counts hv.1 (fun v hv => ⟨⟨hv, h.2⟩, rfl⟩)) hp
    refine (yForMap_asks (I := fun (s : Nat × List Rout) w => K w ∧ routs s.2)
      hturn h).imp ?_
    intro r v hv
    refine ⟨hv.1, hv.2.trans ?_⟩
    simp [walkStops]

theorem processParseKey_asks {key : Text} {val : Node doc.size} {s : ProcessArgs}
    (h : K w ∧ routs s.routJQ) :
    AsksShape other (processGood doc key val) (processParseKey doc key val s) w (fun r v =>
      (K v ∧ routs r.state.routJQ) ∧ r.isDie = val.isMapping) := by
  unfold processParseKey processGood
  cases val with
  | scalar txt =>
    dsimp only
    split
    · exact Asks.pure rfl ⟨h, rfl⟩
    · exact Asks.of_runs (hT.counts h.1 (fun v hv => ⟨⟨hv, h.2⟩, rfl⟩)) rfl
  | mapping pairs => exact Asks.of_runs (hT.counts h.1 (fun v hv => ⟨⟨hv, h.2⟩, rfl⟩)) rfl
  | sequence items =>
    dsimp only
    by_cases hr : key = "rules" ∨ key = "r"
    · have hb : (decide (key = "rules") || decide (key = "r")) = true := by simpa using hr
      rw [if_pos hr, hb, Bool.not_true, Bool.false_or]
      refine (yForSeq_asks (I := fun (s : Nat × List Rout) w => K w ∧ routs s.2)
        (fun _ _ _ h => processParseItem_asks hT h) h).bind id ?_
      intro r v hp hv
      exact Asks.pure hp ⟨hv.1, rfl⟩
    · have hb : (decide (key = "rules") || decide (key = "r")) = false := by simpa using hr
      rw [if_neg hr, hb]
      exact Asks.of_runs (hT.counts h.1 (fun v hv => ⟨⟨hv, h.2⟩, rfl⟩)) rfl

theorem processParse_asks {mapping : Pairs doc} (h : K w) :
    AsksShape other (processShape doc mapping) (processParse mode doc mapping) w
      (fun _ v => K v) := by
  unfold processParse
  refine (yForMap_asks (I := fun (s : ProcessArgs) w => K w ∧ routs s.routJQ)
    (fun _ _ _ _ h => processParseKey_asks hT h) ⟨h, hT.noRouts⟩).bind id ?_
  intro r v hp hv
  obtain ⟨⟨hK, hr⟩, -⟩ := hv
  cases r with
  | die s => exact Asks.pure hp hK
  | go s => exact Asks.of_runs (hT.process mode s v hK hr) hp

theorem subsystemParse_asks {sub : Subsystem} {mapping : Pairs doc} (h : K w) :
    AsksShape other (subsystemShape sub mode doc mapping) (subsystemParse env sub mode doc mapping) w
      (fun _ v => K v) := by
  cases sub with
  | iface => exact ifaceParse_asks hT h
  | field => exact fieldParse_asks hT h
  | rule => exact ruleParse_asks hT h
  | process => exact processParse_asks hT h

theorem parseChild_asks {child : Node doc.size} (h : K w) :
    AsksShape other (childShape mode doc child) (parseChild env mode doc child) w
      (fun _ v => K v) := by
  have hsay : ∀ {good : Bool} {msg : Text} {r : Nat}, good = true →
      AsksShape other good (nbErr msg >>= fun _ => pure r : M Nat) w (fun _ v => K v) :=
    fun hg => Asks.of_runs (hT.counts h (fun _ hv => hv)) hg
  unfold parseChild childShape
  cases child with
  | scalar txt => exact hsay rfl
  | sequence items => exact hsay rfl
  | mapping map =>
    cases map with
    | nil => exact .inr ⟨trivial, by simp⟩
    | cons pair pairs =>
      obtain ⟨k, x⟩ := pair
      dsimp only
      cases doc.node k with
      | sequence items => exact .inr ⟨trivial, by simp⟩
      | mapping map => exact .inr ⟨trivial, by simp⟩
      | scalar keyval =>
        simp only [scalarValue, pure_bind]
        cases subsystemOf keyval with
        | none => exact hsay rfl
        | some sub => exact subsystemParse_asks hT h

theorem parseChildren_asks {items : List (Fin doc.size)} {errCnt : Nat} (h : K w) :
    AsksShape other (items.all (fun item => childShape mode doc (doc.node item)))
      (parseChildren env mode doc items errCnt) w (fun _ v => K v) := by
  induction items generalizing errCnt w with
  | nil => exact Asks.pure rfl h
  | cons item items ih =>
    unfold parseChildren
    rw [List.all_cons]
    refine (parseChild_asks hT h).bind (fun hp => (Bool.and_eq_true_iff.mp hp).1) ?_
    intro errs v hc hv
    rw [hc, Bool.true_and]
    exact ih hv

theorem parsePair_asks {k x : Fin doc.size} (h : K w) :
    AsksShape other (pairShape doc k x) (parsePair env doc k x) w (fun _ v => K v) := by
  have hsay : ∀ {good : Bool} {msg : Text} {r : Nat} {v : World}, K v → good = true →
      AsksShape other good (nbErr msg >>= fun _ => pure r : M Nat) v (fun _ v => K v) :=
    fun hv hg => Asks.of_runs (hT.counts hv (fun _ hv => hv)) hg
  unfold parsePair pairShape
  cases doc.node k with
  | sequence items => exact .inr ⟨trivial, by simp⟩
  | mapping map => exact .inr ⟨trivial, by simp⟩
  | scalar keyname =>
    simp only [scalarValue, pure_bind]
    cases doc.node x with
    | scalar txt => exact hsay h rfl
    | mapping map => exact hsay h rfl
    | sequence items =>
      dsimp only
      cases modeOf keyname with
      | none => exact hsay h rfl
      | some mode =>
        have hopen : Runs other (modify fun w => { w with outlist := [] } : M PUnit) w
            (fun _ v => K v) :=
          hT.idle w w.log [] w.outroot h
        refine (Asks.of_runs hopen trivial).bind (fun _ => trivial) ?_
        intro _ v _ hv
        have hlist : ∀ {errs : Nat} {v : World}, K v → AsksShape other
            (items.all (fun item => childShape mode doc (doc.node item)))
            (do
              let errs ← parseChildren env mode doc items errs
              if ← alloc then
                modify fun w => { w with outroot := w.outroot ++ [(keyname, .sequence w.outlist)] }
                return errs
              else nbErr ""; return errs + 1) v (fun _ v => K v) := by
          intro errs v hv
          refine (parseChildren_asks hT hv).bind id ?_
          intro errs v hc hv
          refine (Asks.of_runs (hT.alloc v hv) trivial).bind (fun _ => trivial) ?_
          intro ok v _ hv
          cases ok with
          | true => exact ⟨hc, hT.idle v v.log v.outlist _ hv⟩
          | false => exact hsay hv hc
        split
        · refine (Asks.of_runs (hT.emitAll v hv) trivial).bind (fun _ => trivial) ?_
          intro errs v _ hv
          exact hlist hv
        · exact hlist hv

theorem parseMapping_asks {pairs : Pairs doc} (h : K w) :
    AsksShape other (mappingShape doc pairs) (parseMapping env doc pairs) w (fun _ v => K v) := by
  induction pairs generalizing w with
  | nil => exact Asks.pure rfl h
  | cons pair pairs ih =>
    obtain ⟨k, x⟩ := pair
    unfold parseMapping mappingShape
    rw [List.all_cons]
    refine (parsePair_asks hT h).bind (fun hp => (Bool.and_eq_true_iff.mp hp).1) ?_
    intro errs v hp hv
    rw [hp, Bool.true_and]
    refine (ih hv).bind id ?_
    intro rest v hr hv
    exact Asks.pure hr hv

end Parsers

end Xdpacket
