import Xdpacket.Proofs.Malformed
import Xdpacket.Proofs.Policy

namespace Xdpacket

namespace Obeys

variable {α β : Type} {env : Env} {E : Fault → Prop} {I : World → Prop} {m m' : M α} {k : α → M β}
  {a : Addr} {ref : Option Addr} {name : Option Text} {n : Text} {doc : Document} {mode : ParseMode}
  {mapping : Pairs doc}

section Objects

variable [P : Policy env E I]

instance opFreeAll {ops : List Op} : Obeys env E I (opFreeAll ops) := by
  induction ops with
  | nil => exact pure
  | cons op ops ih => exact step (fun _ => ih)

instance ruleReleaseRefs {xs ys : List Op} : Obeys env E I (ruleReleaseRefs xs ys) := by
  unfold Xdpacket.ruleReleaseRefs
  infer_instance

instance ruleFree {refcnt : Nat} {xs ys : List Op} : Obeys env E I (ruleFree a name refcnt xs ys) := by
  unfold Xdpacket.ruleFree
  infer_instance

instance ruleFreeAt : Obeys env E I (ruleFreeAt a) := by
  unfold Xdpacket.ruleFreeAt
  infer_instance

include P in
theorem ruleNew_keeps {xs ys : List Op} (h : ∀ op ∈ xs ++ ys, op.Complete) :
    Keeps E I (ruleNew env n xs ys) (fun _ => True) := by
  unfold ruleNew
  refine (calloc (P := P)).keeps.bind ?_
  intro ret _
  cases ret with
  | none => exact (inferInstance : Obeys env E I _).keeps
  | some ret =>
    refine (strAlloc_keeps (P := P)).bind ?_
    intro copied hc
    cases copied with
    | null | inval | truncated copy => exact (inferInstance : Obeys env E I _).keeps
    | copy =>
      refine Keeps.bind (Q := fun _ => True) (fun _ hw => ⟨hw, trivial⟩) (fun w _ => ?_)
      split
      · exact (inferInstance : Obeys env E I _).keeps
      · have : Obeys env E I (putRule ret (some ⟨n, xs, ys, 0⟩)) :=
          ⟨putRule_keeps (P := P) ⟨hc rfl, h⟩⟩
        exact (inferInstance : Obeys env E I _).keeps

instance ruleRelease : Obeys env E I (ruleRelease ref) := by
  unfold Xdpacket.ruleRelease
  split
  · infer_instance
  · refine ⟨deref_keeps (P := P) (fun w r hw hr => ?_)⟩
    split
    · exact (nbErr (P := P)).keeps w hw
    · exact ⟨P.countRule _ hw hr, trivial⟩

instance ruleGet : Obeys env E I (ruleGet n) := by
  refine step (fun r => ?_)
  split
  · infer_instance
  · exact ⟨deref_keeps (P := P) (fun w r hw hr => ⟨P.countRule _ hw hr, trivial⟩)⟩

instance ifaceRelease : Obeys env E I (ifaceRelease ref) := by
  unfold Xdpacket.ifaceRelease
  split
  · infer_instance
  · refine ⟨deref_keeps (P := P) (fun w i hw hi => ?_)⟩
    split
    · exact (nbErr (P := P)).keeps w hw
    · exact ⟨P.changeIface hw hi rfl rfl, trivial⟩

instance ifaceGet : Obeys env E I (ifaceGet n) := by
  refine step (fun r => ?_)
  split
  · infer_instance
  · exact ⟨deref_keeps (P := P) (fun w i hw hi => ⟨P.changeIface hw hi rfl rfl, trivial⟩)⟩

instance routSetNew {rule output : Addr} : Obeys env E I (routSetNew rule output) := by
  refine step (fun ret => ?_)
  split <;> infer_instance

instance routSetFree : Obeys env E I (routSetFree ref) := by
  unfold Xdpacket.routSetFree
  split <;> infer_instance

instance routFree {rule output set : Option Addr} : Obeys env E I (routFree rule output set) := by
  unfold Xdpacket.routFree
  infer_instance

instance routFreeAll {rts : List Rout} : Obeys env E I (routFreeAll rts) := by
  induction rts with
  | nil => exact pure
  | cons rt rts ih => exact step (fun _ => ih)

instance routNew {outName : Option Text} : Obeys env E I (routNew name outName) := by
  unfold Xdpacket.routNew
  split
  · infer_instance
  · infer_instance
  · refine step (fun ok => ?_)
    split
    · infer_instance
    refine step (fun rule => ?_)
    cases rule with
    | none => infer_instance
    | some rule =>
      refine step (fun output => ?_)
      cases output with
      | none => infer_instance
      | some output =>
        refine step (fun set => ?_)
        cases set <;> infer_instance

instance allCalls {call : M Bool} [h : Obeys env E I call] {k : Nat} : Obeys env E I (allCalls call k) := by
  induction k with
  | zero => exact pure
  | succ k ih =>
    unfold Xdpacket.allCalls
    infer_instance

instance ifaceHandlerRegister {h : Handler} : Obeys env E I (ifaceHandlerRegister a h ref) := by
  refine ⟨deref_keeps (P := P) (fun w i hw hi => ?_)⟩
  split
  · exact (inferInstance : Obeys env E I _).keeps w hw
  · exact ⟨P.changeIface hw hi rfl rfl, trivial⟩

instance ifaceHandlerClear {h : Handler} : Obeys env E I (ifaceHandlerClear a h ref) := by
  refine ⟨deref_keeps (P := P) (fun w i hw hi => ?_)⟩
  split
  · exact (inferInstance : Obeys env E I _).keeps w hw
  · exact ⟨P.changeIface hw hi rfl rfl, trivial⟩

instance processFree {rts : List Rout} {sets : List Addr} : Obeys env E I (processFree a ref rts sets) := by
  unfold Xdpacket.processFree
  cases ref with
  | none => infer_instance
  | some iface =>
    refine step (fun _ => step (fun _ => step (fun i => step (fun r => ?_))))
    infer_instance

instance processFreeAt : Obeys env E I (processFreeAt a) := by
  unfold Xdpacket.processFreeAt
  infer_instance

instance processNew {rts : List Rout} : Obeys env E I (processNew n rts) := by
  refine step (fun ret => ?_)
  cases ret with
  | none => infer_instance
  | some ret =>
    refine step (fun w => ?_)
    split
    · infer_instance
    refine step (fun iface => ?_)
    cases iface <;> infer_instance

end Objects

section Emitters

variable [P : Policy env E I] {emit : Addr → M Nat}

instance emitEach [h : ∀ a, Obeys env E I (emit a)] {as : List Addr} : Obeys env E I (emitEach emit as) := by
  induction as with
  | nil => exact pure
  | cons a as ih =>
    unfold Xdpacket.emitEach
    infer_instance

instance fieldEmit : Obeys env E I (fieldEmit a) := by
  unfold Xdpacket.fieldEmit
  infer_instance

instance memrefEmit : Obeys env E I (memrefEmit ref) := by
  unfold Xdpacket.memrefEmit
  split
  · infer_instance
  · refine step (fun r => ?_)
    split <;> infer_instance

instance opEmitField : Obeys env E I (opEmitField ref) := by
  unfold Xdpacket.opEmitField
  split <;> infer_instance

instance opEmit {op : Op} : Obeys env E I (opEmit op) := by
  unfold Xdpacket.opEmit
  infer_instance

instance opEmitAll {ops : List Op} : Obeys env E I (opEmitAll ops) := by
  induction ops with
  | nil => exact pure
  | cons op ops ih =>
    unfold Xdpacket.opEmitAll
    infer_instance

instance ruleEmit : Obeys env E I (ruleEmit a) := by
  unfold Xdpacket.ruleEmit
  infer_instance

instance routEmit {rt : Rout} : Obeys env E I (routEmit rt) := by
  unfold Xdpacket.routEmit
  infer_instance

instance routEmitAll {rts : List Rout} : Obeys env E I (routEmitAll rts) := by
  induction rts with
  | nil => exact pure
  | cons rt rts ih =>
    unfold Xdpacket.routEmitAll
    infer_instance

instance processEmit : Obeys env E I (processEmit a) := by
  unfold Xdpacket.processEmit
  infer_instance

instance ifaceEmit : Obeys env E I (ifaceEmit a) := by
  unfold Xdpacket.ifaceEmit
  infer_instance

instance fieldEmitAll : Obeys env E I fieldEmitAll := by
  unfold Xdpacket.fieldEmitAll
  infer_instance

instance ruleEmitAll : Obeys env E I ruleEmitAll := by
  unfold Xdpacket.ruleEmitAll
  infer_instance

instance processEmitAll : Obeys env E I processEmitAll := by
  unfold Xdpacket.processEmitAll
  infer_instance

instance ifaceEmitAll : Obeys env E I ifaceEmitAll := by
  unfold Xdpacket.ifaceEmitAll
  infer_instance

instance emitAll : Obeys env E I emitAll := by
  unfold Xdpacket.emitAll
  infer_instance

instance parseDie {errCnt : Nat} : Obeys env E I (parseDie errCnt n) := by
  unfold Xdpacket.parseDie
  infer_instance

instance parseEmit {errCnt : Nat} {emit : M Nat} [Obeys env E I emit] :
    Obeys env E I (parseEmit errCnt emit) := by
  unfold Xdpacket.parseEmit
  infer_instance

end Emitters

section Modes

variable [P : Policy env E I]

/-- A field whose walk left a name asks the document for nothing more. -/
theorem fieldParseMode {s : FieldArgs} (h : mode = .add ∨ mode = .invalid ∨ s.name.isSome) :
    Obeys env E I (fieldParseMode env mode s) := by
  cases mode with
  | add =>
    refine step (fun r => ?_)
    cases r <;> infer_instance
  | invalid => exact parseDie
  | del =>
    obtain ⟨n, hn⟩ := Option.isSome_iff_exists.mp (by simpa using h)
    simp only [Xdpacket.fieldParseMode, hn, needText, pure_bind]
    refine step (fun r => ?_)
    cases r <;> infer_instance
  | prn =>
    obtain ⟨n, hn⟩ := Option.isSome_iff_exists.mp (by simpa using h)
    simp only [Xdpacket.fieldParseMode, hn, needText, pure_bind]
    split
    · infer_instance
    · refine step (fun r => ?_)
      cases r <;> infer_instance

theorem ruleParseMode {s : RuleArgs} (h : ∀ op ∈ s.matchJQ ++ s.writeJQ, op.Complete) :
    Obeys env E I (ruleParseMode env mode s) := by
  cases mode with
  | invalid => exact parseDie
  | add =>
    refine ⟨(ruleNew_keeps (P := P) h).bind (fun r _ => ?_)⟩
    cases r <;> exact (inferInstance : Obeys env E I _).keeps
  | del =>
    refine step (fun r => ?_)
    cases r <;> infer_instance
  | prn =>
    simp only [Xdpacket.ruleParseMode]
    split
    · infer_instance
    · refine step (fun r => ?_)
      cases r <;> infer_instance

instance processParseMode {s : ProcessArgs} : Obeys env E I (processParseMode mode s) := by
  cases mode with
  | invalid => exact parseDie
  | add =>
    refine step (fun r => ?_)
    cases r <;> infer_instance
  | del =>
    refine step (fun r => ?_)
    cases r <;> infer_instance
  | prn =>
    simp only [Xdpacket.processParseMode]
    split
    · infer_instance
    · refine step (fun r => ?_)
      cases r <;> infer_instance

end Modes

section Sockets

variable [S : SocketFree env E I]

theorem sockets {f : World → World} (hf : ∀ w, (f w).fields = w.fields)
    (hm : ∀ w, (f w).memrefs = w.memrefs) (hr : ∀ w, (f w).rules = w.rules) :
    Obeys env E I (modify f : M PUnit) :=
  ⟨.modify (fun w hw => S.sockets hw (hf w) (hm w) (hr w))⟩

instance putIface {o : Option Iface} : Obeys env E I (putIface a o) :=
  sockets (fun _ => rfl) (fun _ => rfl) (fun _ => rfl)

instance toOpenFds {g : World → List Nat} :
    Obeys env E I (modify fun w => { w with openFds := g w } : M PUnit) :=
  sockets (fun _ => rfl) (fun _ => rfl) (fun _ => rfl)

instance toTracked {g : World → List (Nat × Addr)} :
    Obeys env E I (modify fun w => { w with tracked := g w } : M PUnit) :=
  sockets (fun _ => rfl) (fun _ => rfl) (fun _ => rfl)

instance ifaceFree {iface : IfaceParts} : Obeys env E I (ifaceFree env a iface) := by
  unfold Xdpacket.ifaceFree
  split
  · infer_instance
  · refine step (fun r => ?_)
    infer_instance

instance ifaceFreeAt : Obeys env E I (ifaceFreeAt env a) := by
  unfold Xdpacket.ifaceFreeAt
  infer_instance

instance ifaceDie {iface : IfaceParts} : Obeys env E I (ifaceDie env a iface n) := by
  unfold Xdpacket.ifaceDie
  infer_instance

instance ifaceOpen : Obeys env E I (ifaceOpen env a n) := by
  refine step (fun ok => ?_)
  split
  · infer_instance
  · refine step (fun w => step (fun _ => step (fun ok => ?_)))
    infer_instance

instance ifaceNew : Obeys env E I (ifaceNew env n) := by
  refine step (fun w => ?_)
  split
  · infer_instance
  refine step (fun ret => ?_)
  cases ret with
  | none => infer_instance
  | some ret =>
    refine ⟨(strAlloc_keeps (P := S.toPolicy)).bind (fun copied _ => ?_)⟩
    cases copied <;> exact (inferInstance : Obeys env E I _).keeps

instance eptkRegister {fd : Int} : Obeys env E I (eptkRegister fd a) := by
  unfold Xdpacket.eptkRegister
  infer_instance

instance destroyAll {regs : List (Nat × Addr)} : Obeys env E I (destroyAll env regs) := by
  induction regs with
  | nil => exact pure
  | cons r rs ih => exact step (fun _ => ih)

instance eptkRemove {fd : Int} : Obeys env E I (eptkRemove env fd) := by
  unfold Xdpacket.eptkRemove
  infer_instance

instance ifaceParseMode {s : IfaceArgs} : Obeys env E I (ifaceParseMode env mode s) := by
  cases mode with
  | invalid => exact parseDie
  | add =>
    refine step (fun r => ?_)
    cases r <;> infer_instance
  | del =>
    refine step (fun r => ?_)
    cases r <;> infer_instance
  | prn =>
    simp only [Xdpacket.ifaceParseMode]
    split
    · infer_instance
    · refine step (fun r => ?_)
      cases r <;> infer_instance

end Sockets

section Parsers

/-- Faults that a malformed document causes are tolerated here. -/
theorem scalarValue_keeps {node : Node doc.size} :
    Keeps (fun _ => True) I (scalarValue node) (fun _ => True) := by
  unfold scalarValue
  split
  · exact .pure trivial
  · exact .throw trivial

instance needText : Obeys env (fun _ => True) I (needText name) := by
  unfold Xdpacket.needText
  split
  · exact pure
  · exact ⟨.throw trivial⟩

/-- A walk keeps what each of its turns keeps. -/
theorem yForMap_keeps {statements : Text → Node doc.size → σ → M (Step σ)} {R : σ → Prop} {s : σ}
    (h : ∀ key val s, R s →
      Keeps (fun _ => True) I (statements key val s) (fun r => R r.state)) (hs : R s) :
    Keeps (fun _ => True) I (yForMap doc statements mapping s) (fun r => R r.state) := by
  induction mapping generalizing s with
  | nil => exact .pure hs
  | cons pair pairs ih =>
    obtain ⟨k, v⟩ := pair
    refine scalarValue_keeps.bind (fun keyname _ => (h _ _ _ hs).bind ?_)
    intro r hr
    cases r with
    | go s => exact ih hr
    | die s => exact .pure hr

theorem yForSeq_keeps {statements : Node doc.size → σ → M (Step σ)} {R : σ → Prop} {s : σ}
    {items : List (Fin doc.size)}
    (h : ∀ item s, R s → Keeps (fun _ => True) I (statements item s) (fun r => R r.state))
    (hs : R s) :
    Keeps (fun _ => True) I (yForSeq doc statements items s) (fun r => R r.state) := by
  induction items generalizing s with
  | nil => exact .pure hs
  | cons item items ih =>
    refine (h _ _ hs).bind ?_
    intro r hr
    cases r with
    | go s => exact ih hr
    | die s => exact .pure hr

instance yForMap {statements : Text → Node doc.size → σ → M (Step σ)} {s : σ}
    [h : ∀ key val s, Obeys env (fun _ => True) I (statements key val s)] :
    Obeys env (fun _ => True) I (yForMap doc statements mapping s) :=
  ⟨yForMap_keeps (R := fun _ => True) (fun key val s _ => (h key val s).keeps) trivial⟩

instance yForSeq {statements : Node doc.size → σ → M (Step σ)} {s : σ}
    {items : List (Fin doc.size)} [h : ∀ item s, Obeys env (fun _ => True) I (statements item s)] :
    Obeys env (fun _ => True) I (yForSeq doc statements items s) :=
  ⟨yForSeq_keeps (R := fun _ => True) (fun item s _ => (h item s).keeps) trivial⟩

variable [P : Policy env (fun _ => True) I]

instance fieldParseNumber {val : Node doc.size} {s : FieldArgs} {assign : Int → FieldArgs} :
    Obeys env (fun _ => True) I (fieldParseNumber n val s assign) := by
  unfold Xdpacket.fieldParseNumber
  infer_instance

instance fieldParseKey {val : Node doc.size} {s : FieldArgs} :
    Obeys env (fun _ => True) I (fieldParseKey n val s) := by
  unfold Xdpacket.fieldParseKey
  infer_instance

instance fieldParse : Obeys env (fun _ => True) I (fieldParse env mode doc mapping) := by
  unfold Xdpacket.fieldParse
  refine step (fun r => ?_)
  cases r with
  | die s => exact pure
  | go s =>
    by_cases h : mode = .add ∨ mode = .invalid ∨ s.name.isSome
    · exact fieldParseMode h
    · have hn : s.name = none := by simpa using (not_or.mp (not_or.mp h).2).2
      cases mode with
      | add => exact absurd (.inl rfl) h
      | invalid => exact absurd (.inr (.inl rfl)) h
      | del | prn =>
        refine ⟨fun w _ => ?_⟩
        simp only [Xdpacket.fieldParseMode, hn]
        exact trivial

instance opParseDst {val : Node doc.size} {s : OpArgs} :
    Obeys env (fun _ => True) I (opParseDst n val s) := by
  unfold Xdpacket.opParseDst
  infer_instance

instance opParseSrc {val : Node doc.size} {s : OpArgs} :
    Obeys env (fun _ => True) I (opParseSrc n val s) := by
  unfold Xdpacket.opParseSrc
  infer_instance

instance opParseKey {val : Node doc.size} {s : OpArgs} :
    Obeys env (fun _ => True) I (opParseKey doc n val s) := by
  unfold Xdpacket.opParseKey
  split
  · split <;> infer_instance
  split
  · split <;> infer_instance
  · infer_instance

include P in
theorem opParseNew_keeps : Keeps (fun _ => True) I (opParseNew env doc mapping)
    (fun r => ∀ op, r = some op → op.Complete) := by
  unfold opParseNew
  refine (yForMap (h := fun _ _ _ => opParseKey (P := P))).keeps.bind ?_
  intro r _
  cases r with
  | go s => exact opNew_keeps (P := P)
  | die s => exact .pure (fun op ho => (by cases ho))

include P in
theorem ruleParseItem_keeps {item : Node doc.size} {s : Nat × List Op}
    (hs : ∀ op ∈ s.2, op.Complete) :
    Keeps (fun _ => True) I (ruleParseItem env doc item s) (fun r => ∀ op ∈ r.state.2, op.Complete) := by
  have herr : ∀ {msg : Text}, Keeps (fun _ => True) I
      (Xdpacket.nbErr msg >>= fun _ => Pure.pure (.go (s.1 + 1, s.2)) : M (Step (Nat × List Op)))
      (fun r => ∀ op ∈ r.state.2, op.Complete) :=
    (nbErr (P := P)).keeps.bind (fun _ _ => .pure hs)
  unfold ruleParseItem
  split
  · refine (opParseNew_keeps (P := P)).bind ?_
    intro r hr
    cases r with
    | none => exact herr
    | some op =>
      refine .pure (fun p hp => ?_)
      rcases List.mem_append.mp hp with hp | hp
      · exact hs p hp
      · rw [List.mem_singleton.mp hp]
        exact hr op rfl
  · exact herr

include P in
theorem ruleParseKey_keeps {val : Node doc.size} {s : RuleArgs}
    (hs : ∀ op ∈ s.matchJQ ++ s.writeJQ, op.Complete) :
    Keeps (fun _ => True) I (ruleParseKey env mode doc n val s)
      (fun r => ∀ op ∈ r.state.matchJQ ++ r.state.writeJQ, op.Complete) := by
  have herr : ∀ {msg : Text} {r : Step RuleArgs}, r.state.matchJQ = s.matchJQ →
      r.state.writeJQ = s.writeJQ → Keeps (fun _ => True) I
      (Xdpacket.nbErr msg >>= fun _ => Pure.pure r : M (Step RuleArgs))
      (fun r => ∀ op ∈ r.state.matchJQ ++ r.state.writeJQ, op.Complete) := by
    intro msg r hm hw
    refine (nbErr (P := P)).keeps.bind (fun _ _ => .pure ?_)
    rw [hm, hw]
    exact hs
  have hm : ∀ op ∈ s.matchJQ, op.Complete := fun op ho => hs op (List.mem_append_left _ ho)
  have hw : ∀ op ∈ s.writeJQ, op.Complete := fun op ho => hs op (List.mem_append_right _ ho)
  unfold ruleParseKey
  split
  · split
    · exact .pure hs
    · exact herr rfl rfl
  · split
    · exact herr rfl rfl
    split
    · refine (yForSeq_keeps (R := fun s => ∀ op ∈ s.2, op.Complete)
        (fun _ _ hs => ruleParseItem_keeps (P := P) hs) hm).bind ?_
      intro r hr
      refine .pure (fun op ho => ?_)
      rcases List.mem_append.mp ho with ho | ho
      · exact hr op ho
      · exact hw op ho
    split
    · refine (yForSeq_keeps (R := fun s => ∀ op ∈ s.2, op.Complete)
        (fun _ _ hs => ruleParseItem_keeps (P := P) hs) hw).bind ?_
      intro r hr
      refine .pure (fun op ho => ?_)
      rcases List.mem_append.mp ho with ho | ho
      · exact hm op ho
      · exact hr op ho
    · exact herr rfl rfl
  · exact herr rfl rfl

instance ruleParse : Obeys env (fun _ => True) I (ruleParse env mode doc mapping) := by
  unfold Xdpacket.ruleParse
  refine ⟨(yForMap_keeps (R := fun s : RuleArgs => ∀ op ∈ s.matchJQ ++ s.writeJQ, op.Complete)
    (fun _ _ _ hs => ruleParseKey_keeps (P := P) hs) (fun op ho => (by cases ho))).bind ?_⟩
  intro r hr
  cases r with
  | die s => exact .pure trivial
  | go s => exact (ruleParseMode (P := P) hr).keeps

instance processParsePair {val : Node doc.size} {s : Nat × List Rout} :
    Obeys env (fun _ => True) I (processParsePair n val s) := by
  refine step (fun r => ?_)
  cases r <;> infer_instance

instance processParseItem {item : Node doc.size} {s : Nat × List Rout} :
    Obeys env (fun _ => True) I (processParseItem doc item s) := by
  unfold Xdpacket.processParseItem
  split <;> infer_instance

instance processParseKey {val : Node doc.size} {s : ProcessArgs} :
    Obeys env (fun _ => True) I (processParseKey doc n val s) := by
  unfold Xdpacket.processParseKey
  split <;> infer_instance

instance processParse : Obeys env (fun _ => True) I (processParse mode doc mapping) := by
  refine step (fun r => ?_)
  cases r <;> infer_instance

instance ifaceParseKey {val : Node doc.size} {s : IfaceArgs} :
    Obeys env (fun _ => True) I (ifaceParseKey n val s) := by
  unfold Xdpacket.ifaceParseKey
  split <;> infer_instance

end Parsers

instance ifaceParse [SocketFree env (fun _ => True) I] :
    Obeys env (fun _ => True) I (ifaceParse env mode doc mapping) := by
  unfold Xdpacket.ifaceParse
  refine step (fun r => ?_)
  cases r <;> infer_instance

end Obeys

end Xdpacket
