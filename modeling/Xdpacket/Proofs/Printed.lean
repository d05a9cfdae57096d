import Xdpacket.Proofs.Configs
import Xdpacket.Proofs.Replies

namespace Xdpacket

variable {w v u : World} {live : Multiset Ref} {env : Env} {doc : Document} {op : Op} {ops : List Op}
  {out : Out} {outs : List Out} {pairs : List (Text × Out)} {ref : Option Addr} {a : Addr}
  {kvs : Pairs doc}

section Emitted

/-- What an operation prints of a field. -/
inductive FieldPairs : Option (Option Text) → List (Text × Out) → Prop where
  | none : FieldPairs none []
  | some (name : Text) : FieldPairs (some (some name)) [("field", .scalar name)]

/-- What an operation prints of a memref. -/
inductive MemrefPairs : Option (Option MemrefText) → List (Text × Out) → Prop where
  | none : MemrefPairs none []
  | state (name : Text) : MemrefPairs (some (some (.state name))) [("state", .scalar name)]
  | value (input rendered : Text) (bytes : Bytes) :
      MemrefPairs (some (some (.value (some input) rendered bytes)))
        [("value", .scalar input), ("bytes", .scalar rendered)]

/-- What is printed of an operation with these texts. -/
inductive OpPrinted (text : OpText) : Out → Prop where
  | mk (dstField : FieldPairs text.dstField df) (dst : MemrefPairs text.dst d)
      (srcField : FieldPairs text.srcField sf) (src : MemrefPairs text.src s) :
      OpPrinted text (.mapping [("dst", .mapping (df ++ d)), ("src", .mapping (sf ++ s))])

theorem opEmitField_ok :
    opEmitField ref w = .ok (pairs, u) ↔ u = w ∧ FieldPairs (ref.map w.fieldText) pairs := by
  cases ref with
  | none =>
    constructor
    · intro h
      cases h
      exact ⟨rfl, .none⟩
    · intro h
      obtain ⟨rfl, hp⟩ := h
      cases hp
      rfl
  | some a =>
    simp only [opEmitField, Option.map_some, World.fieldText]
    cases hf : w.fields a with
    | none =>
      constructor
      · intro h
        obtain ⟨f, v, hd, -⟩ := bind_eq_ok.mp h
        rw [deref_ok, hf] at hd
        cases hd.1
      · intro h
        cases h.2
    | some f =>
      constructor
      · intro h
        obtain ⟨g, v, hd, hk⟩ := bind_eq_ok.mp h
        rw [deref_ok, hf] at hd
        obtain ⟨hfg, rfl⟩ := hd
        cases hfg
        cases hk
        exact ⟨rfl, .some _⟩
      · intro h
        obtain ⟨rfl, hp⟩ := h
        cases hp
        exact bind_eq_ok.mpr ⟨f, _, deref_ok.mpr ⟨hf, rfl⟩, rfl⟩

theorem memrefEmit_ok :
    memrefEmit ref w = .ok (pairs, u) ↔ u = w ∧ MemrefPairs (ref.map w.memrefText) pairs := by
  cases ref with
  | none =>
    constructor
    · intro h
      cases h
      exact ⟨rfl, .none⟩
    · intro h
      obtain ⟨rfl, hp⟩ := h
      cases hp
      rfl
  | some a =>
    simp only [memrefEmit, Option.map_some, World.memrefText]
    cases hr : w.memrefs a with
    | none =>
      constructor
      · intro h
        obtain ⟨r, v, hd, -⟩ := bind_eq_ok.mp h
        rw [deref_ok, hr] at hd
        cases hd.1
      · intro h
        cases h.2
    | some r =>
      have hbind : ∀ {k : Memref → M (List (Text × Out))},
          (deref (fun w => w.memrefs) a >>= k) w = k r w := by
        intro k
        have hd : deref (fun w : World => w.memrefs) a w = .ok (r, w) := deref_ok.mpr ⟨hr, rfl⟩
        change Except.bind (deref (fun w : World => w.memrefs) a w) _ = _
        rw [hd]
        rfl
      rw [hbind]
      simp only [Option.map_some, Memref.text]
      cases hk : r.kind with
      | state name c =>
        constructor
        · intro h
          cases h
          exact ⟨rfl, .state name⟩
        · intro h
          obtain ⟨rfl, hp⟩ := h
          cases hp
          rfl
      | value input rendered =>
        cases input with
        | none =>
          constructor
          · intro h
            cases h
          · intro h
            cases h.2
        | some input =>
          constructor
          · intro h
            cases h
            exact ⟨rfl, .value input rendered r.bytes⟩
          · intro h
            obtain ⟨rfl, hp⟩ := h
            cases hp
            rfl

/-- What is printed of an operation depends on its texts alone. -/
theorem opEmit_ok : opEmit op w = .ok (out, u) ↔ u = w ∧ OpPrinted (w.opText op) out := by
  constructor
  · intro h
    obtain ⟨df, w₁, hdf, hk₁⟩ := bind_eq_ok.mp h
    obtain ⟨hw₁, hdf⟩ := opEmitField_ok.mp hdf
    obtain ⟨d, w₂, hd, hk₂⟩ := bind_eq_ok.mp hk₁
    obtain ⟨hw₂, hd⟩ := memrefEmit_ok.mp hd
    obtain ⟨sf, w₃, hsf, hk₃⟩ := bind_eq_ok.mp hk₂
    obtain ⟨hw₃, hsf⟩ := opEmitField_ok.mp hsf
    obtain ⟨s, w₄, hs, hk₄⟩ := bind_eq_ok.mp hk₃
    obtain ⟨hw₄, hs⟩ := memrefEmit_ok.mp hs
    subst hw₁ hw₂ hw₃ hw₄
    cases hk₄
    exact ⟨rfl, .mk hdf hd hsf hs⟩
  · intro h
    obtain ⟨rfl, hp⟩ := h
    cases hp with
    | mk hdf hd hsf hs =>
      refine bind_eq_ok.mpr ⟨_, _, opEmitField_ok.mpr ⟨rfl, hdf⟩, ?_⟩
      refine bind_eq_ok.mpr ⟨_, _, memrefEmit_ok.mpr ⟨rfl, hd⟩, ?_⟩
      refine bind_eq_ok.mpr ⟨_, _, opEmitField_ok.mpr ⟨rfl, hsf⟩, ?_⟩
      exact bind_eq_ok.mpr ⟨_, _, memrefEmit_ok.mpr ⟨rfl, hs⟩, rfl⟩

theorem opEmitAll_ok : opEmitAll ops w = .ok (outs, u) ↔
    u = w ∧ List.Forall₂ OpPrinted (ops.map w.opText) outs := by
  induction ops generalizing outs u with
  | nil =>
    constructor
    · intro h
      cases h
      exact ⟨rfl, .nil⟩
    · intro h
      obtain ⟨rfl, hp⟩ := h
      cases hp
      rfl
  | cons op ops ih =>
    constructor
    · intro h
      obtain ⟨out, w₁, ho, hk₁⟩ := bind_eq_ok.mp h
      obtain ⟨hw₁, ho⟩ := opEmit_ok.mp ho
      subst hw₁
      obtain ⟨rest, w₂, hrest, hk₂⟩ := bind_eq_ok.mp hk₁
      obtain ⟨hw₂, hrest⟩ := ih.mp hrest
      subst hw₂
      cases hk₂
      exact ⟨rfl, .cons ho hrest⟩
    · intro h
      obtain ⟨rfl, hp⟩ := h
      cases hp with
      | cons ho hrest =>
        refine bind_eq_ok.mpr ⟨_, _, opEmit_ok.mpr ⟨rfl, ho⟩, ?_⟩
        exact bind_eq_ok.mpr ⟨_, _, ih.mpr ⟨rfl, hrest⟩, rfl⟩

theorem opEmitAll_looks : Looks (opEmitAll ops) := fun _ _ _ h => (opEmitAll_ok.mp h).1

end Emitted

section Read

/-- One pair that the statements take as they should, and the rest of the walk. -/
theorem yForMap_go {statements : Text → Node doc.size → σ → M (Step σ)} {k x : Fin doc.size}
    {rest : Pairs doc} {s t : σ} {keyname : Text} (hk : doc.node k = .scalar keyname)
    (hs : statements keyname (doc.node x) s = pure (.go t)) :
    yForMap doc statements ((k, x) :: rest) s = yForMap doc statements rest t := by
  rw [yForMap_shown hk, hs, pure_bind]

/-- The field of a side is read back. -/
theorem readField {statements : Text → Node doc.size → σ → M (Step σ)} (t : Option Text → σ)
    (hread : ∀ name, statements "field" (.scalar name) (t none) = pure (.go (t (some name))))
    {text : Option (Option Text)} {df : List (Text × Out)} (hp : FieldPairs text df)
    (hs : ShowsPairs doc kvs (df ++ pairs)) :
    ∃ name rest, text = name.map some ∧ ShowsPairs doc rest pairs ∧
      yForMap doc statements kvs (t none) = yForMap doc statements rest (t name) := by
  cases hp with
  | none => exact ⟨none, kvs, rfl, hs, rfl⟩
  | some name =>
    obtain ⟨k, x, rest, rfl, hk, hx, hrest⟩ := hs.eq_cons
    refine ⟨some name, rest, rfl, hrest, yForMap_go hk ?_⟩
    rw [hx.eq_scalar]
    exact hread name

theorem readDstField {text : Option (Option Text)} {df : List (Text × Out)}
    (hp : FieldPairs text df) (hs : ShowsPairs doc kvs (df ++ pairs)) :
    ∃ name rest, text = name.map some ∧ ShowsPairs doc rest pairs ∧
      yForMap doc opParseDst kvs ⟨none, none, none, none, none⟩ =
        yForMap doc opParseDst rest ⟨name, none, none, none, none⟩ :=
  readField (σ := OpArgs) (fun name => ⟨name, none, none, none, none⟩) (fun _ => rfl) hp hs

/-- The destination of an operation is never a value. -/
theorem readDstState (df : Option Text) {text : Option (Option MemrefText)}
    (hp : MemrefPairs text pairs)
    (hv : ∀ input rendered bytes, text ≠ some (some (.value input rendered bytes)))
    (hs : ShowsPairs doc kvs pairs) : ∃ name, text = name.map (fun n => some (.state n)) ∧
      yForMap doc opParseDst kvs ⟨df, none, none, none, none⟩ =
        pure (.go ⟨df, name, none, none, none⟩) := by
  cases hp with
  | none =>
    obtain rfl := hs.eq_nil
    exact ⟨none, rfl, rfl⟩
  | value input rendered bytes => exact absurd rfl (hv _ _ _)
  | state name =>
    obtain ⟨k, x, rest, rfl, hk, hx, hrest⟩ := hs.eq_cons
    obtain rfl := hrest.eq_nil
    refine ⟨some name, rfl, (yForMap_go (t := ⟨df, some name, none, none, none⟩) hk ?_).trans rfl⟩
    rw [hx.eq_scalar]
    rfl

theorem readSrcField (df ds : Option Text) {text : Option (Option Text)} {sf : List (Text × Out)}
    (hp : FieldPairs text sf) (hs : ShowsPairs doc kvs (sf ++ pairs)) :
    ∃ name rest, text = name.map some ∧ ShowsPairs doc rest pairs ∧
      yForMap doc opParseSrc kvs ⟨df, ds, none, none, none⟩ =
        yForMap doc opParseSrc rest ⟨df, ds, name, none, none⟩ :=
  readField (σ := OpArgs) (fun name => ⟨df, ds, name, none, none⟩) (fun _ => rfl) hp hs

theorem readSrc (df ds sf : Option Text) {text : Option (Option MemrefText)}
    (hp : MemrefPairs text pairs) (hs : ShowsPairs doc kvs pairs) : ∃ ss sv, SrcNamed text ss sv ∧
      yForMap doc opParseSrc kvs ⟨df, ds, sf, none, none⟩ = pure (.go ⟨df, ds, sf, ss, sv⟩) := by
  cases hp with
  | none =>
    obtain rfl := hs.eq_nil
    exact ⟨none, none, .none, rfl⟩
  | state name =>
    obtain ⟨k, x, rest, rfl, hk, hx, hrest⟩ := hs.eq_cons
    obtain rfl := hrest.eq_nil
    refine ⟨some name, none, .state name,
      (yForMap_go (t := ⟨df, ds, sf, some name, none⟩) hk ?_).trans rfl⟩
    rw [hx.eq_scalar]
    rfl
  | value input rendered bytes =>
    obtain ⟨k, x, rest, rfl, hk, hx, hrest⟩ := hs.eq_cons
    obtain ⟨k', x', rest', rfl, hk', hx', hrest'⟩ := hrest.eq_cons
    obtain rfl := hrest'.eq_nil
    refine ⟨none, some input, .value input rendered bytes,
      (yForMap_go (t := ⟨df, ds, sf, none, some input⟩) hk ?_).trans
        ((yForMap_go (t := ⟨df, ds, sf, none, some input⟩) hk' ?_).trans rfl)⟩
    · rw [hx.eq_scalar]
      rfl
    · rw [hx'.eq_scalar]
      rfl

theorem OpPrinted.isMapping {text : OpText} {node : Node doc.size} (hp : OpPrinted text out)
    (hs : Shows doc node out) : ∃ map, node = .mapping map := by
  cases hp with
  | mk hdf hd hsf hsrc =>
    obtain ⟨map, hmap, -⟩ := hs.eq_mapping
    exact ⟨map, hmap⟩

/-- What was printed of an operation is read back as the texts it was made from. -/
theorem opParseNew_reads (hp : OpPrinted (w.opText op) out) (ho : OpOk w op)
    (hs : Shows doc (.mapping kvs) out) : ∃ s, OpNamed w op s ∧ opParseNew env doc kvs =
      opNew env s.dstFieldName s.dstStateName s.srcFieldName s.srcStateName s.srcValue := by
  have hv : ∀ input rendered bytes,
      (w.opText op).dst ≠ some (some (.value input rendered bytes)) := by
    intro input rendered bytes he
    obtain ⟨a, ha, htext⟩ := Option.map_eq_some_iff.mp he
    obtain ⟨r, hr, hrt⟩ := Option.map_eq_some_iff.mp htext
    have hstate := ho.state a r ha hr
    unfold Memref.stateName at hstate
    unfold Memref.text at hrt
    cases hk : r.kind with
    | state name c =>
      rw [hk] at hrt
      cases hrt
    | value input rendered =>
      rw [hk] at hstate
      cases hstate
  cases hp with
  | mk hdf hd hsf hsrc =>
    obtain ⟨kvs', hmap, hs⟩ := hs.eq_mapping
    cases hmap
    obtain ⟨k₁, x₁, rest, rfl, hk₁, hx₁, hs⟩ := hs.eq_cons
    obtain ⟨k₂, x₂, rest, rfl, hk₂, hx₂, hs⟩ := hs.eq_cons
    obtain rfl := hs.eq_nil
    obtain ⟨dst, hdst, hs₁⟩ := hx₁.eq_mapping
    obtain ⟨src, hsrcn, hs₂⟩ := hx₂.eq_mapping
    obtain ⟨df, rest₁, hdf, hs₁, hr₁⟩ := readDstField hdf hs₁
    obtain ⟨ds, hds, hr₂⟩ := readDstState df hd hv hs₁
    obtain ⟨sf, rest₂, hsf, hs₂, hr₃⟩ := readSrcField df ds hsf hs₂
    obtain ⟨ss, sv, hss, hr₄⟩ := readSrc df ds sf hsrc hs₂
    refine ⟨⟨df, ds, sf, ss, sv⟩, ⟨hdf, hds, hsf, hss⟩, ?_⟩
    have hwalk : yForMap doc (opParseKey doc) [(k₁, x₁), (k₂, x₂)] ⟨none, none, none, none, none⟩ =
        pure (.go ⟨df, ds, sf, ss, sv⟩) := by
      refine (yForMap_go (t := ⟨df, ds, none, none, none⟩) hk₁ ?_).trans
        ((yForMap_go (t := ⟨df, ds, sf, ss, sv⟩) hk₂ ?_).trans rfl)
      · rw [hdst]
        exact hr₁.trans hr₂
      · rw [hsrcn]
        exact hr₃.trans hr₄
    unfold opParseNew
    rw [hwalk, pure_bind]

end Read

end Xdpacket
