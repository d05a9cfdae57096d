import Xdpacket.Proofs.Configs
import Xdpacket.Proofs.Reading
import Xdpacket.Proofs.Reconfiguring

namespace Xdpacket

variable {w v u : World} {live : Multiset Ref} {env : Env} {a : Addr} {n : Text} {doc : Document}
  {mapping : Pairs doc} {s : OpArgs} {σ : Type}

section Resolving

/-- What the source of an operation is: a state, the bytes of a value, or the packet. -/
def srcPlace (env : Env) (len : Nat) (stateName value : Option Text) : Option (Place Text) :=
  match stateName, value with
  | some name, _ => some (.buffer name)
  | none, some txt => (env.valueParse txt len).map (fun parsed => .literal parsed.val)
  | none, none => some .packet

/-- The transfer that the texts of an operation mean, over the stored fields. A side that names
no field has that of the other. -/
def World.resolve (w : World) (env : Env) (s : OpArgs) : Option (Transfer Text) := do
  let dst ← (s.dstFieldName.or s.srcFieldName).bind w.fieldNamed
  let src ← (s.srcFieldName.or s.dstFieldName).bind w.fieldNamed
  let place ← srcPlace env src.len.toNat s.srcStateName s.srcValue
  return ⟨⟨dst.slice, s.dstStateName.elim .packet .buffer⟩, ⟨src.slice, place⟩⟩

/-- The transfer that a listed operation means. -/
def World.compile (w : World) (env : Env) (doc : Document) (item : Node doc.size) :
    Option (Transfer Text) :=
  match item with
  | .mapping map => (opArgs doc map ⟨none, none, none, none, none⟩).bind (w.resolve env)
  | _ => none

/-- A reference to the field that is named, if one is. -/
def Named (w : World) (name : Option Text) (ref : Option Addr) : Prop :=
  name.map (fun n => AList.lookup n w.fieldJS) = ref.map some

theorem fieldGet_named : Runs (fun _ => True) (fieldGet n) w (fun r _ =>
    ∀ a, r = some a → AList.lookup n w.fieldJS = some a) := by
  unfold fieldGet
  rw [jsGet_run]
  cases hl : AList.lookup n w.fieldJS with
  | none => exact fun a ha => (by cases ha)
  | some a => exact deref_runs (fun f _ b hb => hb)

theorem opField_named {name : Option Text} : Runs (fun _ => True) (opField name) w (fun r _ =>
    ∀ ref, r = some ref → Named w name ref) := by
  unfold opField
  cases name with
  | none =>
    intro ref hr
    cases hr
    rfl
  | some n =>
    refine fieldGet_named.bind ?_
    intro r v hr
    cases r with
    | none => exact fun ref hr => (by cases hr)
    | some a =>
      intro ref he
      cases he
      exact congrArg some (hr a rfl)

/-- The set of a side is that of the field that its texts name. -/
theorem side_resolved {own other : Option Addr} {name name' : Option Text} {set : FieldSet}
    (h : Consistent w live) (hs : Same w v) (ho : Named w name own) (ht : Named w name' other)
    (hset : SetOf v own other set) : (name.or name').bind w.fieldNamed = some set := by
  obtain ⟨a, ha, -, hv⟩ := hset
  have hfound : ∀ n, AList.lookup n w.fieldJS = some a → w.fieldNamed n = some set := by
    intro n hl
    obtain ⟨f, hf, -⟩ := h.fields.found hl
    obtain ⟨g, hg, -, hgs⟩ := hs.field_live hf
    simp [World.fieldNamed, hl, hf, ← hgs, hv g hg]
  cases own with
  | some b =>
    cases ha
    obtain ⟨n, rfl, hl⟩ := Option.map_eq_some_iff.mp ho
    exact hfound n hl
  | none =>
    obtain rfl := Option.map_eq_none_iff.mp ho
    obtain rfl : other = some a := ha
    obtain ⟨n, rfl, hl⟩ := Option.map_eq_some_iff.mp ht
    exact hfound n hl

/-- An exit that makes nothing. -/
theorem nothing_made {m : M PUnit} {P : σ → World → Prop} : Runs (fun _ => True)
    (m >>= fun _ => pure none : M (Option σ)) w (fun r v => ∀ x, r = some x → P x v) :=
  Runs.any.bind (fun _ _ _ x hx => by cases hx)

theorem putMemref_places {r : Memref} {Q : Place Text → Prop}
    (h : Q (r.stateName.elim (.literal r.bytes) .buffer)) : Runs (fun _ => True)
    (do putMemref a (some r); return some a : M (Option Addr)) w (fun r v =>
      ∀ b, r = some b → Q (v.place (some b))) := by
  intro b hb
  cases hb
  simp only [World.place, Function.update_self]
  cases hn : r.stateName <;> simpa [hn] using h

theorem memrefStateGet_places (h : Consistent w live) : Runs (fun _ => True)
    (memrefStateGet env a n) w (fun r v => ∀ b, r = some b → v.place (some b) = .buffer n) := by
  unfold memrefStateGet
  refine deref_runs (fun f _ => ?_)
  rw [jsGet_run]
  cases hl : AList.lookup n w.stateJS with
  | some c =>
    refine deref_runs (fun r hr => ?_)
    split
    · obtain ⟨q, hq, hname⟩ := h.states.found hl
      rw [hr] at hq
      cases hq
      cases hk : r.kind with
      | value input rendered => trivial
      | state name refcnt =>
        simp only [Memref.stateName, hk, Option.some.injEq] at hname
        exact putMemref_places (Q := fun p => p = .buffer n) (congrArg Place.buffer hname)
    · exact nothing_made
  | none =>
    refine Runs.any.bind ?_
    intro ret v _
    cases ret with
    | none => exact nothing_made
    | some ret =>
      refine Runs.any.bind ?_
      intro copied u _
      cases copied with
      | null | inval | truncated copy => exact Runs.any.bind (fun _ _ _ => nothing_made)
      | copy =>
        rw [Runs.bind_iff, Runs.modify_iff]
        exact putMemref_places (Q := fun p => p = .buffer n) rfl

theorem memrefValueNew_places : Runs (fun _ => True) (memrefValueNew env a n) w (fun r v =>
    ∀ b, r = some b → ∃ f parsed, w.fields a = some f ∧
      env.valueParse n f.set.len.toNat = some parsed ∧ v.place (some b) = .literal parsed.val) := by
  unfold memrefValueNew
  refine deref_runs (fun f hf => ?_)
  refine Runs.any.bind ?_
  intro ret v _
  cases ret with
  | none => exact nothing_made
  | some ret =>
    refine Runs.any.bind ?_
    intro input u _
    by_cases hthrow : input = .null ∧ f.set.len ≠ 0
    · rw [if_pos hthrow]
      trivial
    rw [if_neg hthrow]
    cases hp : env.valueParse n f.set.len.toNat with
    | none => cases input <;> exact nothing_made
    | some parsed =>
      have hmade : ∀ {t : World} {ok : Bool} {input : Option Text}, Runs (fun _ => True)
          (if ok = true then do
            putMemref ret (some
              { kind := .value input (valueRender parsed.val)
                set := { f.set with flags := f.set.flags ||| MEMREF_FLAG_STATIC }
                bytes := parsed.val
                sized := parsed.property })
            return some ret
          else do nbErr ""; return none : M (Option Addr)) t (fun r v => ∀ b, r = some b →
            ∃ f parsed, w.fields a = some f ∧ env.valueParse n f.set.len.toNat = some parsed ∧
              v.place (some b) = .literal parsed.val) := by
        intro t ok input
        split
        · refine (putMemref_places (Q := fun p => p = .literal parsed.val) rfl).imp ?_
          exact fun r v hr b hb => ⟨f, parsed, hf, hp, hr b hb⟩
        · exact nothing_made
      cases input with
      | inval | truncated copy => exact nothing_made
      | null | copy => exact Runs.any.bind (fun _ _ _ => hmade)

theorem opState_places {own other : Option Addr} {name : Option Text} (h : Consistent w live)
    (hs : own.or other = some a) : Runs (fun _ => True) (opState env own other name) w (fun r v =>
      ∀ ref, r = some ref → v.place ref = name.elim .packet .buffer) := by
  cases name with
  | none =>
    intro ref hr
    cases hr
    rfl
  | some n =>
    unfold opState
    simp only [opMemrefField_eq hs, pure_bind]
    refine (memrefStateGet_places h).bind ?_
    intro r v hr
    cases r with
    | none => exact fun ref hn => (by cases hn)
    | some b =>
      intro ref he
      cases he
      exact hr b rfl

/-- The source of an operation is what its texts say. -/
theorem opSrc_places {own other : Option Addr} {ss sv : Option Text} {f : Field}
    (h : Consistent w live) (hs : own.or other = some a) (hf : w.fields a = some f) :
    Runs (fun _ => True)
      (if ss ≠ none then opState env own other ss else opValue env own other sv) w (fun r v =>
        ∀ ref, r = some ref → srcPlace env f.set.len.toNat ss sv = some (v.place ref)) := by
  cases ss with
  | some n =>
    rw [if_pos (Option.some_ne_none n)]
    refine (opState_places h hs).imp ?_
    intro r v hr ref he
    simp [srcPlace, hr ref he]
  | none =>
    cases sv with
    | none =>
      intro ref hr
      cases hr
      rfl
    | some txt =>
      simp only [ne_eq, not_true_eq_false, if_false, opValue, opMemrefField_eq hs, pure_bind]
      refine memrefValueNew_places.bind ?_
      intro r v hr
      cases r with
      | none => exact fun ref hn => (by cases hn)
      | some b =>
        intro ref he
        cases he
        obtain ⟨g, parsed, hg, hp, hplace⟩ := hr b rfl
        rw [hf] at hg
        cases hg
        simp [srcPlace, hp, hplace]

theorem opDie_none {ret : Op} {msg : Text} : Runs (fun _ => True) (opDie ret msg) w (fun r _ =>
    r = none) :=
  Runs.any.bind (fun _ _ _ => Runs.any.bind (fun _ _ _ => rfl))

/-- The fields and the places that `op_new` finds are those that its texts name. -/
theorem opNew_finds (h : Consistent w live) : Runs (fun _ => True)
    (opNew env s.dstFieldName s.dstStateName s.srcFieldName s.srcStateName s.srcValue) w
    (fun r v => ∀ op, r = some op → Named w s.dstFieldName op.dstField ∧
      Named w s.srcFieldName op.srcField ∧ v.place op.dst = s.dstStateName.elim .packet .buffer ∧
        srcPlace env op.set.setFrom.len.toNat s.srcStateName s.srcValue = some (v.place op.src)) := by
  have hnone : ∀ {m : M (Option Op)} {u : World}, Runs (fun _ => True) m u (fun r _ => r = none) →
      Runs (fun _ => True) m u (fun r v => ∀ op, r = some op → Named w s.dstFieldName op.dstField ∧
        Named w s.srcFieldName op.srcField ∧ v.place op.dst = s.dstStateName.elim .packet .buffer ∧
          srcPlace env op.set.setFrom.len.toNat s.srcStateName s.srcValue = some (v.place op.src)) :=
    fun hm => hm.imp (fun r v hr op ho => by rw [hr] at ho; cases ho)
  unfold opNew
  by_cases hfields : s.dstFieldName = none ∧ s.srcFieldName = none
  · rw [if_pos hfields]
    exact hnone (Runs.any.bind (fun _ _ _ => rfl))
  rw [if_neg hfields]
  split
  · exact hnone (Runs.any.bind (fun _ _ _ => rfl))
  split
  · exact hnone (Runs.any.bind (fun _ _ _ => rfl))
  split
  · exact hnone (Runs.any.bind (fun _ _ _ => rfl))
  refine Runs.bind alloc_idle ?_
  intro ok w₀ hv
  obtain ⟨hi, -⟩ := hv
  have h := hi.consistent h
  have hnamed : ∀ {name ref}, Named w₀ name ref → Named w name ref := by
    intro name ref hn
    unfold Named at hn ⊢
    rwa [hi.fieldJS] at hn
  cases ok with
  | false => exact hnone (Runs.any.bind (fun _ _ _ => rfl))
  | true =>
    simp only [Bool.not_true, Bool.false_eq_true, if_false]
    refine Runs.bind (opField_named.and (opField_does h)) ?_
    intro dstField w₁ hv
    obtain ⟨hdn, hs₁, hv⟩ := hv
    cases dstField with
    | none => exact hnone opDie_none
    | some dstField =>
      obtain ⟨h, hdf⟩ := hv
      refine Runs.bind (opField_named.and (opField_does h)) ?_
      intro srcField w₂ hv
      obtain ⟨hsn, hs₂, hv⟩ := hv
      cases srcField with
      | none => exact hnone opDie_none
      | some srcField =>
        obtain ⟨h, hsf⟩ := hv
        have hsides : ¬ (dstField = none ∧ srcField = none) := by
          rw [hdf, hsf]
          exact hfields
        obtain ⟨a, hda⟩ := some_side hsides
        obtain ⟨b, hsb⟩ := some_side (fun hc => hsides hc.symm)
        obtain ⟨f, hf⟩ := side_live (by rw [add_left_comm]; exact h) hda
        obtain ⟨g, hg⟩ := side_live h hsb
        refine Runs.bind ((opState_places h hda).and (opState_does h hda hf)) ?_
        intro dst w₃ hv
        obtain ⟨hdp, hs₃, hv⟩ := hv
        obtain ⟨g', hg', -, hgs⟩ := hs₃.field_live hg
        cases dst with
        | none => exact hnone opDie_none
        | some dst =>
          obtain ⟨h, -⟩ := hv
          refine Runs.bind ((opSrc_places h hsb hg').and (opSrc_does h hsb hg')) ?_
          intro src w₄ hv
          obtain ⟨hsp, hs₄, hv⟩ := hv
          cases src with
          | none => exact hnone opDie_none
          | some src =>
            obtain ⟨h', -⟩ := hv
            have hkeep : w₄.place dst = w₃.place dst := by
              cases dst with
              | none => rfl
              | some c =>
                obtain ⟨r, hr⟩ := h.memref_live (a := c) (by simp [holdOpt])
                obtain ⟨q, hq⟩ := h'.memref_live (a := c) (by simp [holdOpt])
                exact place_lasts h hs₄.toQuiet hr hq
            simp only [opMemrefField_eq hda, opMemrefField_eq hsb, pure_bind]
            refine deref_runs (fun _ _ => deref_runs (fun g₄ hg₄ => ?_))
            intro op ho
            cases ho
            obtain ⟨g₅, hg₅, -, hgs₅⟩ := hs₄.field_live hg'
            rw [hg₄] at hg₅
            cases hg₅
            refine ⟨hnamed (hdn _ rfl), ?_, hkeep.trans (hdp _ rfl), ?_⟩
            · have hn := hsn _ rfl
              unfold Named at hn
              rw [hs₁.fieldJS] at hn
              exact hnamed hn
            · have hp := hsp _ rfl
              rw [← hgs₅] at hp
              exact hp

/-- An operation in flight can be performed. -/
theorem wired_held {op : Op} (h : Consistent w (op.refs + live)) (ho : OpOk w op) : Wired w op.set := by
  have hlive : ∀ c, op.dst = some c ∨ op.src = some c → ∃ r, w.memrefs c = some r := by
    intro c hc
    refine h.memref_live (Multiset.mem_add.mpr (.inl ?_))
    rcases hc with hc | hc <;> simp [Op.refs, hc, holdOpt]
  refine ⟨?_, ?_, by rw [ho.to']; exact ho.state⟩
  · rw [ho.to']
    exact ho.dst.backs (fun c hc => hlive c (.inl hc)) (fun _ => rfl)
  · rw [ho.from']
    exact ho.src.backs (fun c hc => hlive c (.inr hc)) (fun _ => rfl)

/-- `op_new` makes the transfer that its texts mean. -/
theorem opNew_resolves (h : Consistent w live) : Frames NoDangle Same
    (opNew env s.dstFieldName s.dstStateName s.srcFieldName s.srcStateName s.srcValue) w
    (fun r v => Consistent v (r.elim 0 Op.refs + live) ∧ ∀ op, r = some op →
      Wired v op.set ∧ w.resolve env s = some (v.transfer op.set)) := by
  refine ((opNew_does h).and (opNew_finds h)).imp ?_
  intro r v hv
  obtain ⟨⟨hs, hc, hok⟩, hfound⟩ := hv
  refine ⟨hs, hc, fun op ho => ?_⟩
  subst ho
  obtain ⟨hdn, hsn, hdp, hsp⟩ := hfound op rfl
  have hop := hok op rfl
  refine ⟨wired_held hc hop, ?_⟩
  have hdst := side_resolved h hs hdn hsn hop.setTo
  have hsrc := side_resolved h hs hsn hdn hop.setFrom
  simp [World.resolve, hdst, hsrc, hsp, ← hdp, World.transfer, hop.to', hop.from']

/-- `op_parse_new` -/
theorem opBuild_compiles {item : Node doc.size} (h : Consistent w live) :
    Frames NoDangle Same (opBuild env doc item) w (fun r v =>
      Consistent v (r.elim 0 Op.refs + live) ∧ ∀ op, r = some op →
        Wired v op.set ∧ w.compile env doc item = some (v.transfer op.set)) := by
  have hnone : ∀ {v : World}, Idle w v → Same w v ∧
      Consistent v ((none : Option Op).elim 0 Op.refs + live) ∧ ∀ op : Op, none = some op →
        Wired v op.set ∧ w.compile env doc item = some (v.transfer op.set) := by
    intro v hi
    refine ⟨hi.same h.fresh, ?_, fun op ho => (by cases ho)⟩
    rw [Option.elim_none, zero_add]
    exact hi.consistent h
  cases item with
  | scalar txt => exact hnone (.refl w)
  | sequence items => exact hnone (.refl w)
  | mapping map =>
    refine Runs.bind (opWalk_reads badNode_noDangle) ?_
    intro r v hv
    obtain ⟨hl, hread⟩ := hv
    have hi := hl.idle
    cases r with
    | die s => exact hnone hi
    | go s =>
      refine Runs.imp (opNew_resolves (hi.consistent h)) ?_
      intro r u hu
      obtain ⟨hs, hc, hop⟩ := hu
      refine ⟨(hi.same h.fresh).trans hs, hc, fun op ho => ?_⟩
      obtain ⟨hwired, hres⟩ := hop op ho
      refine ⟨hwired, ?_⟩
      have hfields : v.fieldNamed = w.fieldNamed := funext hi.extends.fieldNamed
      simp only [World.resolve, hfields] at hres
      simp only [World.compile, ← hread, Step.go?, Option.bind_some]
      exact hres

end Resolving

end Xdpacket
