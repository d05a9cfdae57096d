import Xdpacket.Proofs.Numerals
import Xdpacket.Proofs.Printed
import Xdpacket.Proofs.Swap

namespace Xdpacket

variable {w v u : World} {live : Multiset Ref} {env : Env} {doc : Document} {a : Addr}
  {kvs : Pairs doc} {out : Out} {n : Text}

section Rules

/-- The operations of a list, read back one after the other. -/
theorem ruleItems_copies {ops : List Op} {outs : List Out} {items : List (Fin doc.size)}
    (errs : Nat) (queue : List Op) (h : Copies w v) (hw : Consistent w live) (hm : Made env w)
    (ho : ∀ op ∈ ops, OpOk w op ∧ op.Complete) (hp : List.Forall₂ OpPrinted (ops.map w.opText) outs)
    (hs : ShowsItems doc items outs) :
    ∃ ops' u, yForSeq doc (ruleParseItem env doc) items (errs, queue) v =
        .ok (.go (errs, queue ++ ops'), u) ∧ Extends v u ∧ Copies w u ∧
      ops'.map u.opText = ops.map w.opText ∧ ∀ op ∈ ops', Holds u op := by
  induction ops generalizing outs items queue v with
  | nil =>
    cases hp
    cases hs
    refine ⟨[], v, ?_, .refl v, h, rfl, fun _ hm => (by cases hm)⟩
    rw [List.append_nil]
    rfl
  | cons op ops ih =>
    cases hp with
    | cons hop hops =>
      cases hs with
      | cons hitem hitems =>
        obtain ⟨hok, hc⟩ := ho op List.mem_cons_self
        obtain ⟨map, hx⟩ := hop.isMapping hitem
        rw [hx] at hitem
        obtain ⟨s, hn, hread⟩ := opParseNew_reads hop hok hitem
        obtain ⟨op', v₁, hnew, he₁, h₁, htext, hold⟩ := opNew_copies h hw hm hok hc hn
        obtain ⟨ops', u, hrest, he₂, hu, htexts, holds⟩ :=
          ih (queue ++ [op']) h₁ (fun p hp => ho p (List.mem_cons_of_mem _ hp)) hops hitems
        refine ⟨op' :: ops', u, ?_, he₁.trans he₂, hu, ?_, ?_⟩
        · refine bind_eq_ok.mpr ⟨.go (errs, queue ++ [op']), v₁, ?_, ?_⟩
          · rw [hx]
            refine bind_eq_ok.mpr ⟨some op', v₁, ?_, rfl⟩
            rw [hread]
            exact hnew
          · rw [List.append_cons queue op' ops']
            exact hrest
        · rw [List.map_cons, List.map_cons, htexts, he₂.opText hold, htext]
        · intro p hp
          rcases List.mem_cons.mp hp with rfl | hp
          · exact he₂.holds hold
          · exact holds p hp

theorem ruleEmit_shape (h : Emits (ruleEmit a) w out) : ∃ r ms ws, w.rules a = some r ∧
    List.Forall₂ OpPrinted (r.matchJQ.map w.opText) ms ∧
    List.Forall₂ OpPrinted (r.writeJQ.map w.opText) ws ∧
    out = .mapping [("rule", .scalar r.name), ("match", .sequence ms), ("write", .sequence ws)] := by
  obtain ⟨r, hr, h⟩ := (emits_bind deref_looks).mp h
  obtain ⟨ms, hms, h⟩ := (emits_bind opEmitAll_looks).mp h
  obtain ⟨ws, hws, h⟩ := (emits_bind opEmitAll_looks).mp h
  exact ⟨r, ms, ws, (deref_ok.mp hr).1, (opEmitAll_ok.mp hms).2, (opEmitAll_ok.mp hws).2, h.of_reply⟩

/-- The walk of `rule_parse` over a printed rule. -/
theorem ruleWalk_copies {r : Rule} {ms ws : List Out} (h : Copies w v) (hw : Consistent w live)
    (hm : Made env w) (hr : w.rules a = some r)
    (hms : List.Forall₂ OpPrinted (r.matchJQ.map w.opText) ms)
    (hws : List.Forall₂ OpPrinted (r.writeJQ.map w.opText) ws)
    (hs : ShowsPairs doc kvs
      [("rule", .scalar r.name), ("match", .sequence ms), ("write", .sequence ws)]) :
    ∃ xs ys u, yForMap doc (ruleParseKey env .add doc) kvs ⟨0, "", [], []⟩ v =
        .ok (.go ⟨0, r.name, xs, ys⟩, u) ∧ Extends v u ∧ Copies w u ∧
      xs.map u.opText = r.matchJQ.map w.opText ∧ ys.map u.opText = r.writeJQ.map w.opText := by
  have ho : ∀ op ∈ r.matchJQ ++ r.writeJQ, OpOk w op ∧ op.Complete :=
    fun op hop => ⟨hw.ops a r hr op hop, (hm.rules a r hr).2 op hop⟩
  obtain ⟨k₁, x₁, rest, rfl, hk₁, hx₁, hs⟩ := hs.eq_cons
  obtain ⟨k₂, x₂, rest, rfl, hk₂, hx₂, hs⟩ := hs.eq_cons
  obtain ⟨k₃, x₃, rest, rfl, hk₃, hx₃, hs⟩ := hs.eq_cons
  obtain rfl := hs.eq_nil
  obtain ⟨is, his, hitems⟩ := hx₂.eq_sequence
  obtain ⟨js, hjs, hitems'⟩ := hx₃.eq_sequence
  obtain ⟨xs, v₁, hrx, he₁, h₁, htx, hhx⟩ := ruleItems_copies 0 [] h hw hm
    (fun op hop => ho op (List.mem_append_left _ hop)) hms hitems
  obtain ⟨ys, u, hry, he₂, hu, hty, -⟩ := ruleItems_copies 0 [] h₁ hw hm
    (fun op hop => ho op (List.mem_append_right _ hop)) hws hitems'
  refine ⟨xs, ys, u, ?_, he₁.trans he₂, hu, ?_, hty⟩
  · rw [yForMap_go (t := ⟨0, r.name, [], []⟩) hk₁ (by rw [hx₁.eq_scalar]; rfl), yForMap_shown hk₂, his]
    refine bind_eq_ok.mpr ⟨.go ⟨0, r.name, xs, []⟩, v₁, bind_eq_ok.mpr ⟨_, _, hrx, rfl⟩, ?_⟩
    simp only []
    rw [yForMap_shown hk₃, hjs]
    exact bind_eq_ok.mpr ⟨.go ⟨0, r.name, xs, ys⟩, u, bind_eq_ok.mpr ⟨_, _, hry, rfl⟩, rfl⟩
  · rw [← htx]
    exact List.map_congr_left (fun op hop => he₂.opText (hhx op hop))

/-- The world with another rule. -/
def World.addRule (v : World) (n : Text) (xs ys : List Op) : World :=
  { v with
    next := v.next + 1
    oom := v.oom.tail.tail
    ruleJS := v.ruleJS.insert n v.next
    rules := Function.update v.rules v.next (some ⟨n, xs, ys, 0⟩) }

theorem ruleNew_adds {xs ys : List Op} (hm : ∀ fails ∈ v.oom, fails = false)
    (hl : AList.lookup n v.ruleJS = none) (hc : env.nstralloc n MAXLINELEN = .copy) :
    ruleNew env n xs ys v = .ok (some v.next, v.addRule n xs ys) := by
  refine bind_eq_ok.mpr ⟨_, _, calloc_grants (ample_head hm), ?_⟩
  refine bind_eq_ok.mpr ⟨_, _, strAlloc_grants (ample_head (ample_tail hm)), ?_⟩
  rw [hc]
  refine bind_eq_ok.mpr ⟨_, _, rfl, ?_⟩
  simp only [hl]
  rfl

theorem ruleNamed_of (hc : Consistent w live) {r : Rule} (hr : w.rules a = some r) :
    w.ruleNamed r.name = some (r.matchJQ.map w.opText, r.writeJQ.map w.opText) := by
  unfold World.ruleNamed
  rw [hc.rules.listed hr rfl, Option.bind_some, hr, Option.map_some]

/-- The texts of stored rules stay. -/
theorem Extends.ruleNamed (h : Extends v u) (hc : Consistent v live) (n : Text) :
    u.ruleNamed n = v.ruleNamed n := by
  unfold World.ruleNamed
  rw [h.ruleJS, h.rules]
  congr 1
  funext a
  cases hr : v.rules a with
  | none => rfl
  | some r =>
    have htext : ∀ op ∈ r.matchJQ ++ r.writeJQ, u.opText op = v.opText op :=
      fun op ho => h.opText (hc.holds hr ho)
    rw [Option.map_some, Option.map_some,
      List.map_congr_left (fun op ho => htext op (List.mem_append_left _ ho)),
      List.map_congr_left (fun op ho => htext op (List.mem_append_right _ ho))]

theorem addRule_ruleNamed {xs ys : List Op} (hc : Consistent v live) (m : Text) :
    (v.addRule n xs ys).ruleNamed m =
      if m = n then some (xs.map v.opText, ys.map v.opText) else v.ruleNamed m := by
  have hjs : (v.addRule n xs ys).ruleJS = v.ruleJS.insert n v.next := rfl
  have hnew : (v.addRule n xs ys).rules v.next = some ⟨n, xs, ys, 0⟩ := Function.update_self ..
  unfold World.ruleNamed
  rw [hjs]
  by_cases hm : m = n
  · subst hm
    rw [if_pos rfl, AList.lookup_insert, Option.bind_some, hnew]
    rfl
  · rw [if_neg hm, AList.lookup_insert_ne hm]
    cases hl : AList.lookup m v.ruleJS with
    | none => rfl
    | some a =>
      obtain ⟨r, hr, -⟩ := hc.rules.found hl
      have hold : (v.addRule n xs ys).rules a = v.rules a :=
        Function.update_of_ne (Nat.ne_of_lt (hc.fresh.rules.below hr)) _ _
      rw [Option.bind_some, Option.bind_some, hold]
      rfl

/-- A printed rule is added again. -/
theorem ruleParse_copies {r : Rule} {ms ws : List Out} (h : Copies w v) (hw : Consistent w live)
    (hm : Made env w) (hr : w.rules a = some r) (hl : AList.lookup r.name v.ruleJS = none)
    (hms : List.Forall₂ OpPrinted (r.matchJQ.map w.opText) ms)
    (hws : List.Forall₂ OpPrinted (r.writeJQ.map w.opText) ws)
    (hs : ShowsPairs doc kvs
      [("rule", .scalar r.name), ("match", .sequence ms), ("write", .sequence ws)]) :
    ∃ u, ruleParse env .add doc kvs v = .ok (0, u) ∧ Copies w u ∧
      ∀ m, u.ruleNamed m = if m = r.name then w.ruleNamed m else v.ruleNamed m := by
  obtain ⟨xs, ys, v₁, hwalk, he, h₁, hxs, hys⟩ := ruleWalk_copies h hw hm hr hms hws hs
  obtain ⟨live', hc⟩ := h.consistent
  obtain ⟨live₁, hc₁⟩ := h₁.consistent
  have hnew : ruleNew env r.name xs ys v₁ = .ok (some v₁.next, v₁.addRule r.name xs ys) :=
    ruleNew_adds h₁.ample (by rw [he.ruleJS]; exact hl) (hm.rules a r hr).1
  have hample := ample_tail (ample_tail h₁.ample)
  have hparse : ruleParse env .add doc kvs v = .ok (0, { v₁.addRule r.name xs ys with
      oom := v₁.oom.tail.tail.tail
      outlist := v₁.outlist ++ [.mapping [("rule", .scalar r.name), ("match", .sequence ms),
        ("write", .sequence ws)]] }) := by
    refine bind_eq_ok.mpr ⟨_, _, hwalk, bind_eq_ok.mpr ⟨_, _, hnew, ?_⟩⟩
    refine bind_eq_ok.mpr ⟨0, _, ?_, rfl⟩
    refine bind_eq_ok.mpr ⟨_, _, deref_ok.mpr ⟨Function.update_self .., rfl⟩, ?_⟩
    refine bind_eq_ok.mpr ⟨ms, _, opEmitAll_ok.mpr ⟨rfl, ?_⟩, ?_⟩
    · change List.Forall₂ OpPrinted (xs.map v₁.opText) ms
      rw [hxs]
      exact hms
    refine bind_eq_ok.mpr ⟨ws, _, opEmitAll_ok.mpr ⟨rfl, ?_⟩, ?_⟩
    · change List.Forall₂ OpPrinted (ys.map v₁.opText) ws
      rw [hys]
      exact hws
    exact bind_eq_ok.mpr ⟨true, _, alloc_grants (ample_head hample), rfl⟩
  refine ⟨_, hparse, ?_, ?_⟩
  · obtain ⟨-, lost, hcu⟩ := (ruleParse_does hc).ok hparse
    exact ⟨⟨⟨_, hcu⟩, ample_tail hample, h₁.states⟩, h₁.fields⟩
  · intro m
    have hadd : (v₁.addRule r.name xs ys).ruleNamed m = _ := addRule_ruleNamed hc₁ m
    rw [hxs, hys, ← ruleNamed_of hw hr, he.ruleNamed hc] at hadd
    refine hadd.trans ?_
    by_cases hmn : m = r.name
    · rw [if_pos hmn, if_pos hmn, hmn]
    · rw [if_neg hmn, if_neg hmn]

end Rules

section Fields

/-- What is printed of a field. -/
def fieldPairs (f : Field) : List (Text × Out) :=
  [("field", .scalar f.name), ("offt", .scalar (toString f.set.offt.toInt)),
    ("len", .scalar (toString f.set.len.toNat))] ++
    if f.set.mask ≠ 0xff then [("mask", .scalar (hexOf f.set.mask.toNat))] else []

theorem fieldEmit_shape (h : Emits (fieldEmit a) w out) :
    ∃ f, w.fields a = some f ∧ out = .mapping (fieldPairs f) := by
  obtain ⟨f, hf, h⟩ := (emits_bind deref_looks).mp h
  exact ⟨f, (deref_ok.mp hf).1, h.of_reply⟩

/-- A number whose text is read without an overflow. -/
theorem fieldParseNumber_reads {key txt : Text} {s t : FieldArgs} {i : Int} (assign : Int → FieldArgs)
    (h : strtol txt = (i, false)) (ht : assign i = t) :
    fieldParseNumber key (.scalar txt : Node doc.size) s assign = pure (.go t) := by
  unfold fieldParseNumber
  simp only [Node.txt, needText, pure_bind, h, ht, Bool.false_eq_true, if_false]

/-- The mask as it is read: an elided one is left at zero. -/
def maskRead (mask : UInt8) : Int := if mask ≠ 0xff then mask.toNat else 0

/-- The walk of `field_parse` over a printed field. -/
theorem fieldWalk_reads {f : Field} (hs : ShowsPairs doc kvs (fieldPairs f)) :
    yForMap doc fieldParseKey kvs ⟨0, some "", 0, 0, 0⟩ =
      pure (.go ⟨0, some f.name, f.set.offt.toInt, f.set.len.toNat, maskRead f.set.mask⟩) := by
  have hoff : strtol (toString f.set.offt.toInt) = (f.set.offt.toInt, false) := by
    have hlo := f.set.offt.le_toInt
    have hhi := f.set.offt.toInt_lt
    exact strtol_int (by omega) (by omega)
  have hlen : strtol (toString f.set.len.toNat) = ((f.set.len.toNat : Int), false) := by
    have := f.set.len.toNat_lt
    exact strtol_nat (by omega)
  have hmask : strtol (hexOf f.set.mask.toNat) = ((f.set.mask.toNat : Int), false) := by
    have := f.set.mask.toNat_lt
    exact strtol_hex (by omega)
  unfold fieldPairs at hs
  obtain ⟨k₁, x₁, rest, rfl, hk₁, hx₁, hs⟩ := hs.eq_cons
  obtain ⟨k₂, x₂, rest, rfl, hk₂, hx₂, hs⟩ := hs.eq_cons
  obtain ⟨k₃, x₃, rest, rfl, hk₃, hx₃, hs⟩ := hs.eq_cons
  rw [yForMap_go (t := ⟨0, some f.name, 0, 0, 0⟩) hk₁ (by rw [hx₁.eq_scalar]; rfl),
    yForMap_go (t := ⟨0, some f.name, f.set.offt.toInt, 0, 0⟩) hk₂
      (by rw [hx₂.eq_scalar]; exact fieldParseNumber_reads (fun v => ⟨0, some f.name, v, 0, 0⟩) hoff rfl),
    yForMap_go (t := ⟨0, some f.name, f.set.offt.toInt, f.set.len.toNat, 0⟩) hk₃
      (by
        rw [hx₃.eq_scalar]
        exact fieldParseNumber_reads (fun v => ⟨0, some f.name, f.set.offt.toInt, v, 0⟩) hlen rfl)]
  unfold maskRead
  by_cases hm : f.set.mask ≠ 0xff
  · rw [if_pos hm] at hs ⊢
    obtain ⟨k₄, x₄, rest, rfl, hk₄, hx₄, hs⟩ := hs.eq_cons
    obtain rfl := hs.eq_nil
    rw [yForMap_go (t := ⟨0, some f.name, f.set.offt.toInt, f.set.len.toNat, f.set.mask.toNat⟩) hk₄
      (by
        rw [hx₄.eq_scalar]
        exact fieldParseNumber_reads
          (fun v => ⟨0, some f.name, f.set.offt.toInt, f.set.len.toNat, v⟩) hmask rfl)]
    rfl
  · rw [if_neg hm] at hs ⊢
    obtain rfl := hs.eq_nil
    rfl

/-- What was read of a field passes the checks and is its set again. -/
theorem fieldSetOf_reads {set : FieldSet} (hm : set.mask ≠ 0) (hf : set.flags = 0) :
    fieldSetOf set.offt.toInt set.len.toNat
      (if maskRead set.mask = 0 then 0xff else maskRead set.mask) = .ok set := by
  have hmask : (if maskRead set.mask = 0 then 0xff else maskRead set.mask) = (set.mask.toNat : Int) := by
    unfold maskRead
    by_cases hff : set.mask ≠ 0xff
    · have hpos : (set.mask.toNat : Int) ≠ 0 := by
        intro hz
        exact hm (UInt8.toNat_inj.mp (Int.ofNat_eq_zero.mp hz))
      rw [if_pos hff, if_neg hpos]
    · rw [if_neg hff, not_not.mp hff]
      rfl
  rw [hmask]
  have hlo := set.offt.le_toInt
  have hhi := set.offt.toInt_lt
  have hlen := set.len.toNat_lt
  have hmlt := set.mask.toNat_lt
  unfold fieldSetOf
  rw [if_neg (by omega), if_neg (by omega), if_neg (by omega), Int32.ofInt_toInt, Int.toNat_natCast,
    Int.toNat_natCast, UInt16.ofNat_toNat, UInt8.ofNat_toNat, ← hf]

/-- The world with another field. -/
def World.addField (v : World) (n : Text) (set : FieldSet) : World :=
  { v with
    next := v.next + 1
    oom := v.oom.tail.tail
    fieldJS := v.fieldJS.insert n v.next
    fields := Function.update v.fields v.next (some ⟨n, set, 0⟩) }

theorem fieldNew_adds {offt len mask : Int} {set : FieldSet} (hm : Granted 2 v.oom)
    (hl : AList.lookup n v.fieldJS = none) (hc : env.nstralloc n MAXLINELEN = .copy)
    (hs : fieldSetOf offt len (if mask = 0 then 0xff else mask) = .ok set) :
    fieldNew env (some n) offt len mask v = .ok (some v.next, v.addField n set) := by
  refine bind_eq_ok.mpr ⟨v, v, rfl, ?_⟩
  simp only [hl, Option.isSome_none, Bool.false_eq_true, if_false]
  obtain ⟨hm, htail⟩ := granted_succ.mp hm
  refine bind_eq_ok.mpr ⟨_, _, calloc_grants hm, ?_⟩
  refine bind_eq_ok.mpr ⟨_, _, strAlloc_grants (granted_succ.mp htail).1, ?_⟩
  rw [hc]
  simp only [hs]
  rfl

theorem fieldNamed_of (hc : Consistent w live) {f : Field} (hf : w.fields a = some f) :
    w.fieldNamed f.name = some f.set := by
  unfold World.fieldNamed
  rw [hc.fields.listed hf rfl, Option.bind_some, hf, Option.map_some]

theorem addField_fieldNamed {set : FieldSet} (hc : Consistent v live) (m : Text) :
    (v.addField n set).fieldNamed m = if m = n then some set else v.fieldNamed m := by
  have hjs : (v.addField n set).fieldJS = v.fieldJS.insert n v.next := rfl
  have hnew : (v.addField n set).fields v.next = some ⟨n, set, 0⟩ := Function.update_self ..
  unfold World.fieldNamed
  rw [hjs]
  by_cases hm : m = n
  · subst hm
    rw [if_pos rfl, AList.lookup_insert, Option.bind_some, hnew, Option.map_some]
  · rw [if_neg hm, AList.lookup_insert_ne hm]
    cases hl : AList.lookup m v.fieldJS with
    | none => rfl
    | some a =>
      obtain ⟨f, hf, -⟩ := hc.fields.found hl
      have hold : (v.addField n set).fields a = v.fields a :=
        Function.update_of_ne (Nat.ne_of_lt (hc.fresh.fields.below hf)) _ _
      rw [Option.bind_some, Option.bind_some, hold]

/-- While fields are added, everything else stays. -/
structure FieldsOnly (v u : World) : Prop where
  consistent : ∃ live, Consistent u live
  ample : ∀ fails ∈ u.oom, fails = false
  memrefs : u.memrefs = v.memrefs
  ruleJS : u.ruleJS = v.ruleJS

/-- After the walk: the field is stored and printed. -/
theorem fieldParseMode_adds {s : FieldArgs} {set : FieldSet} (hm : ∀ fails ∈ v.oom, fails = false)
    (hn : s.name = some n) (hl : AList.lookup n v.fieldJS = none)
    (hc : env.nstralloc n MAXLINELEN = .copy)
    (hs : fieldSetOf s.offt s.len (if s.mask = 0 then 0xff else s.mask) = .ok set) :
    fieldParseMode env .add s v = .ok (s.errCnt, { v.addField n set with
      oom := v.oom.tail.tail.tail
      outlist := v.outlist ++ [.mapping (fieldPairs ⟨n, set, 0⟩)] }) := by
  have hnew : fieldNew env s.name s.offt s.len s.mask v = .ok (some v.next, v.addField n set) := by
    rw [hn]
    exact fieldNew_adds (fun _ h => hm _ (List.mem_of_mem_take h)) hl hc hs
  refine bind_eq_ok.mpr ⟨_, _, hnew, bind_eq_ok.mpr ⟨0, _, ?_, rfl⟩⟩
  refine bind_eq_ok.mpr ⟨_, _, deref_ok.mpr ⟨Function.update_self .., rfl⟩, ?_⟩
  exact bind_eq_ok.mpr ⟨true, _, alloc_grants (ample_head (ample_tail (ample_tail hm))), rfl⟩

theorem fieldParse_added {f : Field} (hm : ∀ fails ∈ v.oom, fails = false)
    (hf : FieldMade env f) (hl : AList.lookup f.name v.fieldJS = none)
    (hs : ShowsPairs doc kvs (fieldPairs f)) :
    fieldParse env .add doc kvs v = .ok (0, { v.addField f.name f.set with
      oom := v.oom.tail.tail.tail
      outlist := v.outlist ++ [.mapping (fieldPairs ⟨f.name, f.set, 0⟩)] }) := by
  unfold fieldParse
  rw [fieldWalk_reads hs, pure_bind]
  exact fieldParseMode_adds hm rfl hl hf.1 (fieldSetOf_reads hf.2.1 hf.2.2)

/-- A printed field is added again. -/
theorem fieldParse_adds {f : Field} (hc : Consistent v live) (hm : ∀ fails ∈ v.oom, fails = false)
    (hf : FieldMade env f) (hl : AList.lookup f.name v.fieldJS = none)
    (hs : ShowsPairs doc kvs (fieldPairs f)) :
    ∃ u, fieldParse env .add doc kvs v = .ok (0, u) ∧ FieldsOnly v u ∧
      ∀ m, u.fieldNamed m = if m = f.name then some f.set else v.fieldNamed m := by
  have hparse := fieldParse_added hm hf hl hs
  refine ⟨_, hparse, ⟨⟨_, ((fieldParse_does hc).ok hparse).2⟩, ample_tail (ample_tail (ample_tail hm)),
    rfl, rfl⟩, ?_⟩
  exact fun m => addField_fieldNamed hc m

end Fields

section Listings

theorem jsAddrs_mem {s : NameStore Text} (hl : AList.lookup n s = some a) : a ∈ jsAddrs s := by
  unfold jsAddrs
  refine List.mem_map.mpr ⟨(n, a), (List.mem_insertionSort _).mpr ?_, rfl⟩
  exact List.mem_map.mpr ⟨⟨n, a⟩, List.of_mem_dlookup hl, rfl⟩

/-- Of the names that `s` lists at `addrs` nothing is there yet, of the others all that
is wanted. -/
structure Pending {β : Type} (s : NameStore Text) (want : Text → Option β) (addrs : List Addr)
    (got : Text → Option β) : Prop where
  absent : ∀ n a, a ∈ addrs → AList.lookup n s = some a → got n = none
  done : ∀ n, (∀ a ∈ addrs, AList.lookup n s ≠ some a) → got n = want n

variable {β : Type} {s : NameStore Text} {want got got' : Text → Option β} {addrs : List Addr}

theorem Pending.start (hall : ∀ n a, AList.lookup n s = some a → a ∈ addrs)
    (hwant : ∀ n, AList.lookup n s = none → want n = none) (hgot : ∀ n, got n = none) :
    Pending s want addrs got := by
  refine ⟨fun n _ _ _ => hgot n, ?_⟩
  intro n hn
  rw [hgot]
  cases hl : AList.lookup n s with
  | none => exact (hwant n hl).symm
  | some a => exact absurd hl (hn a (hall n a hl))

theorem Pending.step {m : Text} (h : Pending s want (a :: addrs) got) (hd : a ∉ addrs)
    (hl : AList.lookup m s = some a) (hu : ∀ n, AList.lookup n s = some a → n = m)
    (hg : ∀ n, got' n = if n = m then want n else got n) : Pending s want addrs got' := by
  refine ⟨?_, ?_⟩
  · intro n b hb hn
    have hne : n ≠ m := by
      intro he
      rw [he, hl] at hn
      cases hn
      exact hd hb
    rw [hg, if_neg hne]
    exact h.absent n b (List.mem_cons_of_mem _ hb) hn
  · intro n hn
    rw [hg]
    by_cases he : n = m
    · rw [if_pos he]
    · rw [if_neg he]
      refine h.done n (fun b hb hb' => ?_)
      rcases List.mem_cons.mp hb with rfl | hb
      · exact he (hu n hb')
      · exact hn b hb hb'

/-- An object has one name, so `JS_LOOP` visits it once. -/
theorem jsAddrs_nodup
    (hu : ∀ n m a, AList.lookup n s = some a → AList.lookup m s = some a → n = m) :
    (jsAddrs s).Nodup := by
  have hperm : (jsAddrs s).Perm (s.entries.map Sigma.snd) := by
    unfold jsAddrs
    refine ((List.perm_insertionSort _ _).map _).trans ?_
    rw [List.map_map]
    exact .refl _
  rw [hperm.nodup_iff]
  refine List.Nodup.map_on ?_ s.nodupKeys.nodup
  intro x hx y hy hxy
  have hy' := NameStore.lookup_of_mem hy
  rw [← hxy] at hy'
  have hname := hu x.1 y.1 x.2 (NameStore.lookup_of_mem hx) hy'
  exact Sigma.ext hname (heq_of_eq hxy)

end Listings

section Replaying

/-- The node at `x` is what `emit` printed of `a`. -/
def Printed (emit : Addr → M Nat) (w : World) (doc : Document) (a : Addr) (x : Fin doc.size) :
    Prop :=
  ∃ u out, Idle w u ∧ Emits (emit a) u out ∧ Shows doc (doc.node x) out

theorem parseChild_shown {key : Text} {val : Out} {outs : List (Text × Out)} {sub : Subsystem}
    {node : Node doc.size} (h : Shows doc node (.mapping ((key, val) :: outs)))
    (hsub : subsystemOf key = some sub) :
    ∃ kvs, ShowsPairs doc kvs ((key, val) :: outs) ∧
      parseChild env .add doc node = subsystemParse env sub .add doc kvs := by
  obtain ⟨kvs, rfl, hp⟩ := h.eq_mapping
  obtain ⟨k, x, rest, rfl, hk, -, -⟩ := hp.eq_cons
  refine ⟨_, hp, ?_⟩
  simp only [parseChild, hk, scalarValue, pure_bind, hsub]

theorem parseChildren_append {xs ys : List (Fin doc.size)} {errs errs' : Nat}
    (h : parseChildren env .add doc xs errs w = .ok (errs', v)) :
    parseChildren env .add doc (xs ++ ys) errs w = parseChildren env .add doc ys errs' v := by
  induction xs generalizing errs w with
  | nil =>
    obtain ⟨rfl, rfl⟩ := pure_eq_ok.mp h
    rfl
  | cons x xs ih =>
    obtain ⟨n, t, hx, hxs⟩ := bind_eq_ok.mp h
    rw [← ih hxs]
    change Except.bind (parseChild env .add doc (doc.node x) w) _ = _
    rw [hx]
    rfl

/-- The children of a list of names, where each child adds its own. -/
theorem parseChildren_adds {β : Type} {s : NameStore Text} {want : Text → Option β}
    {named : World → Text → Option β} {I : World → Prop} {P : Addr → Fin doc.size → Prop}
    {addrs : List Addr} {items : List (Fin doc.size)}
    (hu : ∀ n m a, AList.lookup n s = some a → AList.lookup m s = some a → n = m)
    (hstep : ∀ a x v, P a x → I v → (∀ n, AList.lookup n s = some a → named v n = none) →
      ∃ u m, parseChild env .add doc (doc.node x) v = .ok (0, u) ∧ I u ∧
        AList.lookup m s = some a ∧ ∀ n, named u n = if n = m then want n else named v n)
    (hall : List.Forall₂ P addrs items) (hd : addrs.Nodup) (hv : I v)
    (hp : Pending s want addrs (named v)) :
    ∃ u, parseChildren env .add doc items 0 v = .ok (0, u) ∧ I u ∧ ∀ n, named u n = want n := by
  induction hall generalizing v with
  | nil => exact ⟨v, rfl, hv, fun n => hp.done n (fun a ha => (by cases ha))⟩
  | @cons a x as xs hax _ ih =>
    obtain ⟨hna, hd⟩ := List.nodup_cons.mp hd
    obtain ⟨t, m, hx, ht, hm, hnamed⟩ :=
      hstep a x v hax hv (fun n hn => hp.absent n a List.mem_cons_self hn)
    obtain ⟨u, hxs, hgot⟩ := ih hd ht (hp.step hna hm (fun n hn => hu n m a hn hm) hnamed)
    exact ⟨u, bind_eq_ok.mpr ⟨0, t, hx, hxs⟩, hgot⟩

theorem fieldLookup_none {name : Text} (hc : Consistent v live) (h : v.fieldNamed name = none) :
    AList.lookup name v.fieldJS = none := by
  cases hl : AList.lookup name v.fieldJS with
  | none => rfl
  | some a =>
    obtain ⟨f, hf, hn⟩ := hc.fields.found hl
    cases hn
    rw [fieldNamed_of hc hf] at h
    cases h

theorem ruleLookup_none {name : Text} (hc : Consistent v live) (h : v.ruleNamed name = none) :
    AList.lookup name v.ruleJS = none := by
  cases hl : AList.lookup name v.ruleJS with
  | none => rfl
  | some a =>
    obtain ⟨r, hr, hn⟩ := hc.rules.found hl
    cases hn
    rw [ruleNamed_of hc hr] at h
    cases h

/-- A child that was printed of a field adds that field. -/
theorem fieldChild_adds {x : Fin doc.size} (hw : Consistent w live) (hm : Made env w)
    (hx : Printed fieldEmit w doc a x) (hv : FieldsOnly v u)
    (hn : ∀ n, AList.lookup n w.fieldJS = some a → u.fieldNamed n = none) :
    ∃ t m, parseChild env .add doc (doc.node x) u = .ok (0, t) ∧ FieldsOnly v t ∧
      AList.lookup m w.fieldJS = some a ∧
      ∀ n, t.fieldNamed n = if n = m then w.fieldNamed n else u.fieldNamed n := by
  obtain ⟨w', out, hi, he, hs⟩ := hx
  obtain ⟨f, hf, rfl⟩ := fieldEmit_shape he
  rw [hi.fields] at hf
  have hlist := hw.fields.listed hf rfl
  obtain ⟨live', hc⟩ := hv.consistent
  obtain ⟨kvs, hkvs, hparse⟩ := parseChild_shown hs (show subsystemOf "field" = some .field from rfl)
  obtain ⟨t, ht, hto, hnamed⟩ := fieldParse_adds hc hv.ample (hm.fields a f hf)
    (fieldLookup_none hc (hn _ hlist)) hkvs
  refine ⟨t, f.name, ?_, ⟨hto.consistent, hto.ample, hto.memrefs.trans hv.memrefs,
    hto.ruleJS.trans hv.ruleJS⟩, hlist, ?_⟩
  · rw [hparse]
    exact ht
  · intro n
    rw [hnamed]
    by_cases hnm : n = f.name
    · rw [if_pos hnm, if_pos hnm, hnm, fieldNamed_of hw hf]
    · rw [if_neg hnm, if_neg hnm]

/-- A child that was printed of a rule adds that rule. -/
theorem ruleChild_adds {x : Fin doc.size} (hw : Consistent w live) (hm : Made env w)
    (hx : Printed ruleEmit w doc a x) (hv : Copies w v)
    (hn : ∀ n, AList.lookup n w.ruleJS = some a → v.ruleNamed n = none) :
    ∃ u m, parseChild env .add doc (doc.node x) v = .ok (0, u) ∧ Copies w u ∧
      AList.lookup m w.ruleJS = some a ∧
      ∀ n, u.ruleNamed n = if n = m then w.ruleNamed n else v.ruleNamed n := by
  obtain ⟨w', out, hi, he, hs⟩ := hx
  obtain ⟨r, ms, ws, hr, hms, hws, rfl⟩ := ruleEmit_shape he
  have htext : w'.opText = w.opText := by
    funext op
    unfold World.opText World.fieldText World.memrefText
    rw [hi.fields, hi.memrefs]
  rw [hi.rules] at hr
  rw [htext] at hms hws
  have hlist := hw.rules.listed hr rfl
  obtain ⟨live', hc⟩ := hv.consistent
  obtain ⟨kvs, hkvs, hparse⟩ := parseChild_shown hs (show subsystemOf "rule" = some .rule from rfl)
  obtain ⟨u, hu, hcu, hnamed⟩ :=
    ruleParse_copies hv hw hm hr (ruleLookup_none hc (hn _ hlist)) hms hws hkvs
  refine ⟨u, r.name, ?_, hcu, hlist, hnamed⟩
  rw [hparse]
  exact hu

theorem fieldsOnly_copies (hst : v.stateJS = ∅) (h : FieldsOnly v u)
    (hf : ∀ n, u.fieldNamed n = w.fieldNamed n) (hc : Consistent v live) : Copies w u := by
  refine ⟨⟨h.consistent, h.ample, ?_⟩, hf⟩
  intro a r hr s hs
  rw [h.memrefs] at hr
  have hl := hc.states.listed hr hs
  rw [hst, AList.lookup_empty] at hl
  cases hl

/-- What was printed of the fields and then of the rules is accepted by an empty store,
which then has the same fields and the same rules. -/
theorem printed_replays {fields rules : List Addr} {xs ys : List (Fin doc.size)}
    (hw : Reachable env w) (hv : Reachable env v) (hfields : v.fieldJS = ∅)
    (hstates : v.stateJS = ∅) (hrules : v.ruleJS = ∅) (hample : ∀ fails ∈ v.oom, fails = false)
    (hf : fields.Perm (jsAddrs w.fieldJS)) (hr : rules.Perm (jsAddrs w.ruleJS))
    (hxs : List.Forall₂ (Printed fieldEmit w doc) fields xs)
    (hys : List.Forall₂ (Printed ruleEmit w doc) rules ys) :
    ∃ u, parseChildren env .add doc (xs ++ ys) 0 v = .ok (0, u) ∧ SameConfig w u := by
  obtain ⟨live, hcw⟩ := hw.consistent
  obtain ⟨live', hcv⟩ := hv.consistent
  have hm := hw.made
  have huf : ∀ n m a, AList.lookup n w.fieldJS = some a → AList.lookup m w.fieldJS = some a → n = m := by
    intro n m a hn hm
    obtain ⟨f, hf, hfn⟩ := hcw.fields.found hn
    obtain ⟨g, hg, hgm⟩ := hcw.fields.found hm
    obtain rfl := Option.some.inj (hf.symm.trans hg)
    exact Option.some.inj (hfn.symm.trans hgm)
  have hur : ∀ n m a, AList.lookup n w.ruleJS = some a → AList.lookup m w.ruleJS = some a → n = m := by
    intro n m a hn hm
    obtain ⟨r, hr, hrn⟩ := hcw.rules.found hn
    obtain ⟨q, hq, hqm⟩ := hcw.rules.found hm
    obtain rfl := Option.some.inj (hr.symm.trans hq)
    exact Option.some.inj (hrn.symm.trans hqm)
  have hstartF : Pending w.fieldJS w.fieldNamed fields v.fieldNamed := by
    refine .start (fun n a hn => hf.mem_iff.mpr (jsAddrs_mem hn)) ?_ ?_
    · intro n hn
      rw [World.fieldNamed, hn, Option.bind_none]
    · intro n
      rw [World.fieldNamed, hfields, AList.lookup_empty, Option.bind_none]
  obtain ⟨t, hparseF, ht, hgotF⟩ := parseChildren_adds (I := FieldsOnly v) huf
    (fun a x u hx hu hn => fieldChild_adds hcw hm hx hu hn) hxs
    (hf.nodup_iff.mpr (jsAddrs_nodup huf)) ⟨⟨_, hcv⟩, hample, rfl, rfl⟩ hstartF
  have hct := fieldsOnly_copies hstates ht hgotF hcv
  have hstartR : Pending w.ruleJS w.ruleNamed rules t.ruleNamed := by
    refine .start (fun n a hn => hr.mem_iff.mpr (jsAddrs_mem hn)) ?_ ?_
    · intro n hn
      rw [World.ruleNamed, hn, Option.bind_none]
    · intro n
      rw [World.ruleNamed, ht.ruleJS, hrules, AList.lookup_empty, Option.bind_none]
  obtain ⟨u, hparseR, hu, hgotR⟩ := parseChildren_adds (I := Copies w) hur
    (fun a x v hx hv hn => ruleChild_adds hcw hm hx hv hn) hys
    (hr.nodup_iff.mpr (jsAddrs_nodup hur)) hct hstartR
  exact ⟨u, (parseChildren_append hparseF).trans hparseR, hu.fields, hgotR⟩

end Replaying

section Swapping

theorem fieldEmit_emits {f : Field} (hf : w.fields a = some f) (hm : w.oom = []) :
    Emits (fieldEmit a) w (.mapping (fieldPairs f)) :=
  (emits_bind deref_looks).mpr ⟨f, deref_ok.mpr ⟨hf, rfl⟩, emitReply_emits hm⟩

theorem ruleEmit_emits {r : Rule} {ms ws : List Out} (hr : w.rules a = some r)
    (hms : List.Forall₂ OpPrinted (r.matchJQ.map w.opText) ms)
    (hws : List.Forall₂ OpPrinted (r.writeJQ.map w.opText) ws) (hm : w.oom = []) :
    Emits (ruleEmit a) w (.mapping
      [("rule", .scalar r.name), ("match", .sequence ms), ("write", .sequence ws)]) :=
  (emits_bind deref_looks).mpr ⟨r, deref_ok.mpr ⟨hr, rfl⟩,
    (emits_bind opEmitAll_looks).mpr ⟨ms, opEmitAll_ok.mpr ⟨rfl, hms⟩,
      (emits_bind opEmitAll_looks).mpr ⟨ws, opEmitAll_ok.mpr ⟨rfl, hws⟩, emitReply_emits hm⟩⟩⟩

/-- What is printed of the fields `f` and `g`, and of the rule that swaps them. -/
def swapReply : Document where
  size := 26
  node := List.get [.mapping [(3, 4), (5, 6), (7, 8)], .mapping [(3, 9), (5, 8), (7, 8)],
    .mapping [(10, 11), (12, 13), (14, 15)], .scalar "field", .scalar "f", .scalar "offt",
    .scalar "0", .scalar "len", .scalar "1", .scalar "g", .scalar "rule", .scalar "x",
    .scalar "match", .sequence [], .scalar "write", .sequence [16, 17, 18],
    .mapping [(19, 20), (21, 22)], .mapping [(19, 22), (21, 23)], .mapping [(19, 23), (21, 20)],
    .scalar "dst", .mapping [(24, 25)], .scalar "src", .mapping [(3, 4)], .mapping [(3, 9)],
    .scalar "state", .scalar "s"]

instance : NeZero swapReply.size := ⟨by decide⟩

def statePairs : List (Text × Out) := [("state", .scalar "s")]

def sidePairs (name : Text) : List (Text × Out) := [("field", .scalar name)]

def opOut (dstField dst srcField src : List (Text × Out)) : Out :=
  .mapping [("dst", .mapping (dstField ++ dst)), ("src", .mapping (srcField ++ src))]

def swapOuts : List Out :=
  [opOut [] statePairs (sidePairs "f") [], opOut (sidePairs "f") [] (sidePairs "g") [],
    opOut (sidePairs "g") [] [] statePairs]

def swapTexts : List OpText :=
  [⟨none, some (some (.state "s")), some (some "f"), none, ⟨0, 1, 0xff, 0⟩,
      some (some (.state "s")), ⟨0, 1, 0xff, 0⟩, none⟩,
    ⟨some (some "f"), none, some (some "g"), none, ⟨0, 1, 0xff, 0⟩, none, ⟨1, 1, 0xff, 0⟩, none⟩,
    ⟨some (some "g"), none, none, some (some (.state "s")), ⟨1, 1, 0xff, 0⟩, none,
      ⟨1, 1, 0xff, 0⟩, some (some (.state "s"))⟩]

theorem swapTexts_printed : List.Forall₂ OpPrinted swapTexts swapOuts :=
  .cons (.mk .none (.state "s") (.some "f") .none)
    (.cons (.mk (.some "f") .none (.some "g") .none)
      (.cons (.mk (.some "g") .none .none (.state "s")) .nil))

theorem swapReply_field (f : Field) (x : Fin swapReply.size) (hx : x = 0 ∧ f = ⟨"f", ⟨0, 1, 0xff, 0⟩, 2⟩ ∨
    x = 1 ∧ f = ⟨"g", ⟨1, 1, 0xff, 0⟩, 2⟩) :
    Shows swapReply (swapReply.node x) (.mapping (fieldPairs f)) := by
  rcases hx with ⟨rfl, rfl⟩ | ⟨rfl, rfl⟩
  · exact .mapping (.cons rfl (.scalar "f") (.cons rfl (.scalar "0") (.cons rfl (.scalar "1") .nil)))
  · exact .mapping (.cons rfl (.scalar "g") (.cons rfl (.scalar "1") (.cons rfl (.scalar "1") .nil)))

theorem swapReply_rule : Shows swapReply (swapReply.node 2) (.mapping
    [("rule", .scalar "x"), ("match", .sequence []), ("write", .sequence swapOuts)]) := by
  have hstate : Shows swapReply (swapReply.node 20) (.mapping statePairs) :=
    .mapping (.cons rfl (.scalar "s") .nil)
  have hf : Shows swapReply (swapReply.node 22) (.mapping (sidePairs "f")) :=
    .mapping (.cons rfl (.scalar "f") .nil)
  have hg : Shows swapReply (swapReply.node 23) (.mapping (sidePairs "g")) :=
    .mapping (.cons rfl (.scalar "g") .nil)
  have hops : ShowsItems swapReply [16, 17, 18] swapOuts :=
    .cons (.mapping (.cons rfl hstate (.cons rfl hf .nil)))
      (.cons (.mapping (.cons rfl hf (.cons rfl hg .nil)))
        (.cons (.mapping (.cons rfl hg (.cons rfl hstate .nil))) .nil))
  exact .mapping (.cons rfl (.scalar "x") (.cons rfl (.sequence .nil) (.cons rfl (.sequence hops) .nil)))

/-- `{field: name, offt: offt, len: len}` -/
def placedField (name offt len : Text) : Document where
  size := 7
  node := List.get [.mapping [(1, 2), (3, 4), (5, 6)], .scalar "field", .scalar name,
    .scalar "offt", .scalar offt, .scalar "len", .scalar len]

def placedFieldPairs (name offt len : Text) : Pairs (placedField name offt len) :=
  ([(1, 2), (3, 4), (5, 6)] : List (Fin 7 × Fin 7))

def swapConfig : List Event :=
  [byteFieldAdd, .mapping .field .add (placedField "g" "1" "1") (placedFieldPairs "g" "1" "1"),
    ruleSwapAdd]

theorem swapConfig_runs : Runs (fun _ => False) (handleAll .sample swapConfig)
    (World.start [] [] []) (fun _ w => w.oom = [] ∧ jsAddrs w.fieldJS = [1, 2] ∧
      jsAddrs w.ruleJS = [4] ∧ w.fields 1 = some ⟨"f", ⟨0, 1, 0xff, 0⟩, 2⟩ ∧
      w.fields 2 = some ⟨"g", ⟨1, 1, 0xff, 0⟩, 2⟩ ∧
      ∃ r ∈ w.rules 4, r.name = "x" ∧ r.matchJQ = [] ∧ r.writeJQ.map w.opText = swapTexts) := by
  decide +kernel

theorem printed_replays_swap : ∃ w u, Reachable .sample w ∧
    parseChildren .sample .add swapReply ([1, 0] ++ [2] : List (Fin 26)) 0 (World.start [] [] []) =
      .ok (0, u) ∧
    SameConfig w u := by
  obtain ⟨_, w, hw, hm, hfs, hrs, hf, hg, r, hr, hname, hmatch, hwrite⟩ := swapConfig_runs.exists_ok
  have hreach : Reachable .sample w := ⟨[], [], [], _, hw⟩
  have hrule := ruleEmit_emits hr (by rw [hmatch]; exact .nil)
    (by rw [hwrite]; exact swapTexts_printed) hm
  rw [hname] at hrule
  have hfields : List.Forall₂ (Printed fieldEmit w swapReply) [2, 1] ([1, 0] : List (Fin 26)) :=
    .cons ⟨w, _, .refl w, fieldEmit_emits hg hm, swapReply_field _ 1 (.inr ⟨rfl, rfl⟩)⟩
      (.cons ⟨w, _, .refl w, fieldEmit_emits hf hm, swapReply_field _ 0 (.inl ⟨rfl, rfl⟩)⟩ .nil)
  have hrules : List.Forall₂ (Printed ruleEmit w swapReply) [4] ([2] : List (Fin 26)) :=
    .cons ⟨w, _, .refl w, hrule, swapReply_rule⟩ .nil
  obtain ⟨u, hu, hsame⟩ := printed_replays hreach (reachable_start [] [] []) rfl rfl rfl
    (fun _ h => (by cases h)) (by rw [hfs]; exact .swap _ _ _) (by rw [hrs]) hfields hrules
  exact ⟨w, u, hreach, hu, hsame⟩

end Swapping

end Xdpacket
