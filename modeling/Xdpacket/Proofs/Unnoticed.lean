import Xdpacket.Model.Value
import Xdpacket.Proofs.Counting
import Xdpacket.Proofs.Replay

namespace Xdpacket

variable {w v u : World} {live : Multiset Ref} {doc : Document} {mode : ParseMode}
  {mapping : Pairs doc} {field : Addr} {n : Text} {name : Option Text} {s : OpArgs}

/-- Every name can be copied, and values are parsed as `value_parse` does it. -/
def Env.lavish : Env :=
  { Env.sample with
    valueParse := fun value len => (valueParseBytes (fun _ _ => none) value len).bind
      (fun parsed => if h : parsed.length = len then some ⟨parsed, h⟩ else none) }

/-- Of a value of no bytes nothing is read. -/
theorem Env.lavish_parses (value : Text) {len : Nat} (h : len = 0) :
    Env.lavish.valueParse value len = some ⟨[], h.symm⟩ := by
  subst h
  rfl

/-- What a field is that only a name is given for. -/
def blank : FieldSet := ⟨0, 0, 0xff, 0⟩

/-- Fields and states are blank, so that they suit each other, and no allocation fails. -/
structure Roomy (v : World) : Prop extends Hosts (fun _ len mask => len = 0 ∧ mask = 0xff) v where
  fields : ∀ n set, v.fieldNamed n = some set → set = blank

section Fields

theorem Roomy.extend (h : Roomy v) (he : Extends v u)
    (hu : Hosts (fun _ len mask => len = 0 ∧ mask = 0xff) u) : Roomy u :=
  { hu with fields := fun n set hn => h.fields n set (by rw [← he.fieldNamed]; exact hn) }

theorem roomy_start : Roomy (World.start [] [] []) where
  consistent := ⟨0, consistent_start [] [] []⟩
  ample := fun _ h => (by cases h)
  states := fun _ _ h => (by cases h)
  fields := fun _ _ h => (by cases h)

def blankField (n : Text) : Document := placedField n "0" "0"

def blankFieldPairs (n : Text) : Pairs (blankField n) := placedFieldPairs n "0" "0"

theorem blankField_shows (n : Text) :
    ShowsPairs (blankField n) (blankFieldPairs n) (fieldPairs ⟨n, blank, 0⟩) := by
  have hofft : toString blank.offt.toInt = "0" := by decide
  have hlen : toString blank.len.toNat = "0" := by decide
  have hmask : ¬ blank.mask ≠ 0xff := by decide
  unfold fieldPairs
  rw [hofft, hlen, if_neg hmask]
  exact .cons rfl (.scalar n) (.cons rfl (.scalar "0") (.cons rfl (.scalar "0") .nil))

theorem blank_made (n : Text) : FieldMade .lavish ⟨n, blank, 0⟩ :=
  ⟨rfl, show blank.mask ≠ 0 by decide, rfl⟩

/-- The fields that are wanted can be there, and nothing else need be. -/
theorem exists_roomy (ns : List Text) :
    ∃ w, Reachable .lavish w ∧ Roomy w ∧ ∀ n ∈ ns, w.fieldNamed n = some blank := by
  induction ns with
  | nil => exact ⟨_, reachable_start [] [] [], roomy_start, fun _ h => (by cases h)⟩
  | cons n ns ih =>
    obtain ⟨w, hr, hw, hns⟩ := ih
    cases hn : w.fieldNamed n with
    | some set =>
      rw [hw.fields n set hn] at hn
      refine ⟨w, hr, hw, fun m hm => ?_⟩
      rcases List.mem_cons.mp hm with rfl | hm
      · exact hn
      · exact hns m hm
    | none =>
      obtain ⟨live, hc⟩ := hw.consistent
      obtain ⟨u, hu, hfo, hnamed⟩ := fieldParse_adds hc hw.ample (blank_made n)
        (fieldLookup_none hc hn) (blankField_shows n)
      have hrun : subsystemParse .lavish .field .add (blankField n) (blankFieldPairs n) w =
        .ok (0, u) := hu
      refine ⟨u, hr.parsed hrun, ⟨⟨hfo.consistent, hfo.ample, ?_⟩, ?_⟩, ?_⟩
      · rw [hfo.memrefs]
        exact hw.states
      · intro m set hm
        rw [hnamed] at hm
        split at hm
        · exact (Option.some.inj hm).symm
        · exact hw.fields m set hm
      · intro m hm
        rw [hnamed]
        split
        · rfl
        · rename_i hne
          exact hns m ((List.mem_cons.mp hm).resolve_left hne)

end Fields

section Operations

variable {own other : Option Addr} {f : Field}

/-- The field that is referred to, if any, is blank. -/
def Refers (v : World) (ref : Option Addr) : Prop :=
  ∀ a, ref = some a → ∃ f, v.fields a = some f ∧ f.set = blank

theorem Refers.extend {ref : Option Addr} (h : Refers v ref) (he : Extends v u) : Refers u ref := by
  intro a ha
  obtain ⟨f, hf, hset⟩ := h a ha
  obtain ⟨g, hg, hk⟩ := he.fields.live hf
  exact ⟨g, hg, (congrArg Prod.snd hk).trans hset⟩

theorem opField_found (h : Roomy v) (hn : ∀ n, name = some n → v.fieldNamed n = some blank) :
    ∃ r u, opField name v = .ok (some r, u) ∧ Extends v u ∧ Roomy u ∧ Refers u r ∧
      (r = none ↔ name = none) := by
  cases name with
  | none => exact ⟨none, v, rfl, .refl v, h, fun _ ha => (by cases ha), iff_of_true rfl rfl⟩
  | some n =>
    obtain ⟨a, hl, ha⟩ := Option.bind_eq_some_iff.mp (hn n rfl)
    obtain ⟨f, hf, hset⟩ := Option.map_eq_some_iff.mp ha
    obtain ⟨u, hget, he, hu⟩ := fieldGet_found h.toHosts hl hf
    have hr : Refers v (some a) := fun b hb => by
      cases hb
      exact ⟨f, hf, hset⟩
    exact ⟨some a, u, bind_eq_ok.mpr ⟨some a, u, hget, rfl⟩, he, h.extend he hu, hr.extend he,
      by simp⟩

theorem opState_found (name : Option Text) (h : Roomy v) (hs : own.or other = some field)
    (hf : v.fields field = some f) (hset : f.set = blank) :
    ∃ r u, opState .lavish own other name v = .ok (some r, u) ∧ Extends v u ∧ Roomy u := by
  cases name with
  | none => exact ⟨none, v, rfl, .refl v, h⟩
  | some n =>
    have hlen : f.set.len = 0 := by rw [hset]; rfl
    have hmask : f.set.mask = 0xff := by rw [hset]; rfl
    have hcopy : Env.lavish.nstralloc n MAXLINELEN = .copy := rfl
    obtain ⟨a, u, hget, he, hu, -⟩ := memrefStateGet_fits h.toHosts hf ⟨hlen, hmask⟩
      (fun len mask hl => ⟨hl.1.trans hlen.symm, hl.2.trans hmask.symm⟩) hcopy
    refine ⟨some a, u, ?_, he, h.extend he hu⟩
    unfold opState
    simp only [opMemrefField_eq hs, pure_bind]
    exact bind_eq_ok.mpr ⟨some a, u, hget, rfl⟩

theorem opValue_parsed (value : Option Text) (h : Roomy v) (hs : own.or other = some field)
    (hf : v.fields field = some f) (hset : f.set = blank) :
    ∃ r u, opValue .lavish own other value v = .ok (some r, u) ∧ Extends v u ∧ Roomy u := by
  cases value with
  | none => exact ⟨none, v, rfl, .refl v, h⟩
  | some txt =>
    have hlen : f.set.len.toNat = 0 := by rw [hset]; rfl
    obtain ⟨a, u, hget, he, hu, -⟩ :=
      memrefValueNew_parsed h.toHosts hf rfl (Env.lavish_parses txt hlen)
    refine ⟨some a, u, ?_, he, h.extend he hu⟩
    unfold opValue
    simp only [opMemrefField_eq hs, pure_bind]
    exact bind_eq_ok.mpr ⟨some a, u, hget, rfl⟩

/-- With the fields that are named there, every operation that passes the checks is made. -/
theorem opNew_roomy (h : Roomy v) (hp : s.Plausible)
    (hd : ∀ n, s.dstFieldName = some n → v.fieldNamed n = some blank)
    (hs : ∀ n, s.srcFieldName = some n → v.fieldNamed n = some blank) :
    ∃ op u, opNew .lavish s.dstFieldName s.dstStateName s.srcFieldName s.srcStateName s.srcValue v =
      .ok (some op, u) := by
  have hidle : Idle v { v with oom := v.oom.tail } := { Idle.refl v with next := Nat.le_refl _ }
  have h₀ := h.extend hidle.extends (h.toHosts.idle hidle (ample_tail h.ample))
  obtain ⟨dstField, v₁, hr₁, he₁, h₁, hdr, hdn⟩ := opField_found h₀ hd
  obtain ⟨srcField, v₂, hr₂, he₂, h₂, hsr, hsn⟩ := opField_found h₁ (fun n hn => by
    rw [he₁.fieldNamed]
    exact hs n hn)
  have hsides : ¬ (dstField = none ∧ srcField = none) := by
    rw [hdn, hsn]
    exact hp.field
  obtain ⟨a, ha⟩ := some_side hsides
  obtain ⟨b, hb⟩ := some_side (fun hc => hsides hc.symm)
  have hside : ∀ {own other : Option Addr} {c : Addr} {t : World}, Refers t own → Refers t other →
      own.or other = some c → ∃ f, t.fields c = some f ∧ f.set = blank := by
    intro own other c t ho ht hc
    cases own with
    | some x => exact ho c hc
    | none => exact ht c hc
  have hdr := hdr.extend he₂
  obtain ⟨f, hf, hfs⟩ := hside hdr hsr ha
  obtain ⟨dst, v₃, hr₃, he₃, h₃⟩ := opState_found s.dstStateName h₂ ha hf hfs
  obtain ⟨g, hg, hgs⟩ := hside (hsr.extend he₃) (hdr.extend he₃) hb
  have hsrc : ∃ r u, (if s.srcStateName ≠ none then opState .lavish srcField dstField s.srcStateName
      else opValue .lavish srcField dstField s.srcValue) v₃ = .ok (some r, u) ∧ Extends v₃ u := by
    split
    · obtain ⟨r, u, hr, he, -⟩ := opState_found s.srcStateName h₃ hb hg hgs
      exact ⟨r, u, hr, he⟩
    · obtain ⟨r, u, hr, he, -⟩ := opValue_parsed s.srcValue h₃ hb hg hgs
      exact ⟨r, u, hr, he⟩
  obtain ⟨src, u, hr₄, he₄⟩ := hsrc
  obtain ⟨f', hf', -⟩ := (he₃.trans he₄).fields.live hf
  obtain ⟨g', hg', -⟩ := he₄.fields.live hg
  exact ⟨_, u, opNew_makes hp (ample_head h.ample) hr₁ hr₂ hr₃ hr₄ ha hb hf' hg'⟩

/-- What is not refused in any state is built in some. -/
theorem op_unnoticed (h : opRefused doc mapping = false) : ∃ w, Reachable .lavish w ∧
    Runs Fault.OfDocument ((Call.op mapping).errors .lavish) w (fun errs _ => errs = 0) := by
  unfold opRefused at h
  cases hargs : opArgs doc mapping ⟨none, none, none, none, none⟩ with
  | none =>
    rw [hargs] at h
    cases h
  | some s =>
    have hp : s.Plausible := by simpa [hargs] using h
    obtain ⟨w, hr, hw, hns⟩ := exists_roomy (s.dstFieldName.toList ++ s.srcFieldName.toList)
    refine ⟨w, hr, ?_⟩
    have hbuilt : Runs Fault.OfDocument (opParseNew .lavish doc mapping) w
        (fun r _ => r.isSome = true) := by
      refine Runs.bind (opWalk_reads trivial) ?_
      intro r v hv
      obtain ⟨⟨log, rfl⟩, hread⟩ := hv
      rw [hargs] at hread
      cases r with
      | die t => cases hread
      | go t =>
        cases hread
        have hlog : Idle w { w with log := log } := { Idle.refl w with next := Nat.le_refl _ }
        have hroomy := hw.extend hlog.extends (hw.toHosts.idle hlog hw.ample)
        obtain ⟨op, u, hnew⟩ := opNew_roomy hroomy hp
          (fun n hn => hns n (by simp [hn])) (fun n hn => hns n (by simp [hn]))
        exact Runs.of_ok hnew rfl
    refine hbuilt.bind ?_
    intro r v hsome
    obtain ⟨op, rfl⟩ := Option.isSome_iff_exists.mp hsome
    rfl

end Operations

section Modes

variable {env : Env} {t : FieldArgs} {a : Addr} {set : FieldSet}

/-- A field that nothing refers to is printed and freed. -/
theorem fieldParseMode_deletes (hn : t.name = some n) (hl : AList.lookup n v.fieldJS = some a)
    (hf : v.fields a = some ⟨n, set, 0⟩) (hm : ∀ fails ∈ v.oom, fails = false) :
    Runs (fun _ => False) (fieldParseMode env .del t) v (fun errs _ => errs = t.errCnt) := by
  have hjs : ∀ {u : World}, u.fieldJS = v.fieldJS →
      jsGet World.fieldJS (some n) u = .ok (some a, u) := by
    intro u hu
    change Except.ok (AList.lookup n u.fieldJS, u) = _
    rw [hu, hl]
  have hemit : fieldEmit a v = .ok (0, { v with
      oom := v.oom.tail
      outlist := v.outlist ++ [.mapping (fieldPairs ⟨n, set, 0⟩)] }) :=
    bind_eq_ok.mpr ⟨_, v, deref_ok.mpr ⟨hf, rfl⟩,
      bind_eq_ok.mpr ⟨true, _, alloc_grants (ample_head hm), rfl⟩⟩
  simp only [fieldParseMode, hn, needText, pure_bind]
  refine Runs.bind_of_ok (hjs rfl) ?_
  refine Runs.bind_of_ok (deref_ok.mpr ⟨hf, rfl⟩) ?_
  rw [if_neg (fun h => h rfl)]
  refine Runs.bind_of_ok hemit ?_
  rw [if_neg (fun h => h rfl)]
  simp only [fieldFreeAt, bind_assoc]
  refine Runs.bind_of_ok (deref_ok.mpr ⟨hf, rfl⟩) ?_
  simp only [fieldFree, ne_eq, not_true_eq_false, if_false, bind_assoc]
  refine Runs.bind_of_ok (hjs rfl) ?_
  rw [if_pos rfl]
  rfl

theorem field_unnoticed (h : fieldRefused mode doc mapping = false) : ∃ w, Reachable .lavish w ∧
    Runs Fault.OfDocument (fieldParse .lavish mode doc mapping) w (fun errs _ => errs = 0) := by
  obtain ⟨⟨⟨hstop, herr⟩, hmode⟩, hadd⟩ : ((walkStops doc fieldStops mapping = false ∧
      (fieldArgs doc mapping ⟨0, some "", 0, 0, 0⟩).errCnt = 0) ∧ mode ≠ .invalid) ∧
      (mode = .add → (fieldArgs doc mapping ⟨0, some "", 0, 0, 0⟩).addable = true) := by
    simpa [fieldRefused] using h
  have hwalk : ∀ {w : World}, (∀ log, Runs Fault.OfDocument (fieldParseMode .lavish mode
      (fieldArgs doc mapping ⟨0, some "", 0, 0, 0⟩)) { w with log := log } (fun errs _ => errs = 0)) →
      Runs Fault.OfDocument (fieldParse .lavish mode doc mapping) w (fun errs _ => errs = 0) := by
    intro w hrest
    refine Runs.bind (fieldWalk_args trivial trivial) ?_
    intro r v hv
    obtain ⟨⟨log, rfl⟩, hread⟩ := hv
    cases r with
    | die s =>
      have hs := hread.1
      rw [hstop] at hs
      cases hs
    | go s =>
      obtain ⟨-, rfl⟩ := hread
      exact hrest log
  generalize fieldArgs doc mapping ⟨0, some "", 0, 0, 0⟩ = s at *
  cases mode with
  | invalid => exact absurd rfl hmode
  | add =>
    refine ⟨_, reachable_start [] [] [], hwalk (fun log => ?_)⟩
    obtain ⟨hname, hset⟩ := Bool.and_eq_true_iff.mp (hadd rfl)
    obtain ⟨n, hn⟩ := Option.isSome_iff_exists.mp hname
    cases hs : fieldSetOf s.offt s.len (if s.mask = 0 then 0xff else s.mask) with
    | error msg =>
      rw [hs] at hset
      cases hset
    | ok set => exact Runs.of_ok (fieldParseMode_adds (fun _ h => (by cases h)) hn rfl rfl hs) herr
  | del =>
    cases hn : s.name with
    | none =>
      refine ⟨_, reachable_start [] [] [], hwalk (fun log => ?_)⟩
      simp only [fieldParseMode, hn, needText]
      trivial
    | some n =>
      have hrun := fieldParse_added (v := World.start [] [] []) (fun _ h => (by cases h))
        (blank_made n) rfl (blankField_shows n)
      have hreach := (reachable_start [] [] []).parsed
        (show subsystemParse .lavish .field .add (blankField n) (blankFieldPairs n) _ = _ from hrun)
      refine ⟨_, hreach, hwalk (fun log => ?_)⟩
      refine Runs.mono (fieldParseMode_deletes (a := 1) hn (AList.lookup_insert _)
        (show _ = some (⟨n, blank, 0⟩ : Field) from rfl) (fun _ h => (by cases h)))
        (fun _ h => h.elim) (fun errs _ he => he.trans herr)
  | prn =>
    refine ⟨_, reachable_start [] [] [], hwalk (fun log => ?_)⟩
    cases hn : s.name with
    | none =>
      simp only [fieldParseMode, hn, needText]
      trivial
    | some n =>
      simp only [fieldParseMode, hn, needText, pure_bind]
      split
      · exact herr
      · exact herr

end Modes

/-- Of a silent call nothing is reported in some state. -/
theorem Call.unnoticed {c : Call doc} (h : c.silent = true) : c.malformed = true ∧
    ∃ w, Reachable .lavish w ∧
      Runs Fault.OfDocument (c.errors .lavish) w (fun errs _ => errs = 0) := by
  have hwrong : c.wrong = true → c.malformed = true :=
    fun hw => List.any_eq_true.mpr ⟨c, self_mem, hw⟩
  cases c with
  | document pairs => cases h
  | op mapping =>
    obtain ⟨hw, hr⟩ := Bool.and_eq_true_iff.mp h
    exact ⟨hwrong hw, op_unnoticed (by simpa using hr)⟩
  | subsystem sub mode mapping =>
    cases sub with
    | iface => cases h
    | rule => cases h
    | process => cases h
    | field =>
      obtain ⟨hw, hr⟩ := Bool.and_eq_true_iff.mp h
      exact ⟨hwrong hw, field_unnoticed (by simpa using hr)⟩

end Xdpacket
