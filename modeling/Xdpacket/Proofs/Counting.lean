import Xdpacket.Proofs.Malformed
import Xdpacket.Proofs.Reading

namespace Xdpacket

variable {w v : World} {env : Env} {doc : Document} {mode : ParseMode} {mapping pairs : Pairs doc}
  {σ : Type}

section Definitions

/-- The pairs that a walk comes to, up to the first that stops it. -/
def visited (doc : Document) (stops : Text → Node doc.size → Bool) :
    Pairs doc → List (Text × Node doc.size)
  | [] => []
  | (k, x) :: pairs =>
    match doc.node k with
    | .scalar key =>
      (key, doc.node x) :: if stops key (doc.node x) then [] else visited doc stops pairs
    | _ => []

/-- The walk comes to a pair of a kind. -/
def walkMeets (doc : Document) (kind stops : Text → Node doc.size → Bool) (pairs : Pairs doc) :
    Bool :=
  (visited doc stops pairs).any (fun p => kind p.1 p.2)

def notScalar (_ : Text) (val : Node n) : Bool := !val.isScalar

def ifaceWrong (doc : Document) (mapping : Pairs doc) : Bool :=
  walkMeets doc notScalar notScalar mapping

def fieldWrong (doc : Document) (mapping : Pairs doc) : Bool :=
  walkMeets doc notScalar fieldStops mapping

/-- A side is a mapping, and what it holds are scalars. -/
def sideWrong (doc : Document) (key : Text) (val : Node doc.size) : Bool :=
  match opSideKeys key, val with
  | some known, .mapping map => walkMeets doc notScalar (fun key _ => !known key) map
  | _, val => !val.isMapping

def opWrong (doc : Document) (mapping : Pairs doc) : Bool :=
  walkMeets doc (sideWrong doc) (opStops doc) mapping

def rulePairWrong (doc : Document) (key : Text) (val : Node doc.size) : Bool :=
  match val with
  | .scalar _ => !namesRule key
  | .sequence items => (opQueueOf key).isNone || items.any (fun item => !(doc.node item).isMapping)
  | .mapping _ => true

def ruleWrong (doc : Document) (mapping : Pairs doc) : Bool :=
  walkMeets doc (rulePairWrong doc) (fun _ val => val.isMapping) mapping

def namesRules (key : Text) : Bool := key = "rules" || key = "r"

def routsWrong (doc : Document) (item : Node doc.size) : Bool :=
  match item with
  | .mapping map => walkMeets doc notScalar (fun _ _ => false) map
  | _ => true

def processPairWrong (doc : Document) (key : Text) (val : Node doc.size) : Bool :=
  match val with
  | .scalar _ => !namesProcess key
  | .sequence items => !namesRules key || items.any (fun item => routsWrong doc (doc.node item))
  | .mapping _ => true

def processWrong (doc : Document) (mapping : Pairs doc) : Bool :=
  walkMeets doc (processPairWrong doc) (fun _ val => val.isMapping) mapping

def subsystemWrong (sub : Subsystem) (doc : Document) (mapping : Pairs doc) : Bool :=
  match sub with
  | .iface => ifaceWrong doc mapping
  | .field => fieldWrong doc mapping
  | .rule => ruleWrong doc mapping
  | .process => processWrong doc mapping

def pairWrong (doc : Document) (k x : Fin doc.size) : Bool :=
  match doc.node k, doc.node x with
  | .scalar keyname, .sequence items =>
    (modeOf keyname).isSome && items.any (fun item => !(doc.node item).isMapping)
  | .scalar _, _ => true
  | _, _ => false

/-- What is handed to a parser. -/
inductive Call (doc : Document) where
  | document (pairs : Pairs doc)
  | subsystem (sub : Subsystem) (mode : ParseMode) (mapping : Pairs doc)
  | op (mapping : Pairs doc)

namespace Call

/-- The errors that a parser reports; to its rule an operation that is not built is one. -/
def errors (env : Env) : Call doc → M Nat
  | .document pairs => parseMapping env doc pairs
  | .subsystem sub mode mapping => subsystemParse env sub mode doc mapping
  | .op mapping => do
    match ← opParseNew env doc mapping with
    | some _ => return 0
    | none => return 1

def shape : Call doc → Bool
  | .document pairs => mappingShape doc pairs
  | .subsystem sub mode mapping => subsystemShape sub mode doc mapping
  | .op mapping => opShape doc mapping

/-- The parser itself comes to a node of a wrong kind. -/
def wrong : Call doc → Bool
  | .document pairs => pairs.any (fun p => pairWrong doc p.1 p.2)
  | .subsystem sub _ mapping => subsystemWrong sub doc mapping
  | .op mapping => opWrong doc mapping

end Call

/-- The operations that a pair of a rule hands on. -/
def pairOps (mode : ParseMode) (doc : Document) (key : Text) (val : Node doc.size) :
    List (Call doc) :=
  match val with
  | .sequence items =>
    if mode = .add ∧ (opQueueOf key).isSome then
      items.filterMap (fun item =>
        match doc.node item with
        | .mapping map => some (.op map)
        | _ => none)
    else []
  | _ => []

/-- What the walk of a subsystem hands on: a rule its operations. -/
def subsystemCalls (sub : Subsystem) (mode : ParseMode) (doc : Document) (mapping : Pairs doc) :
    List (Call doc) :=
  if sub = .rule then
    (visited doc (fun _ val => val.isMapping) mapping).flatMap (fun p => pairOps mode doc p.1 p.2)
  else []

def childCalls (mode : ParseMode) (doc : Document) (child : Node doc.size) : List (Call doc) :=
  match child with
  | .mapping ((k, x) :: pairs) =>
    match (doc.node k).txt.bind subsystemOf with
    | some sub =>
      .subsystem sub mode ((k, x) :: pairs) :: subsystemCalls sub mode doc ((k, x) :: pairs)
    | none => []
  | _ => []

def pairCalls (doc : Document) (k x : Fin doc.size) : List (Call doc) :=
  match (doc.node k).txt.bind modeOf, doc.node x with
  | some mode, .sequence items => items.flatMap (fun item => childCalls mode doc (doc.node item))
  | _, _ => []

/-- A parser and all that it hands on. -/
def Call.calls : Call doc → List (Call doc)
  | .document pairs => .document pairs :: pairs.flatMap (fun p => pairCalls doc p.1 p.2)
  | .subsystem sub mode mapping =>
    .subsystem sub mode mapping :: subsystemCalls sub mode doc mapping
  | .op mapping => [.op mapping]

/-- Somewhere a node of a wrong kind is come to. -/
def Call.malformed (c : Call doc) : Bool := c.calls.any Call.wrong

/-- The name and the numbers are such that a field can be made. -/
def FieldArgs.addable (s : FieldArgs) : Bool :=
  s.name.isSome && (fieldSetOf s.offt s.len (if s.mask = 0 then 0xff else s.mask)).toBool

/-- What `field_parse` refuses in any state. -/
def fieldRefused (mode : ParseMode) (doc : Document) (mapping : Pairs doc) : Bool :=
  let s := fieldArgs doc mapping ⟨0, some "", 0, 0, 0⟩
  walkStops doc fieldStops mapping || s.errCnt ≠ 0 || mode = .invalid || (mode = .add && !s.addable)

/-- What `op_parse_new` refuses in any state. -/
def opRefused (doc : Document) (mapping : Pairs doc) : Bool :=
  (opArgs doc mapping ⟨none, none, none, none, none⟩).all (fun s => !decide s.Plausible)

/-- A node of a wrong kind that nothing makes an error of. -/
def Call.silent : Call doc → Bool
  | .subsystem .field mode mapping => fieldWrong doc mapping && !fieldRefused mode doc mapping
  | .op mapping => opWrong doc mapping && !opRefused doc mapping
  | _ => false

end Definitions

section Nesting

variable {c d e : Call doc}

theorem walkOk_visited {good stops : Text → Node doc.size → Bool}
    (h : walkOk doc good stops pairs = true) : ∀ p ∈ visited doc stops pairs, good p.1 p.2 = true := by
  induction pairs with
  | nil => exact fun p hp => (by cases hp)
  | cons pair pairs ih =>
    obtain ⟨k, x⟩ := pair
    intro p hp
    unfold walkOk at h
    unfold visited at hp
    cases hk : doc.node k with
    | sequence items => simp only [hk] at hp; cases hp
    | mapping items => simp only [hk] at hp; cases hp
    | scalar key =>
      simp only [hk, Bool.and_eq_true, Bool.or_eq_true] at h hp
      rcases List.mem_cons.mp hp with rfl | hp
      · exact h.1
      · split at hp
        · cases hp
        · rename_i hstop
          exact ih (h.2.resolve_left hstop) p hp

theorem subsystemCalls_shape {sub : Subsystem} (h : subsystemShape sub mode doc mapping = true)
    (hd : d ∈ subsystemCalls sub mode doc mapping) : d.shape = true := by
  unfold subsystemCalls at hd
  split at hd
  · rename_i hsub
    subst hsub
    obtain ⟨p, hp, hd⟩ := List.mem_flatMap.mp hd
    have hgood := walkOk_visited h p hp
    unfold pairOps at hd
    split at hd
    · rename_i items hx
      split at hd
      · rename_i hq
        obtain ⟨item, hi, hm⟩ := List.mem_filterMap.mp hd
        have hnone : (opQueueOf p.1).isNone = false := by
          rw [Option.isNone_eq_false_iff]
          exact hq.2
        simp only [ruleGood, hx, hq.1, hnone, ne_eq, not_true_eq_false, decide_false,
          Bool.false_or, List.all_eq_true] at hgood
        have hitem := hgood item hi
        split at hm
        · rename_i map hn
          cases hm
          rw [hn] at hitem
          exact hitem
        · cases hm
      · cases hd
    · cases hd
  · cases hd

theorem childCalls_shape {child : Node doc.size} (h : childShape mode doc child = true)
    (hd : d ∈ childCalls mode doc child) : d.shape = true := by
  unfold childCalls at hd
  split at hd
  · rename_i k x pairs
    split at hd
    · rename_i sub hsub
      obtain ⟨keyval, hk, hsub⟩ := Option.bind_eq_some_iff.mp hsub
      have hkey : doc.node k = .scalar keyval := by
        cases hn : doc.node k <;> rw [hn] at hk <;> cases hk
        rfl
      simp only [childShape, hkey, hsub, Option.all_some] at h
      rcases List.mem_cons.mp hd with rfl | hd
      · exact h
      · exact subsystemCalls_shape h hd
    · cases hd
  · cases hd

/-- Where a parser finds the shape that it takes for granted, so does all that it hands on. -/
theorem Call.shape_calls (h : c.shape = true) (hd : d ∈ c.calls) : d.shape = true := by
  cases c with
  | op mapping =>
    rw [List.mem_singleton.mp hd]
    exact h
  | subsystem sub mode mapping =>
    rcases List.mem_cons.mp hd with rfl | hd
    · exact h
    · exact subsystemCalls_shape h hd
  | document pairs =>
    rcases List.mem_cons.mp hd with rfl | hd
    · exact h
    · obtain ⟨p, hp, hd⟩ := List.mem_flatMap.mp hd
      have hpair := List.all_eq_true.mp h p hp
      unfold pairCalls at hd
      split at hd
      · rename_i mode items hm hx
        obtain ⟨keyname, hk, hm⟩ := Option.bind_eq_some_iff.mp hm
        have hkey : doc.node p.1 = .scalar keyname := by
          cases hn : doc.node p.1 <;> rw [hn] at hk <;> cases hk
          rfl
        obtain ⟨item, hi, hd⟩ := List.mem_flatMap.mp hd
        simp only [pairShape, hkey, hx, hm, Option.all_some, List.all_eq_true] at hpair
        exact childCalls_shape (hpair item hi) hd
      · cases hd

theorem subsystemCalls_op {sub : Subsystem} (hd : d ∈ subsystemCalls sub mode doc mapping) :
    d.calls = [d] := by
  unfold subsystemCalls at hd
  split at hd
  · obtain ⟨p, -, hd⟩ := List.mem_flatMap.mp hd
    unfold pairOps at hd
    split at hd
    · split at hd
      · obtain ⟨item, -, hm⟩ := List.mem_filterMap.mp hd
        split at hm
        · cases hm
          rfl
        · cases hm
      · cases hd
    · cases hd
  · cases hd

theorem childCalls_trans {child : Node doc.size} (hd : d ∈ childCalls mode doc child)
    (he : e ∈ d.calls) : e ∈ childCalls mode doc child := by
  unfold childCalls at hd ⊢
  split at hd
  · split at hd
    · rcases List.mem_cons.mp hd with rfl | hd
      · exact he
      · rw [subsystemCalls_op hd, List.mem_singleton] at he
        exact he ▸ List.mem_cons_of_mem _ hd
    · cases hd
  · cases hd

theorem Call.calls_trans (hd : d ∈ c.calls) (he : e ∈ d.calls) : e ∈ c.calls := by
  cases c with
  | op mapping =>
    rw [List.mem_singleton.mp hd] at he
    exact he
  | subsystem sub mode mapping =>
    rcases List.mem_cons.mp hd with rfl | hd
    · exact he
    · rw [subsystemCalls_op hd, List.mem_singleton] at he
      exact he ▸ List.mem_cons_of_mem _ hd
  | document pairs =>
    rcases List.mem_cons.mp hd with rfl | hd
    · exact he
    · obtain ⟨p, hp, hd⟩ := List.mem_flatMap.mp hd
      refine List.mem_cons_of_mem _ (List.mem_flatMap.mpr ⟨p, hp, ?_⟩)
      unfold pairCalls at hd ⊢
      split at hd
      · obtain ⟨item, hi, hd⟩ := List.mem_flatMap.mp hd
        exact List.mem_flatMap.mpr ⟨item, hi, childCalls_trans hd he⟩
      · cases hd

end Nesting

/-- From whatever state, the program reports an error. -/
def Counts (m : M Nat) : Prop := ∀ w, Runs (fun _ => True) m w (fun errs _ => errs ≠ 0)

section Walks

/-- A turn keeps its errors, has one more for a bad pair, and ends the walk only where it is
to be stopped. -/
def Marks (errs : σ → Nat) (bad : Prop) (stops : Bool) (s : σ) (r : Step σ) : Prop :=
  errs s ≤ errs r.state ∧ (bad → errs s < errs r.state) ∧ (r.isDie = true → stops = true)

variable {errs : σ → Nat} {stops : Text → Node doc.size → Bool}

/-- What the turns of a walk do, the walk does. -/
theorem yForMap_marks {bad : Text → Node doc.size → Prop}
    {statements : Text → Node doc.size → σ → M (Step σ)}
    (hturn : ∀ key val s w, Runs (fun _ => True) (statements key val s) w (fun r _ =>
      Marks errs (bad key val) (stops key val) s r)) {s : σ} :
    Runs (fun _ => True) (yForMap doc statements pairs s) w (fun r _ =>
      Marks errs (∃ p ∈ visited doc stops pairs, bad p.1 p.2) (walkMeets doc stops stops pairs) s r) := by
  induction pairs generalizing s w with
  | nil => exact ⟨Nat.le_refl _, fun ⟨p, hp, _⟩ => (by cases hp), fun h => (by cases h)⟩
  | cons pair pairs ih =>
    obtain ⟨k, x⟩ := pair
    refine yForMap_turn trivial ?_
    intro key hk
    have hvisit : visited doc stops ((k, x) :: pairs) =
        (key, doc.node x) :: if stops key (doc.node x) then [] else visited doc stops pairs := by
      simp only [visited, hk]
    unfold walkMeets
    rw [hvisit]
    refine (hturn key (doc.node x) s w).imp ?_
    intro r v hr
    obtain ⟨hle, hlt, hdie⟩ := hr
    cases r with
    | die t =>
      have hstop := hdie rfl
      rw [if_pos hstop]
      refine ⟨hle, fun ⟨p, hp, hbad⟩ => ?_, fun _ => by rw [List.any_cons, hstop, Bool.true_or]⟩
      rw [List.mem_singleton] at hp
      subst hp
      exact hlt hbad
    | go t =>
      refine ih.imp ?_
      intro r u hu
      obtain ⟨hle', hlt', hdie'⟩ := hu
      refine ⟨Nat.le_trans hle hle', fun ⟨p, hp, hbad⟩ => ?_, fun h => ?_⟩
      · rcases List.mem_cons.mp hp with rfl | hp
        · exact Nat.lt_of_lt_of_le (hlt hbad) hle'
        · split at hp
          · cases hp
          · exact Nat.lt_of_le_of_lt hle (hlt' ⟨p, hp, hbad⟩)
      · cases hstop : stops key (doc.node x) with
        | true => rw [List.any_cons, hstop, Bool.true_or]
        | false =>
          rw [List.any_cons, hstop, Bool.false_or]
          exact hdie' h

/-- So does that of a list, whose turns never stop it. -/
theorem yForSeq_marks {bad : Node doc.size → Prop} {statements : Node doc.size → σ → M (Step σ)}
    (hturn : ∀ item s w, Runs (fun _ => True) (statements item s) w (fun r _ =>
      Marks errs (bad item) false s r)) {items : List (Fin doc.size)} {s : σ} :
    Runs (fun _ => True) (yForSeq doc statements items s) w (fun r _ =>
      Marks errs (∃ item ∈ items, bad (doc.node item)) false s r) := by
  induction items generalizing s w with
  | nil =>
    refine ⟨Nat.le_refl _, ?_, fun h => (by cases h)⟩
    rintro ⟨item, hi, -⟩
    cases hi
  | cons item items ih =>
    unfold yForSeq
    refine (hturn (doc.node item) s w).bind ?_
    intro r v hr
    obtain ⟨hle, hlt, hdie⟩ := hr
    cases r with
    | die t => cases hdie rfl
    | go t =>
      refine ih.imp ?_
      intro r u hu
      obtain ⟨hle', hlt', hdie'⟩ := hu
      refine ⟨Nat.le_trans hle hle', ?_, hdie'⟩
      rintro ⟨i, hi, hbad⟩
      rcases List.mem_cons.mp hi with rfl | hi
      · exact Nat.lt_of_lt_of_le (hlt hbad) hle'
      · exact Nat.lt_of_le_of_lt hle (hlt' ⟨i, hi, hbad⟩)

/-- The message of a mistake that is counted. -/
theorem marks_counted {bad : Prop} {stop : Bool} {msg : Text} {s : σ} {r : Step σ}
    (hr : errs s < errs r.state) (hstop : r.isDie = true → stop = true) :
    Runs (fun _ => True) (nbErr msg >>= fun _ => pure r : M (Step σ)) w (fun r _ =>
      Marks errs bad stop s r) :=
  ⟨Nat.le_of_lt hr, fun _ => hr, hstop⟩

end Walks

section Modes

/-- However the program ends, it reports `errCnt` errors or more. -/
class Reports (errCnt : Nat) (m : M Nat) : Prop where
  runs : ∀ w, Runs (fun _ => True) m w (fun n _ => errCnt ≤ n)

namespace Reports

variable {errCnt : Nat} {α : Type} {m m' : M Nat} {call : M α} {k : α → M Nat}

theorem step (h : ∀ a, Reports errCnt (k a)) : Reports errCnt (call >>= k) :=
  ⟨fun _ => Runs.any.bind (fun a v _ => (h a).runs v)⟩

instance bind [h : ∀ a, Reports errCnt (k a)] : Reports errCnt (call >>= k) := step h

instance pure : Reports errCnt (Pure.pure errCnt) := ⟨fun _ => Nat.le_refl _⟩

instance ite {c : Prop} [Decidable c] [h : Reports errCnt m] [h' : Reports errCnt m'] :
    Reports errCnt (if c then m else m') := by
  split
  · exact h
  · exact h'

instance parseDie {msg : Text} : Reports errCnt (parseDie errCnt msg) := ⟨fun _ => Nat.le_succ _⟩

instance parseEmit : Reports errCnt (parseEmit errCnt m) := by
  unfold Xdpacket.parseEmit
  infer_instance

/-- Errors of the walk are reported, whatever comes of the rest. -/
instance ifaceParseMode {s : IfaceArgs} : Reports s.errCnt (ifaceParseMode env mode s) := by
  unfold Xdpacket.ifaceParseMode
  cases mode with
  | invalid => exact parseDie
  | add | del =>
    refine step (fun r => ?_)
    cases r <;> infer_instance
  | prn =>
    dsimp only
    split
    · infer_instance
    · refine step (fun r => ?_)
      cases r <;> infer_instance

instance fieldParseMode {s : FieldArgs} : Reports s.errCnt (fieldParseMode env mode s) := by
  unfold Xdpacket.fieldParseMode
  cases mode with
  | invalid => exact parseDie
  | add =>
    refine step (fun r => ?_)
    cases r <;> infer_instance
  | del =>
    refine step (fun name => step (fun r => ?_))
    cases r <;> infer_instance
  | prn =>
    refine step (fun name => ?_)
    split
    · infer_instance
    · refine step (fun r => ?_)
      cases r <;> infer_instance

instance ruleParseMode {s : RuleArgs} : Reports s.errCnt (ruleParseMode env mode s) := by
  unfold Xdpacket.ruleParseMode
  cases mode with
  | invalid => exact parseDie
  | add | del =>
    refine step (fun r => ?_)
    cases r <;> infer_instance
  | prn =>
    dsimp only
    split
    · infer_instance
    · refine step (fun r => ?_)
      cases r <;> infer_instance

instance processParseMode {s : ProcessArgs} : Reports s.errCnt (processParseMode mode s) := by
  unfold Xdpacket.processParseMode
  cases mode with
  | invalid => exact parseDie
  | add | del =>
    refine step (fun r => ?_)
    cases r <;> infer_instance
  | prn =>
    dsimp only
    split
    · infer_instance
    · refine step (fun r => ?_)
      cases r <;> infer_instance

end Reports

end Modes

section Parsers

theorem Reports.counts {errCnt : Nat} {m : M Nat} (h : Reports errCnt m) (he : 0 < errCnt) :
    Counts m :=
  fun w => (h.runs w).imp (fun _ _ hn => Nat.ne_of_gt (Nat.lt_of_lt_of_le he hn))

/-- The errors of a walk that comes to a bad pair, where what follows keeps them. -/
theorem walk_counts {errs : σ → Nat} {stops : Text → Node doc.size → Bool}
    {bad : Text → Node doc.size → Prop} {statements : Text → Node doc.size → σ → M (Step σ)}
    {s : σ} {k : Step σ → M Nat}
    (hturn : ∀ key val s w, Runs (fun _ => True) (statements key val s) w (fun r _ =>
      Marks errs (bad key val) (stops key val) s r))
    (hdie : ∀ t, Reports (errs t) (k (.die t))) (hgo : ∀ t, Reports (errs t) (k (.go t)))
    (h : ∃ p ∈ visited doc stops mapping, bad p.1 p.2) :
    Counts (yForMap doc statements mapping s >>= k) := by
  intro w
  refine (yForMap_marks hturn).bind ?_
  intro r v hr
  have herr := Nat.lt_of_le_of_lt (Nat.zero_le _) (hr.2.1 h)
  cases r with
  | die t => exact (hdie t).counts herr v
  | go t => exact (hgo t).counts herr v

theorem ifaceParseKey_marks (key : Text) (val : Node doc.size) (s : IfaceArgs) (w : World) :
    Runs (fun _ => True) (ifaceParseKey key val s) w (fun r _ =>
      Marks IfaceArgs.errCnt (notScalar key val = true ∨ namesIface key = false)
        (notScalar key val) s r) := by
  unfold ifaceParseKey
  cases val with
  | scalar txt =>
    dsimp only
    split
    · rename_i hk
      have hname : namesIface key = true := by simpa [namesIface] using hk
      refine ⟨Nat.le_refl _, fun h => ?_, fun h => (by cases h)⟩
      rcases h with h | h
      · cases h
      · rw [hname] at h
        cases h
    · exact marks_counted (Nat.lt_succ_self _) (fun h => (by cases h))
  | sequence items => exact marks_counted (Nat.lt_succ_self _) (fun _ => rfl)
  | mapping pairs => exact marks_counted (Nat.lt_succ_self _) (fun _ => rfl)

theorem ifaceParse_counts
    (h : ∃ p ∈ visited doc notScalar mapping, notScalar p.1 p.2 = true ∨ namesIface p.1 = false) :
    Counts (ifaceParse env mode doc mapping) :=
  walk_counts ifaceParseKey_marks (fun _ => Reports.pure) (fun _ => Reports.ifaceParseMode) h

theorem fieldNew_refuses {name : Option Text} {offt len mask : Int}
    (h : ∀ set, fieldSetOf offt len (if mask = 0 then 0xff else mask) ≠ .ok set) :
    Runs (fun _ => True) (fieldNew env name offt len mask) w (fun r _ => r = none) := by
  have hnone : ∀ {m : M PUnit} {v : World}, Runs (fun _ => True)
      (m >>= fun _ => pure none : M (Option Addr)) v (fun r _ => r = none) :=
    Runs.any.bind (fun _ _ _ => rfl)
  unfold fieldNew
  refine Runs.any.bind ?_
  intro u v _
  cases name with
  | none => exact hnone
  | some n =>
    dsimp only
    split
    · exact hnone
    refine Runs.any.bind ?_
    intro ret v _
    cases ret with
    | none => exact hnone
    | some ret =>
      refine Runs.any.bind ?_
      intro copied v _
      cases copied with
      | null | inval | truncated copy => exact Runs.any.bind (fun _ _ _ => hnone)
      | copy =>
        cases hs : fieldSetOf offt len (if mask = 0 then 0xff else mask) with
        | error msg =>
          exact Runs.any.bind (fun _ _ _ => hnone)
        | ok set => exact absurd hs (h set)

theorem fieldParseMode_counts {s : FieldArgs}
    (h : s.errCnt ≠ 0 ∨ mode = .invalid ∨ mode = .add ∧ s.addable = false) :
    Counts (fieldParseMode env mode s) := by
  intro w
  rcases h with h | rfl | ⟨rfl, h⟩
  · exact Reports.fieldParseMode.counts (Nat.pos_of_ne_zero h) w
  · exact Nat.succ_ne_zero _
  · have hnone : Runs (fun _ => True) (fieldNew env s.name s.offt s.len s.mask) w
        (fun r _ => r = none) := by
      cases hn : s.name with
      | none => exact Runs.any.bind (fun _ _ _ => rfl)
      | some name =>
        refine fieldNew_refuses (fun set hs => ?_)
        unfold FieldArgs.addable at h
        rw [hn, hs] at h
        cases h
    refine hnone.bind ?_
    intro r v hr
    subst hr
    exact Nat.succ_ne_zero _

theorem fieldParse_counts (h : fieldRefused mode doc mapping = true) :
    Counts (fieldParse env mode doc mapping) := by
  intro w
  refine Runs.bind (fieldWalk_args trivial trivial) ?_
  intro r v hr
  cases r with
  | die t =>
    obtain ⟨-, -, ht⟩ := hr
    exact ht
  | go t =>
    obtain ⟨-, hstop, rfl⟩ := hr
    refine fieldParseMode_counts ?_ v
    simp only [fieldRefused, hstop, Bool.false_or, Bool.or_eq_true, decide_eq_true_eq,
      Bool.and_eq_true, Bool.not_eq_true'] at h
    tauto

/-- `op_new` makes nothing of texts that do not pass its checks. -/
theorem opNew_plausible {s : OpArgs} :
    Runs (fun _ => True) (opNew env s.dstFieldName s.dstStateName s.srcFieldName s.srcStateName
      s.srcValue) w (fun r _ => r.isSome → s.Plausible) := by
  have hsay : ∀ {msg : Text}, Runs (fun _ => True) (nbErr msg >>= fun _ => pure none : M (Option Op))
      w (fun r _ => r.isSome → s.Plausible) :=
    Runs.any.bind (fun _ _ _ h => by cases h)
  unfold opNew
  split
  · exact hsay
  rename_i hfield
  split
  · exact hsay
  rename_i hdst
  split
  · exact hsay
  rename_i hsrc
  split
  · exact hsay
  rename_i hone
  exact Runs.any.imp (fun _ _ _ _ => ⟨hfield, hdst, hsrc, hone⟩)

theorem opParseNew_refuses (h : opRefused doc mapping = true) :
    Runs (fun _ => True) (opParseNew env doc mapping) w (fun r _ => r = none) := by
  refine Runs.bind (opWalk_reads trivial) ?_
  intro r v hr
  cases r with
  | die s => rfl
  | go s =>
    obtain ⟨-, hargs⟩ := hr
    have hs : ¬ s.Plausible := by simpa [opRefused, ← hargs, Step.go?] using h
    refine opNew_plausible.imp ?_
    intro r u hp
    cases r with
    | none => rfl
    | some op => exact absurd (hp rfl) hs

/-- An operation that always counts is never built. -/
theorem opCounts_iff : Counts ((Call.op mapping).errors env) ↔
    ∀ w, Runs (fun _ => True) (opParseNew env doc mapping) w (fun r _ => r = none) := by
  refine forall_congr' (fun w => ?_)
  unfold Call.errors
  rw [Runs.bind_iff]
  constructor
  · intro h
    refine h.imp ?_
    intro r v hr
    cases r with
    | none => rfl
    | some op => exact absurd rfl hr
  · intro h
    refine h.imp ?_
    intro r v hr
    subst hr
    exact Nat.one_ne_zero

theorem ruleParseItem_marks (item : Node doc.size) (s : Nat × List Op) (w : World) :
    Runs (fun _ => True) (ruleParseItem env doc item s) w (fun r _ =>
      Marks Prod.fst (∀ map, item = .mapping map → Counts ((Call.op map).errors env)) false s r) := by
  unfold ruleParseItem
  cases item with
  | scalar txt => exact marks_counted (Nat.lt_succ_self _) (fun h => (by cases h))
  | sequence items => exact marks_counted (Nat.lt_succ_self _) (fun h => (by cases h))
  | mapping map =>
    by_cases hc : Counts ((Call.op map).errors env)
    · refine (opCounts_iff.mp hc w).bind ?_
      intro r v hr
      subst hr
      exact marks_counted (Nat.lt_succ_self _) (fun h => (by cases h))
    · refine Runs.any.bind ?_
      intro r v _
      cases r with
      | none => exact marks_counted (Nat.lt_succ_self _) (fun h => (by cases h))
      | some op => exact ⟨Nat.le_refl _, fun h => absurd (h map rfl) hc, fun h => (by cases h)⟩

/-- What an error is made of in a pair of a rule. -/
def RulePairBad (env : Env) (mode : ParseMode) (doc : Document) (key : Text) (val : Node doc.size) :
    Prop :=
  rulePairWrong doc key val = true ∨ ∃ d ∈ pairOps mode doc key val, Counts (d.errors env)

theorem RulePairBad.item {key : Text} {items : List (Fin doc.size)} {q : OpQueue}
    (h : RulePairBad env mode doc key (.sequence items)) (hq : opQueueOf key = some q) :
    ∃ item ∈ items, ∀ map, doc.node item = .mapping map → Counts ((Call.op map).errors env) := by
  rcases h with h | ⟨d, hd, hc⟩
  · simp only [rulePairWrong, hq, Option.isNone_some, Bool.false_or, List.any_eq_true] at h
    obtain ⟨item, hi, hm⟩ := h
    refine ⟨item, hi, fun map hmap => ?_⟩
    rw [hmap] at hm
    cases hm
  · unfold pairOps at hd
    dsimp only at hd
    split at hd
    · obtain ⟨item, hi, hm⟩ := List.mem_filterMap.mp hd
      refine ⟨item, hi, fun map hmap => ?_⟩
      rw [hmap] at hm
      cases hm
      exact hc
    · cases hd

theorem ruleParseKey_marks (key : Text) (val : Node doc.size) (s : RuleArgs) (w : World) :
    Runs (fun _ => True) (ruleParseKey env mode doc key val s) w (fun r _ =>
      Marks RuleArgs.errCnt (RulePairBad env mode doc key val) val.isMapping s r) := by
  have hsay : ∀ {msg : Text} {bad : Prop}, Runs (fun _ => True)
      (nbErr msg >>= fun _ => pure (.go { s with errCnt := s.errCnt + 1 }) : M (Step RuleArgs)) w
      (fun r _ => Marks RuleArgs.errCnt bad val.isMapping s r) :=
    marks_counted (Nat.lt_succ_self _) (fun h => (by cases h))
  unfold ruleParseKey
  cases val with
  | scalar txt =>
    dsimp only
    split
    · rename_i hk
      refine ⟨Nat.le_refl _, fun h => ?_, fun h => (by cases h)⟩
      rcases h with h | ⟨d, hd, -⟩
      · have hname : namesRule key = true := by simpa [namesRule] using hk
        rw [rulePairWrong, hname] at h
        cases h
      · cases hd
    · exact hsay
  | mapping pairs => exact marks_counted (Nat.lt_succ_self _) (fun _ => rfl)
  | sequence items =>
    have hlist : ∀ {q : OpQueue} {queue : List Op} (put : Nat × List Op → RuleArgs),
        opQueueOf key = some q → (∀ t, (put t).errCnt = t.1) →
        Runs (fun _ => True) (yForSeq doc (ruleParseItem env doc) items (s.errCnt, queue) >>= fun r =>
          pure (.go (put r.state)) : M (Step RuleArgs)) w (fun r _ =>
            Marks RuleArgs.errCnt (RulePairBad env mode doc key (.sequence items)) false s r) := by
      intro q queue put hq hput
      refine (yForSeq_marks ruleParseItem_marks).bind ?_
      intro r v hr
      refine ⟨?_, fun h => ?_, fun h => (by cases h)⟩
      · change s.errCnt ≤ (put r.state).errCnt
        rw [hput]
        exact hr.1
      · change s.errCnt < (put r.state).errCnt
        rw [hput]
        exact hr.2.1 (h.item hq)
    dsimp only
    split
    · exact hsay
    split
    · rename_i hm
      exact hlist (fun t => { s with errCnt := t.1, matchJQ := t.2 })
        (show opQueueOf key = some .matchJQ from if_pos hm) (fun _ => rfl)
    rename_i hm
    split
    · rename_i hw
      exact hlist (fun t => { s with errCnt := t.1, writeJQ := t.2 })
        (show opQueueOf key = some .writeJQ by rw [opQueueOf, if_neg hm, if_pos hw]) (fun _ => rfl)
    · exact hsay

theorem ruleParse_counts
    (h : ∃ p ∈ visited doc (fun _ val => val.isMapping) mapping, RulePairBad env mode doc p.1 p.2) :
    Counts (ruleParse env mode doc mapping) :=
  walk_counts ruleParseKey_marks (fun _ => Reports.pure) (fun _ => Reports.ruleParseMode) h

theorem processParsePair_marks (key : Text) (val : Node doc.size) (s : Nat × List Rout) (w : World) :
    Runs (fun _ => True) (processParsePair key val s) w (fun r _ =>
      Marks Prod.fst (notScalar key val = true) false s r) := by
  have hrefuse : ∀ {bad : Prop} {v : World}, Runs (fun _ => True)
      (nbErr "" >>= fun _ => pure (.go (s.1 + 1, s.2)) : M (Step (Nat × List Rout))) v
      (fun r _ => Marks Prod.fst bad false s r) :=
    marks_counted (Nat.lt_succ_self _) (fun h => (by cases h))
  unfold processParsePair
  cases val with
  | scalar txt =>
    refine Runs.any.bind ?_
    intro r v _
    cases r with
    | none => exact hrefuse
    | some rt => exact ⟨Nat.le_refl _, fun h => (by cases h), fun h => (by cases h)⟩
  | sequence items => exact hrefuse (v := { w with log := w.log ++ ["rout requires 'out_name'"] })
  | mapping pairs => exact hrefuse (v := { w with log := w.log ++ ["rout requires 'out_name'"] })

theorem processParseItem_marks (item : Node doc.size) (s : Nat × List Rout) (w : World) :
    Runs (fun _ => True) (processParseItem doc item s) w (fun r _ =>
      Marks Prod.fst (routsWrong doc item = true) false s r) := by
  unfold processParseItem
  cases item with
  | scalar txt => exact marks_counted (Nat.lt_succ_self _) (fun h => (by cases h))
  | sequence items => exact marks_counted (Nat.lt_succ_self _) (fun h => (by cases h))
  | mapping map =>
    refine (yForMap_marks processParsePair_marks).imp ?_
    intro r v hr
    refine ⟨hr.1, fun h => hr.2.1 (List.any_eq_true.mp h), fun h => ?_⟩
    have hstop := hr.2.2 h
    simp [walkMeets] at hstop

theorem processParseKey_marks (key : Text) (val : Node doc.size) (s : ProcessArgs) (w : World) :
    Runs (fun _ => True) (processParseKey doc key val s) w (fun r _ =>
      Marks ProcessArgs.errCnt (processPairWrong doc key val = true) val.isMapping s r) := by
  have hsay : ∀ {msg : Text} {bad : Prop}, Runs (fun _ => True)
      (nbErr msg >>= fun _ => pure (.go { s with errCnt := s.errCnt + 1 }) : M (Step ProcessArgs)) w
      (fun r _ => Marks ProcessArgs.errCnt bad val.isMapping s r) :=
    marks_counted (Nat.lt_succ_self _) (fun h => (by cases h))
  unfold processParseKey
  cases val with
  | scalar txt =>
    dsimp only
    split
    · rename_i hk
      refine ⟨Nat.le_refl _, fun h => ?_, fun h => (by cases h)⟩
      have hname : namesProcess key = true := by simpa [namesProcess] using hk
      rw [processPairWrong, hname] at h
      cases h
    · exact hsay
  | mapping pairs => exact marks_counted (Nat.lt_succ_self _) (fun _ => rfl)
  | sequence items =>
    dsimp only
    split
    · rename_i hk
      have hrules : namesRules key = true := by simpa [namesRules] using hk
      refine (yForSeq_marks processParseItem_marks).bind ?_
      intro r v hr
      refine ⟨hr.1, fun h => hr.2.1 ?_, fun h => (by cases h)⟩
      rw [processPairWrong, hrules, Bool.not_true, Bool.false_or] at h
      exact List.any_eq_true.mp h
    · exact hsay

theorem processParse_counts (h : processWrong doc mapping = true) :
    Counts (processParse mode doc mapping) :=
  walk_counts processParseKey_marks (fun _ => Reports.pure) (fun _ => Reports.processParseMode)
    (List.any_eq_true.mp h)

end Parsers

section Documents

/-- What a parser hands on and always makes an error of is an error of its own. -/
theorem subsystemParse_passes {sub : Subsystem} {d : Call doc}
    (hd : d ∈ subsystemCalls sub mode doc mapping) (h : Counts (d.errors env)) :
    Counts (subsystemParse env sub mode doc mapping) := by
  unfold subsystemCalls at hd
  split at hd
  · rename_i hsub
    subst hsub
    obtain ⟨p, hp, hd⟩ := List.mem_flatMap.mp hd
    exact ruleParse_counts ⟨p, hp, .inr ⟨d, hd, h⟩⟩
  · cases hd

theorem parseChild_passes {child : Node doc.size} {d : Call doc}
    (hd : d ∈ childCalls mode doc child) (h : Counts (d.errors env)) :
    Counts (parseChild env mode doc child) := by
  unfold childCalls at hd
  cases child with
  | scalar txt => cases hd
  | sequence items => cases hd
  | mapping map =>
    cases map with
    | nil => cases hd
    | cons pair pairs =>
      obtain ⟨k, x⟩ := pair
      unfold parseChild
      dsimp only
      cases hk : doc.node k with
      | sequence items => exact fun _ => trivial
      | mapping items => exact fun _ => trivial
      | scalar keyval =>
        simp only [hk, Node.txt, Option.bind_some, scalarValue, pure_bind] at hd ⊢
        cases hsub : subsystemOf keyval with
        | none =>
          rw [hsub] at hd
          cases hd
        | some sub =>
          rw [hsub] at hd
          rcases List.mem_cons.mp hd with rfl | hd
          · exact h
          · exact subsystemParse_passes hd h

theorem parseChildren_le {items : List (Fin doc.size)} {errCnt : Nat} :
    Runs (fun _ => True) (parseChildren env mode doc items errCnt) w (fun n _ => errCnt ≤ n) := by
  induction items generalizing errCnt w with
  | nil => exact Nat.le_refl _
  | cons item items ih =>
    exact Runs.any.bind (fun errs v _ => ih.imp (fun n _ hn => Nat.le_trans (Nat.le_add_right _ _) hn))

theorem parseChildren_counts {items : List (Fin doc.size)} {errCnt : Nat}
    (h : ∃ item ∈ items, Counts (parseChild env mode doc (doc.node item))) :
    Counts (parseChildren env mode doc items errCnt) := by
  obtain ⟨item, hi, hc⟩ := h
  induction items generalizing errCnt with
  | nil => cases hi
  | cons other items ih =>
    intro w
    rcases List.mem_cons.mp hi with rfl | hi
    · refine (hc w).bind ?_
      intro errs v he
      exact parseChildren_le.imp (fun n _ hn => by omega)
    · exact Runs.any.bind (fun errs v _ => ih hi v)

theorem parsePair_counts {k x : Fin doc.size}
    (h : pairWrong doc k x = true ∨ ∃ d ∈ pairCalls doc k x, Counts (d.errors env)) :
    Counts (parsePair env doc k x) := by
  intro w
  unfold parsePair
  cases hk : doc.node k with
  | sequence items => trivial
  | mapping items => trivial
  | scalar keyname =>
    simp only [scalarValue, pure_bind]
    cases hx : doc.node x with
    | scalar txt => exact Nat.one_ne_zero
    | mapping items => exact Nat.one_ne_zero
    | sequence items =>
      dsimp only
      cases hm : modeOf keyname with
      | none => exact Nat.one_ne_zero
      | some mode =>
        have hchild : ∃ item ∈ items, Counts (parseChild env mode doc (doc.node item)) := by
          rcases h with h | ⟨d, hd, hc⟩
          · simp only [pairWrong, hk, hx, hm, Option.isSome_some, Bool.true_and,
              List.any_eq_true] at h
            obtain ⟨item, hi, hmap⟩ := h
            refine ⟨item, hi, fun w => ?_⟩
            cases hn : doc.node item with
            | scalar txt => exact Nat.one_ne_zero
            | sequence items => exact Nat.one_ne_zero
            | mapping map =>
              rw [hn] at hmap
              cases hmap
          · simp only [pairCalls, hk, hx, hm, Node.txt, Option.bind_some] at hd
            obtain ⟨item, hi, hd⟩ := List.mem_flatMap.mp hd
            exact ⟨item, hi, parseChild_passes hd hc⟩
        have hlist : ∀ {errs : Nat}, Counts (do
            let errs ← parseChildren env mode doc items errs
            if ← alloc then
              modify fun w => { w with outroot := w.outroot ++ [(keyname, .sequence w.outlist)] }
              return errs
            else nbErr ""; return errs + 1) := by
          intro errs w
          refine (parseChildren_counts hchild w).bind ?_
          intro errs v he
          refine Runs.any.bind ?_
          intro ok v _
          cases ok with
          | true => exact he
          | false => exact Nat.succ_ne_zero _
        refine Runs.any.bind ?_
        intro _ v _
        split
        · exact Runs.any.bind (fun errs v _ => hlist v)
        · exact hlist v

theorem parseMapping_counts
    (h : ∃ p ∈ pairs, Counts (parsePair env doc p.1 p.2)) : Counts (parseMapping env doc pairs) := by
  obtain ⟨p, hp, hc⟩ := h
  induction pairs with
  | nil => cases hp
  | cons other pairs ih =>
    intro w
    rcases List.mem_cons.mp hp with rfl | hp
    · refine (hc w).bind ?_
      intro errs v he
      exact Runs.any.bind (fun rest _ _ hr => he (Nat.add_eq_zero_iff.mp hr).1)
    · refine Runs.any.bind (fun errs v _ => (ih hp v).bind ?_)
      intro rest _ he hr
      exact he (Nat.add_eq_zero_iff.mp hr).2

namespace Call

variable {c d : Call doc}

theorem self_mem : c ∈ c.calls := by
  cases c <;> exact List.mem_cons_self

/-- What is handed on and always makes an error is an error of the parser that hands it on. -/
theorem passes (hd : d ∈ c.calls) (h : Counts (d.errors env)) : Counts (c.errors env) := by
  cases c with
  | document pairs =>
    rcases List.mem_cons.mp hd with rfl | hd
    · exact h
    · obtain ⟨p, hp, hd⟩ := List.mem_flatMap.mp hd
      exact parseMapping_counts ⟨p, hp, parsePair_counts (.inr ⟨d, hd, h⟩)⟩
  | subsystem sub mode mapping =>
    rcases List.mem_cons.mp hd with rfl | hd
    · exact h
    · exact subsystemParse_passes hd h
  | op mapping =>
    rw [List.mem_singleton.mp hd] at h
    exact h

/-- A parser makes an error of each node of a wrong kind that it comes to, but for the silent
ones. -/
theorem counts_wrong (hw : c.wrong = true) (hs : c.silent = false) : Counts (c.errors env) := by
  cases c with
  | document pairs =>
    obtain ⟨p, hp, hw⟩ := List.any_eq_true.mp hw
    exact parseMapping_counts ⟨p, hp, parsePair_counts (.inl hw)⟩
  | op mapping =>
    have hw : opWrong doc mapping = true := hw
    rw [silent, hw, Bool.true_and, Bool.not_eq_false'] at hs
    exact opCounts_iff.mpr (fun w => opParseNew_refuses hs)
  | subsystem sub mode mapping =>
    cases sub with
    | iface =>
      obtain ⟨p, hp, hw⟩ := List.any_eq_true.mp hw
      exact ifaceParse_counts ⟨p, hp, .inl hw⟩
    | rule =>
      obtain ⟨p, hp, hw⟩ := List.any_eq_true.mp hw
      exact ruleParse_counts ⟨p, hp, .inl hw⟩
    | process => exact processParse_counts hw
    | field =>
      have hw : fieldWrong doc mapping = true := hw
      rw [silent, hw, Bool.true_and, Bool.not_eq_false'] at hs
      exact fieldParse_counts hs

theorem counts_malformed (hm : c.malformed = true) (hs : ∀ d ∈ c.calls, d.silent = false) :
    Counts (c.errors env) := by
  obtain ⟨d, hd, hw⟩ := List.any_eq_true.mp hm
  exact passes hd (counts_wrong hw (hs d hd))

end Call

end Documents

end Xdpacket
