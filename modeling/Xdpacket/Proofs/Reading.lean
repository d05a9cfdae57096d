import Xdpacket.Proofs.Consistent
import Xdpacket.Proofs.Shapes

namespace Xdpacket

variable {w v : World} {doc : Document} {mapping pairs : Pairs doc} {σ : Type} {m : Nat}
  {E : Fault → Prop}

/-- Only messages have been added. -/
def Logged (w v : World) : Prop := ∃ log, v = { w with log := log }

theorem Logged.refl (w : World) : Logged w w := ⟨w.log, rfl⟩

theorem Logged.trans {u : World} (h : Logged w v) (h' : Logged v u) : Logged w u := by
  obtain ⟨log, rfl⟩ := h
  obtain ⟨log', rfl⟩ := h'
  exact ⟨log', rfl⟩

theorem Logged.say (w : World) (msg : Text) : Logged w { w with log := w.log ++ [msg] } :=
  ⟨_, rfl⟩

theorem Logged.idle (h : Logged w v) : Idle w v := by
  obtain ⟨log, rfl⟩ := h
  exact { Idle.refl w with next := Nat.le_refl _ }

section Texts

/-- The text of the last of the keys of a kind; what there was before, if there is none. -/
def lastText (doc : Document) (kind : Text → Bool) (init : Option Text) (pairs : Pairs doc) :
    Option Text :=
  pairs.foldl (fun txt pair => if (doc.node pair.1).txt.any kind then (doc.node pair.2).txt else txt)
    init

def Node.inside : Node m → List (Fin m × Fin m)
  | .mapping pairs => pairs
  | _ => []

/-- What the mappings under the keys of a kind hold, one after the other. -/
def under (doc : Document) (kind : Text → Bool) (pairs : Pairs doc) : Pairs doc :=
  pairs.flatMap (fun pair =>
    if (doc.node pair.1).txt.any kind then (doc.node pair.2).inside else [])

/-- Every key is of a kind. -/
def keysOf (doc : Document) (kind : Text → Bool) (pairs : Pairs doc) : Bool :=
  pairs.all (fun pair => (doc.node pair.1).txt.any kind)

/-- The number of the last of the keys of a kind. -/
def lastNumber (doc : Document) (kind : Text → Bool) (init : Int) (pairs : Pairs doc) : Int :=
  pairs.foldl (fun n pair =>
    if (doc.node pair.1).txt.any kind then
      (doc.node pair.2).txt.elim n (fun txt => (strtol txt).1)
    else n) init

@[simp] theorem keysOf_append {kind : Text → Bool} {xs ys : Pairs doc} :
    keysOf doc kind (xs ++ ys) = (keysOf doc kind xs && keysOf doc kind ys) :=
  List.all_append

@[simp] theorem lastText_append {kind : Text → Bool} {init : Option Text} {xs ys : Pairs doc} :
    lastText doc kind init (xs ++ ys) = lastText doc kind (lastText doc kind init xs) ys :=
  List.foldl_append

def Step.go? : Step σ → Option σ
  | .go s => some s
  | .die _ => none

/-- A walk whose turns only read. -/
def readAll (doc : Document) (put : Text → Node doc.size → σ → Option σ) :
    Pairs doc → σ → Option σ
  | [], s => some s
  | (k, x) :: pairs, s =>
    ((doc.node k).txt.bind (fun key => put key (doc.node x) s)).bind (readAll doc put pairs)

theorem yForMap_reads {statements : Text → Node doc.size → σ → M (Step σ)}
    {put : Text → Node doc.size → σ → Option σ} {s : σ} (hbad : E .badNode)
    (h : ∀ key val s w, Frames E Logged (statements key val s) w (fun r _ => r.go? = put key val s)) :
    Frames E Logged (yForMap doc statements pairs s) w (fun r _ =>
      r.go? = readAll doc put pairs s) := by
  induction pairs generalizing s w with
  | nil => exact ⟨.refl w, rfl⟩
  | cons pair pairs ih =>
    obtain ⟨k, x⟩ := pair
    refine yForMap_turn hbad ?_
    intro key hk
    refine Runs.imp (h key (doc.node x) s w) ?_
    intro r v hr
    obtain ⟨hl, hr⟩ := hr
    cases r with
    | die t => exact ⟨hl, by simp [readAll, hk, Node.txt, ← hr, Step.go?]⟩
    | go t =>
      refine Runs.imp ih ?_
      intro r u hu
      refine ⟨hl.trans hu.1, hu.2.trans ?_⟩
      simp [readAll, hk, Node.txt, ← hr, Step.go?]

/-- A walk that reads adds up what it reads. -/
theorem readAll_eq {put : Text → Node doc.size → σ → Option σ} {args : Pairs doc → σ → Option σ}
    (hnil : ∀ s, args [] s = some s)
    (hcons : ∀ k x pairs s, args ((k, x) :: pairs) s =
      ((doc.node k).txt.bind (fun key => put key (doc.node x) s)).bind (args pairs)) {s : σ} :
    readAll doc put pairs s = args pairs s := by
  induction pairs generalizing s with
  | nil => exact (hnil s).symm
  | cons pair pairs ih =>
    rw [hcons, readAll]
    exact Option.bind_congr (fun t _ => ih)

end Texts

section Operations

variable {s : OpArgs}

def namesDst (key : Text) : Bool := key = "dst" || key = "d"

def namesSrc (key : Text) : Bool := key = "src" || key = "s"

/-- A side of an operation with the texts that its keys name, where there are no other keys. -/
def dstArgs (doc : Document) (pairs : Pairs doc) (s : OpArgs) : Option OpArgs :=
  if keysOf doc isDstKey pairs then
    some
      { s with
        dstFieldName := lastText doc isFieldKey s.dstFieldName pairs
        dstStateName := lastText doc isStateKey s.dstStateName pairs }
  else none

def srcArgs (doc : Document) (pairs : Pairs doc) (s : OpArgs) : Option OpArgs :=
  if keysOf doc isSrcKey pairs then
    some
      { s with
        srcFieldName := lastText doc isFieldKey s.srcFieldName pairs
        srcStateName := lastText doc isStateKey s.srcStateName pairs
        srcValue := lastText doc isValueKey s.srcValue pairs }
  else none

/-- What an operation's mapping says: a side is all that the mappings under its keys hold. -/
def opArgs (doc : Document) (mapping : Pairs doc) (s : OpArgs) : Option OpArgs :=
  if keysOf doc (fun key => namesDst key || namesSrc key) mapping then
    (dstArgs doc (under doc namesDst mapping) s).bind (srcArgs doc (under doc namesSrc mapping))
  else none

def putDst (key : Text) (val : Node m) (s : OpArgs) : Option OpArgs :=
  if isFieldKey key then some { s with dstFieldName := val.txt }
  else if isStateKey key then some { s with dstStateName := val.txt }
  else if key = "bytes" then some s
  else none

def putSrc (key : Text) (val : Node m) (s : OpArgs) : Option OpArgs :=
  if isFieldKey key then some { s with srcFieldName := val.txt }
  else if isStateKey key then some { s with srcStateName := val.txt }
  else if isValueKey key then some { s with srcValue := val.txt }
  else if key = "bytes" then some s
  else none

def putOp (doc : Document) (key : Text) (val : Node doc.size) (s : OpArgs) : Option OpArgs :=
  if namesDst key then dstArgs doc val.inside s
  else if namesSrc key then srcArgs doc val.inside s
  else none

theorem dstArgs_append {xs ys : Pairs doc} :
    dstArgs doc (xs ++ ys) s = (dstArgs doc xs s).bind (dstArgs doc ys) := by
  cases hx : keysOf doc isDstKey xs <;> simp [dstArgs, hx]

theorem srcArgs_append {xs ys : Pairs doc} :
    srcArgs doc (xs ++ ys) s = (srcArgs doc xs s).bind (srcArgs doc ys) := by
  cases hx : keysOf doc isSrcKey xs <;> simp [srcArgs, hx]

/-- The sides can be read in any order. -/
theorem sides_comm {xs ys : Pairs doc} :
    (dstArgs doc xs s).bind (srcArgs doc ys) = (srcArgs doc ys s).bind (dstArgs doc xs) := by
  cases hx : keysOf doc isDstKey xs <;> cases hy : keysOf doc isSrcKey ys <;> simp [dstArgs, srcArgs, hx, hy]

/-- The keys of one side are told apart. -/
theorem key_cases (key : Text) :
    (isFieldKey key ∧ ¬ isStateKey key ∧ ¬ isValueKey key ∧ key ≠ "bytes") ∨
    (¬ isFieldKey key ∧ isStateKey key ∧ ¬ isValueKey key ∧ key ≠ "bytes") ∨
    (¬ isFieldKey key ∧ ¬ isStateKey key ∧ isValueKey key ∧ key ≠ "bytes") ∨
    (¬ isFieldKey key ∧ ¬ isStateKey key ∧ ¬ isValueKey key) := by
  simp only [isFieldKey, isStateKey, isValueKey, Bool.or_eq_true, decide_eq_true_eq]
  by_cases hf : key = "field" ∨ key = "f"
  · rcases hf with rfl | rfl <;> decide
  by_cases hs : key = "state" ∨ key = "s"
  · rcases hs with rfl | rfl <;> decide
  by_cases hv : key = "value" ∨ key = "v"
  · rcases hv with rfl | rfl <;> decide
  · exact .inr (.inr (.inr ⟨hf, hs, hv⟩))

theorem readAll_dst : readAll doc putDst pairs s = dstArgs doc pairs s := by
  refine readAll_eq (fun s => rfl) (fun k x pairs s => ?_)
  rw [← List.singleton_append, dstArgs_append]
  cases hk : (doc.node k).txt with
  | none => simp [dstArgs, keysOf, hk]
  | some key =>
    rcases key_cases key with h | h | h | h <;>
      simp [dstArgs, keysOf, lastText, putDst, isDstKey, hk, h]

theorem readAll_src : readAll doc putSrc pairs s = srcArgs doc pairs s := by
  refine readAll_eq (fun s => rfl) (fun k x pairs s => ?_)
  rw [← List.singleton_append, srcArgs_append]
  cases hk : (doc.node k).txt with
  | none => simp [srcArgs, keysOf, hk]
  | some key =>
    rcases key_cases key with h | h | h | h <;>
      simp [srcArgs, keysOf, lastText, putSrc, isSrcKey, hk, h]

theorem not_src_of_dst {key : Text} (h : namesDst key) : namesSrc key = false := by
  simp only [namesDst, Bool.or_eq_true, decide_eq_true_eq] at h
  rcases h with rfl | rfl <;> rfl

theorem readAll_op : readAll doc (putOp doc) mapping s = opArgs doc mapping s := by
  refine readAll_eq (fun s => rfl) (fun k x pairs s => ?_)
  have hunder : ∀ kind, under doc kind ((k, x) :: pairs) =
      (if (doc.node k).txt.any kind then (doc.node x).inside else []) ++ under doc kind pairs :=
    fun _ => List.flatMap_cons
  cases hk : (doc.node k).txt with
  | none => simp [opArgs, keysOf, hk]
  | some key =>
    have hkeys : keysOf doc (fun key => namesDst key || namesSrc key) ((k, x) :: pairs) =
        ((namesDst key || namesSrc key) &&
          keysOf doc (fun key => namesDst key || namesSrc key) pairs) := by
      simp [keysOf, hk]
    simp only [Option.bind_some, putOp]
    unfold opArgs
    rw [hkeys, hunder, hunder, hk]
    by_cases hd : namesDst key
    · have hs := not_src_of_dst hd
      cases keysOf doc (fun key => namesDst key || namesSrc key) pairs <;>
        simp [hd, hs, dstArgs_append, Option.bind_assoc]
    by_cases hs : namesSrc key
    · cases keysOf doc (fun key => namesDst key || namesSrc key) pairs with
      | false => simp [hd, hs]
      | true =>
        simp only [hd, hs, Option.any_some, Bool.or_true, Bool.and_true, if_true, if_false,
          Bool.false_eq_true, List.nil_append]
        rw [sides_comm, srcArgs_append, Option.bind_assoc]
        exact Option.bind_congr (fun t _ => sides_comm.symm)
    · simp [hd, hs]

/-- What `op_parse_new` hands to `op_new`. -/
theorem opWalk_reads {s : OpArgs} (hbad : E .badNode) :
    Frames E Logged (yForMap doc (opParseKey doc) mapping s) w (fun r _ =>
      r.go? = opArgs doc mapping s) := by
  rw [← readAll_op]
  refine yForMap_reads hbad (fun key val s w => ?_)
  have hdst : ∀ {pairs : Pairs doc}, Frames E Logged (yForMap doc opParseDst pairs s) w
      (fun r _ => r.go? = dstArgs doc pairs s) := by
    intro pairs
    rw [← readAll_dst]
    refine yForMap_reads hbad (fun key val s w => ?_)
    simp only [opParseDst, putDst, isFieldKey, isStateKey, Bool.or_eq_true, decide_eq_true_eq]
    split
    · exact ⟨.refl w, rfl⟩
    split
    · exact ⟨.refl w, rfl⟩
    split
    · exact ⟨.refl w, rfl⟩
    · exact ⟨.say w _, rfl⟩
  have hsrc : ∀ {pairs : Pairs doc}, Frames E Logged (yForMap doc opParseSrc pairs s) w
      (fun r _ => r.go? = srcArgs doc pairs s) := by
    intro pairs
    rw [← readAll_src]
    refine yForMap_reads hbad (fun key val s w => ?_)
    simp only [opParseSrc, putSrc, isFieldKey, isStateKey, isValueKey, Bool.or_eq_true,
      decide_eq_true_eq]
    split
    · exact ⟨.refl w, rfl⟩
    split
    · exact ⟨.refl w, rfl⟩
    split
    · exact ⟨.refl w, rfl⟩
    split
    · exact ⟨.refl w, rfl⟩
    · exact ⟨.say w _, rfl⟩
  simp only [opParseKey, putOp, namesDst, namesSrc, Bool.or_eq_true, decide_eq_true_eq]
  split
  · cases val with
    | mapping pairs => exact hdst
    | _ => exact ⟨.say w _, rfl⟩
  split
  · cases val with
    | mapping pairs => exact hsrc
    | _ => exact ⟨.say w _, rfl⟩
  · exact ⟨.say w _, rfl⟩

/-- The checks that `op_new` makes of its texts. -/
structure OpArgs.Plausible (s : OpArgs) : Prop where
  field : ¬ (s.dstFieldName = none ∧ s.srcFieldName = none)
  dst : ¬ (s.dstFieldName = none ∧ s.dstStateName = none)
  src : ¬ (s.srcFieldName = none ∧ s.srcStateName = none ∧ s.srcValue = none)
  one : ¬ (s.srcStateName ≠ none ∧ s.srcValue ≠ none)

instance {s : OpArgs} : Decidable s.Plausible :=
  decidable_of_iff
    (¬ (s.dstFieldName = none ∧ s.srcFieldName = none) ∧
      ¬ (s.dstFieldName = none ∧ s.dstStateName = none) ∧
      ¬ (s.srcFieldName = none ∧ s.srcStateName = none ∧ s.srcValue = none) ∧
      ¬ (s.srcStateName ≠ none ∧ s.srcValue ≠ none))
    ⟨fun h => ⟨h.1, h.2.1, h.2.2.1, h.2.2.2⟩, fun h => ⟨h.field, h.dst, h.src, h.one⟩⟩

end Operations

section Fields

def unknownKeys (doc : Document) (pairs : Pairs doc) : Nat :=
  pairs.countP (fun pair => (doc.node pair.1).txt.any (fun key => !(isFieldKey key || isNumberKey key)))

/-- What a field's mapping says: of several texts under one key the last one counts. -/
def fieldArgs (doc : Document) (pairs : Pairs doc) (s : FieldArgs) : FieldArgs where
  errCnt := s.errCnt + unknownKeys doc pairs
  name := lastText doc isFieldKey s.name pairs
  offt := lastNumber doc isOfftKey s.offt pairs
  len := lastNumber doc isLenKey s.len pairs
  mask := lastNumber doc isMaskKey s.mask pairs

/-- A walk that is stopped has an error; any other has read everything. -/
def FieldRead (doc : Document) (pairs : Pairs doc) (s : FieldArgs) : Step FieldArgs → Prop
  | .go t => walkStops doc fieldStops pairs = false ∧ t = fieldArgs doc pairs s
  | .die t => walkStops doc fieldStops pairs = true ∧ t.errCnt ≠ 0

theorem fieldArgs_cons {pair : Fin doc.size × Fin doc.size} {s : FieldArgs} :
    fieldArgs doc (pair :: pairs) s = fieldArgs doc pairs (fieldArgs doc [pair] s) := by
  simp only [fieldArgs, unknownKeys, lastText, lastNumber, List.countP_cons, List.countP_nil,
    List.foldl_cons, List.foldl_nil, FieldArgs.mk.injEq, and_true]
  omega

/-- The keys of a field are told apart. -/
theorem fieldKey_cases (key : Text) :
    (isFieldKey key ∧ ¬ isOfftKey key ∧ ¬ isLenKey key ∧ ¬ isMaskKey key) ∨
    (¬ isFieldKey key ∧ isOfftKey key ∧ ¬ isLenKey key ∧ ¬ isMaskKey key) ∨
    (¬ isFieldKey key ∧ ¬ isOfftKey key ∧ isLenKey key ∧ ¬ isMaskKey key) ∨
    (¬ isFieldKey key ∧ ¬ isOfftKey key ∧ ¬ isLenKey key) := by
  simp only [isFieldKey, isOfftKey, isLenKey, isMaskKey, Bool.or_eq_true, decide_eq_true_eq]
  by_cases hf : key = "field" ∨ key = "f"
  · rcases hf with rfl | rfl <;> decide
  by_cases ho : key = "offt" ∨ key = "o"
  · rcases ho with rfl | rfl <;> decide
  by_cases hl : key = "len" ∨ key = "l"
  · rcases hl with rfl | rfl <;> decide
  · exact .inr (.inr (.inr ⟨hf, ho, hl⟩))

theorem fieldParseKey_args {key : Text} {k x : Fin doc.size} {s : FieldArgs} (hnull : E .nullText)
    (hk : doc.node k = .scalar key) :
    Frames E Logged (fieldParseKey key (doc.node x) s) w (fun r _ => FieldRead doc [(k, x)] s r) := by
  have hstops : walkStops doc fieldStops [(k, x)] = fieldStops key (doc.node x) := by
    simp [walkStops, hk, Node.txt]
  have hnumber : ∀ {assign : Int → FieldArgs}, isNumberKey key = true →
      (∀ txt, (doc.node x).txt = some txt → assign (strtol txt).1 = fieldArgs doc [(k, x)] s) →
      Frames E Logged (fieldParseNumber key (doc.node x) s assign) w (fun r _ =>
        FieldRead doc [(k, x)] s r) := by
    intro assign hn ha
    unfold fieldParseNumber
    cases ht : (doc.node x).txt with
    | none => exact hnull
    | some txt =>
      simp only [needText, pure_bind]
      cases he : (strtol txt).2 with
      | true => exact ⟨.say w _, by rw [hstops]; simp [fieldStops, hn, ht, he], Nat.succ_ne_zero _⟩
      | false => exact ⟨.refl w, by rw [hstops]; simp [fieldStops, ht, he], ha txt ht⟩
  have hplain : isNumberKey key = false → walkStops doc fieldStops [(k, x)] = false := by
    intro hn
    rw [hstops, fieldStops, hn, Bool.false_and]
  have hargs : fieldArgs doc [(k, x)] s =
      { errCnt := s.errCnt + if isFieldKey key = false ∧ isNumberKey key = false then 1 else 0
        name := if isFieldKey key then (doc.node x).txt else s.name
        offt := if isOfftKey key then (doc.node x).txt.elim s.offt (fun txt => (strtol txt).1) else s.offt
        len := if isLenKey key then (doc.node x).txt.elim s.len (fun txt => (strtol txt).1) else s.len
        mask := if isMaskKey key then (doc.node x).txt.elim s.mask (fun txt => (strtol txt).1)
          else s.mask } := by
    simp [fieldArgs, unknownKeys, lastText, lastNumber, hk, Node.txt, List.countP_cons]
  unfold fieldParseKey
  rcases fieldKey_cases key with ⟨hf, ho, hl, hm⟩ | ⟨hf, ho, hl, hm⟩ | ⟨hf, ho, hl, hm⟩ | ⟨hf, ho, hl⟩
  · rw [if_pos (by simpa [isFieldKey] using hf)]
    refine ⟨.refl w, hplain (by simp [isNumberKey, ho, hl, hm]), ?_⟩
    simp [hargs, hf, ho, hl, hm]
  · rw [if_neg (by simpa [isFieldKey] using hf), if_pos (by simpa [isOfftKey] using ho)]
    refine hnumber (by simp [isNumberKey, ho]) (fun txt ht => ?_)
    simp [hargs, isNumberKey, hf, ho, hl, hm, ht]
  · rw [if_neg (by simpa [isFieldKey] using hf), if_neg (by simpa [isOfftKey] using ho),
      if_pos (by simpa [isLenKey] using hl)]
    refine hnumber (by simp [isNumberKey, hl]) (fun txt ht => ?_)
    simp [hargs, isNumberKey, hf, ho, hl, hm, ht]
  · rw [if_neg (by simpa [isFieldKey] using hf), if_neg (by simpa [isOfftKey] using ho),
      if_neg (by simpa [isLenKey] using hl)]
    by_cases hm : isMaskKey key
    · rw [if_pos (by simpa [isMaskKey] using hm)]
      refine hnumber (by simp [isNumberKey, hm]) (fun txt ht => ?_)
      simp [hargs, isNumberKey, hf, ho, hl, hm, ht]
    · rw [if_neg (by simpa [isMaskKey] using hm)]
      refine ⟨.say w _, hplain (by simp [isNumberKey, ho, hl, hm]), ?_⟩
      simp [hargs, isNumberKey, hf, ho, hl, hm]

/-- What the walk of a field leaves. -/
theorem fieldWalk_args {s : FieldArgs} (hbad : E .badNode) (hnull : E .nullText) :
    Frames E Logged (yForMap doc fieldParseKey pairs s) w (fun r _ => FieldRead doc pairs s r) := by
  induction pairs generalizing s w with
  | nil => exact ⟨.refl w, rfl, rfl⟩
  | cons pair pairs ih =>
    obtain ⟨k, x⟩ := pair
    have hstops : walkStops doc fieldStops ((k, x) :: pairs) =
        (walkStops doc fieldStops [(k, x)] || walkStops doc fieldStops pairs) := by
      simp [walkStops]
    refine yForMap_turn hbad ?_
    intro key hk
    refine Runs.imp (fieldParseKey_args hnull hk) ?_
    intro r v hr
    cases r with
    | die t =>
      obtain ⟨hl, hstop, ht⟩ := hr
      exact ⟨hl, by rw [hstops, hstop, Bool.true_or], ht⟩
    | go t =>
      obtain ⟨hl, hstop, rfl⟩ := hr
      refine Runs.imp ih ?_
      intro r u hu
      cases r with
      | die t =>
        obtain ⟨hl', hstop', ht⟩ := hu
        exact ⟨hl.trans hl', by rw [hstops, hstop', Bool.or_true], ht⟩
      | go t =>
        obtain ⟨hl', hstop', rfl⟩ := hu
        exact ⟨hl.trans hl', by rw [hstops, hstop, hstop', Bool.or_self], fieldArgs_cons.symm⟩

end Fields

end Xdpacket
