import Xdpacket.Model.Parse
import Xdpacket.Proofs.Beside

namespace Xdpacket

variable {w v : World} {env : Env} {doc : Document} {mapping : Pairs doc} {α β σ : Type}

/-- The walk of a mapping ends at `die`: some value is itself a mapping. -/
def Stops (doc : Document) (mapping : Pairs doc) : Prop :=
  ∃ pair ∈ mapping, ∃ pairs, doc.node pair.2 = .mapping pairs

/-- What one pair lists: only sequences list anything. -/
def pairListed (here : Text → List (Fin n) → List α) (key : Text) (val : Node n) : List α :=
  match val with
  | .sequence items => here key items
  | _ => []

/-- What a mapping lists before its walk ends. -/
def listedBefore (doc : Document) (here : Text → List (Fin doc.size) → List α) :
    Pairs doc → List α
  | [] => []
  | (k, v) :: pairs =>
    match doc.node v with
    | .mapping _ => []
    | val => (doc.node k).txt.elim [] (fun key => pairListed here key val) ++
        listedBefore doc here pairs

/-- The name of the object after one more pair. -/
def nextName (naming : Text → Bool) (key : Text) (val : Node n) (name : Text) : Text :=
  match val with
  | .scalar txt => if naming key then txt else name
  | _ => name

/-- The value of the last of the keys that name the object. -/
def lastName (doc : Document) (naming : Text → Bool) (mapping : Pairs doc) : Text :=
  mapping.foldl (fun name pair =>
    (doc.node pair.1).txt.elim name (fun key => nextName naming key (doc.node pair.2) name)) ""

inductive OpQueue where
  | matchJQ
  | writeJQ
deriving DecidableEq, Repr

def opQueueOf (keyname : Text) : Option OpQueue :=
  if keyname = "match" ∨ keyname = "m" then some .matchJQ
  else if keyname = "write" ∨ keyname = "w" then some .writeJQ
  else none

/-- The operations that a rule mapping lists, each with the queue that it is for. -/
def ruleListed (doc : Document) : Pairs doc → List (OpQueue × Node doc.size) :=
  listedBefore doc (fun key items =>
    (opQueueOf key).elim [] (fun q => items.map (fun item => (q, doc.node item))))

def namesRule (key : Text) : Bool := key = "rule" || key = "r"

/-- One listed operation: anything but a mapping is no operation. -/
def opBuild (env : Env) (doc : Document) (item : Node doc.size) : M (Option Op) :=
  match item with
  | .mapping map => opParseNew env doc map
  | _ => return none

def ruleBuild (env : Env) (doc : Document) (listed : OpQueue × Node doc.size) :
    M (OpQueue × Option Op) := do
  return (listed.1, ← opBuild env doc listed.2)

/-- The operations built for one queue. -/
def builtFor (q : OpQueue) (rs : List (OpQueue × Option Op)) : List Op :=
  rs.filterMap (fun r => if r.1 = q then r.2 else none)

/-- The pairs that an item of a process's list holds; an item that is no mapping
names nothing. -/
def itemListed (doc : Document) (item : Node doc.size) : List (Option Text × Option Text) :=
  match item with
  | .mapping map => map.map (fun pair => ((doc.node pair.1).txt, (doc.node pair.2).txt))
  | _ => [(none, none)]

/-- The `rule: iface` pairs that a process mapping lists. -/
def processListed (doc : Document) : Pairs doc → List (Option Text × Option Text) :=
  listedBefore doc (fun key items =>
    if key = "rules" ∨ key = "r" then items.flatMap (fun item => itemListed doc (doc.node item))
    else [])

def namesIface (key : Text) : Bool := key = "iface" || key = "i"

def namesProcess (key : Text) : Bool := key = "process" || key = "p"

def routBuild (listed : Option Text × Option Text) : M (Option Rout) :=
  routNew listed.1 listed.2

section Attempts

/-- Attempts made from `w`, one after the other, answer `rs`; the world they
leave differs from `v` in its messages only. -/
def Attempts (build : α → M β) (xs : List α) (w : World) (rs : List β) (v : World) : Prop :=
  ∃ u, xs.mapM build w = .ok (rs, u) ∧ Beside id id u v

variable {build : α → M β} {xs ys : List α} {rs qs : List β}

theorem Attempts.nil (hb : Beside id id w v) : Attempts build [] w [] v :=
  ⟨w, rfl, hb⟩

theorem mapM_append_ok {u t : World} (h : xs.mapM build w = .ok (rs, u))
    (h' : ys.mapM build u = .ok (qs, t)) : (xs ++ ys).mapM build w = .ok (rs ++ qs, t) := by
  rw [List.mapM_append, bind_eq_ok]
  exact ⟨rs, u, h, bind_eq_ok.mpr ⟨qs, t, h', rfl⟩⟩

/-- One attempt, then the rest. -/
theorem Attempts.cons {x : α} {r : β} {u : World} (h : build x w = .ok (r, u))
    (h' : Attempts build xs u rs v) : Attempts build (x :: xs) w (r :: rs) v := by
  obtain ⟨t, ht, hb⟩ := h'
  refine ⟨t, ?_, hb⟩
  rw [List.mapM_cons, bind_eq_ok]
  exact ⟨r, u, h, bind_eq_ok.mpr ⟨rs, t, ht, rfl⟩⟩

end Attempts

section Walks

variable {statements : Text → Node doc.size → σ → M (Step σ)} {build : α → M β}
  {here : Text → List (Fin doc.size) → List α} {naming : Text → Bool} {name : σ → Text}
  {Took : σ → List β → σ → Prop} {Dead : σ → Prop}

/-- What one turn of a walk does: a scalar may name the object, a list is attempted,
a mapping ends the walk. -/
def TurnBuilds (statements : Text → Node doc.size → σ → M (Step σ)) (build : α → M β)
    (here : Text → List (Fin doc.size) → List α) (naming : Text → Bool) (name : σ → Text)
    (Took : σ → List β → σ → Prop) (Dead : σ → Prop) : Prop :=
  ∀ key val s w v, Beside id id w v → Runs (fun _ => True) (statements key val s) v (fun r t =>
    ∃ rs, Attempts build (pairListed here key val) w rs t ∧ Took s rs r.state ∧
      match r with
      | .go u => (∀ pairs, val ≠ .mapping pairs) ∧ name u = nextName naming key val (name s)
      | .die u => (∃ pairs, val = .mapping pairs) ∧ Dead u)

/-- A walk attempts what the mapping lists, in order. -/
theorem yForMap_builds (hrefl : ∀ s, Took s [] s)
    (htrans : ∀ s t u rs qs, Took s rs t → Took t qs u → Took s (rs ++ qs) u)
    (hturn : TurnBuilds statements build here naming name Took Dead) {s : σ}
    (hb : Beside id id w v) :
    Runs (fun _ => True) (yForMap doc statements mapping s) v (fun r t =>
      ∃ rs, Attempts build (listedBefore doc here mapping) w rs t ∧ Took s rs r.state ∧
        match r with
        | .go u => ¬ Stops doc mapping ∧ name u = mapping.foldl (fun name pair =>
            (doc.node pair.1).txt.elim name
              (fun key => nextName naming key (doc.node pair.2) name)) (name s)
        | .die u => Stops doc mapping ∧ Dead u) := by
  induction mapping generalizing s w v with
  | nil => exact ⟨[], .nil hb, hrefl s, fun ⟨_, hm, _⟩ => (by cases hm), rfl⟩
  | cons pair pairs ih =>
    obtain ⟨k, x⟩ := pair
    refine yForMap_turn trivial ?_
    intro key hk
    refine (hturn key (doc.node x) s w v hb).imp ?_
    intro r t ht
    obtain ⟨rs, hrs, htook, hr⟩ := ht
    cases r with
    | die u =>
      obtain ⟨⟨items, hx⟩, hdead⟩ := hr
      refine ⟨rs, ?_, htook, ⟨(k, x), List.mem_cons_self .., items, hx⟩, hdead⟩
      rw [hx] at hrs
      simp only [listedBefore, hx]
      exact hrs
    | go u =>
      obtain ⟨hx, hname⟩ := hr
      obtain ⟨u', hu', hbu⟩ := hrs
      refine Runs.imp (ih (s := u) hbu) ?_
      intro r' t' ht'
      obtain ⟨qs, hqs, htook', hr'⟩ := ht'
      refine ⟨rs ++ qs, ?_, htrans _ _ _ _ _ htook htook', ?_⟩
      · obtain ⟨x', hx', hb'⟩ := hqs
        have hcons : listedBefore doc here ((k, x) :: pairs) =
            pairListed here key (doc.node x) ++ listedBefore doc here pairs := by
          cases hn : doc.node x with
          | mapping items => exact absurd hn (hx items)
          | scalar txt => simp only [listedBefore, hn, hk, Node.txt, Option.elim_some]
          | sequence items => simp only [listedBefore, hn, hk, Node.txt, Option.elim_some]
        rw [hcons]
        exact ⟨x', mapM_append_ok hu' hx', hb'⟩
      · have hstop : Stops doc ((k, x) :: pairs) ↔ Stops doc pairs := by
          constructor
          · intro hs
            obtain ⟨pair, hm, items, hp⟩ := hs
            rcases List.mem_cons.mp hm with he | hm
            · rw [he] at hp
              exact absurd hp (hx items)
            · exact ⟨pair, hm, items, hp⟩
          · intro hs
            obtain ⟨pair, hm, items, hp⟩ := hs
            exact ⟨pair, List.mem_cons_of_mem _ hm, items, hp⟩
        cases r' with
        | die z => exact ⟨hstop.mpr hr'.1, hr'.2⟩
        | go z =>
          refine ⟨fun h => hr'.1 (hstop.mp h), ?_⟩
          rw [hr'.2, List.foldl_cons, hk, hname]
          rfl

end Walks

section Rules

theorem Steady.yForMap {g : Heap Rule → Heap Rule} {p : Heap Process → Heap Process}
    {statements : Text → Node doc.size → σ → M (Step σ)} {s : σ}
    (h : ∀ key val s, Steady g p (statements key val s)) :
    Steady g p (yForMap doc statements mapping s) := by
  induction mapping generalizing s with
  | nil => exact .pure
  | cons pair pairs ih =>
    unfold Xdpacket.yForMap
    refine Steady.bind ?_ ?_
    · unfold scalarValue
      split
      · exact .pure
      · exact .throw
    · intro key
      apply (h key _ s).bind
      intro r
      cases r with
      | go t => exact ih
      | die t => exact .pure

theorem Steady.opParseNew {g : Heap Rule → Heap Rule} {p : Heap Process → Heap Process} :
    Steady g p (opParseNew env doc mapping) := by
  have hsay : ∀ {msg : Text} {r : Step OpArgs}, Steady g p
      (Xdpacket.nbErr msg >>= fun _ => Pure.pure r : M (Step OpArgs)) :=
    Steady.nbErr.bind (fun _ => .pure)
  have hdst : ∀ key (val : Node doc.size) s, Steady g p (opParseDst key val s) := by
    intro key val s
    unfold opParseDst
    split
    · exact .pure
    split
    · exact .pure
    split
    · exact .pure
    · exact hsay
  have hsrc : ∀ key (val : Node doc.size) s, Steady g p (opParseSrc key val s) := by
    intro key val s
    unfold opParseSrc
    split
    · exact .pure
    split
    · exact .pure
    split
    · exact .pure
    split
    · exact .pure
    · exact hsay
  unfold Xdpacket.opParseNew
  refine Steady.bind (Steady.yForMap ?_) ?_
  · intro key val s
    unfold opParseKey
    split
    · split
      · exact Steady.yForMap hdst
      · exact hsay
    split
    · split
      · exact Steady.yForMap hsrc
      · exact hsay
    · exact hsay
  · intro r
    cases r with
    | go s => exact Steady.opNew
    | die s => exact .pure

theorem ruleParseItem_builds {item : Node doc.size} {s : Nat × List Op} (hb : Beside id id w v) :
    Runs (fun _ => True) (ruleParseItem env doc item s) v (fun r t => ∃ op u n,
      opBuild env doc item w = .ok (op, u) ∧ Beside id id u t ∧ r = .go (n, s.2 ++ op.toList)) := by
  have hsay : ∀ {u t : World} {msg : Text}, Beside id id u t →
      Beside id id u { t with log := t.log ++ [msg] } := by
    intro u t msg hu
    obtain ⟨l, rfl⟩ := hu
    exact ⟨l ++ [msg], rfl⟩
  have hno : opBuild env doc item w = .ok (none, w) → Runs (fun _ => True)
      (do nbErr "'match' item not a mapping"; return .go (s.1 + 1, s.2) :
        M (Step (Nat × List Op))) v (fun r t => ∃ op u n,
          opBuild env doc item w = .ok (op, u) ∧ Beside id id u t ∧
            r = .go (n, s.2 ++ op.toList)) := by
    intro hn
    refine ⟨none, w, s.1 + 1, hn, hsay hb, ?_⟩
    rw [Option.toList_none, List.append_nil]
  unfold ruleParseItem
  cases item with
  | scalar txt => exact hno rfl
  | sequence items => exact hno rfl
  | mapping map =>
    refine Runs.bind ((Steady.opParseNew).shadow hb) ?_
    intro r t ht
    obtain ⟨op, u, hop, rfl, hu⟩ := ht
    cases op with
    | some op => exact ⟨some op, u, s.1, hop, hu, rfl⟩
    | none =>
      refine ⟨none, u, s.1 + 1, hop, hsay hu, ?_⟩
      rw [Option.toList_none, List.append_nil]

/-- One list is attempted for its queue, first to last. -/
theorem yForSeq_builds {q : OpQueue} {items : List (Fin doc.size)} {s : Nat × List Op}
    (hb : Beside id id w v) :
    Runs (fun _ => True) (yForSeq doc (ruleParseItem env doc) items s) v (fun r t => ∃ rs n,
      Attempts (ruleBuild env doc) (items.map (fun item => (q, doc.node item))) w rs t ∧
        r = .go (n, s.2 ++ builtFor q rs) ∧ ∀ p, p ≠ q → builtFor p rs = []) := by
  induction items generalizing s w v with
  | nil =>
    refine ⟨[], s.1, .nil hb, ?_, fun _ _ => rfl⟩
    simp [builtFor]
  | cons item items ih =>
    unfold yForSeq
    refine Runs.bind (ruleParseItem_builds hb) ?_
    intro r t ht
    obtain ⟨op, u, n, hop, hu, rfl⟩ := ht
    refine Runs.imp (ih (s := (n, s.2 ++ op.toList)) hu) ?_
    intro r' t' ht'
    obtain ⟨rs, n', hrs, rfl, hother⟩ := ht'
    have hbuild : ruleBuild env doc (q, doc.node item) w = .ok ((q, op), u) :=
      bind_eq_ok.mpr ⟨op, u, hop, rfl⟩
    refine ⟨(q, op) :: rs, n', hrs.cons hbuild, ?_, ?_⟩
    · cases op <;> simp [builtFor]
    · intro p hp
      have := hother p hp
      simpa [builtFor, Ne.symm hp] using this

/-- The queues of a rule grow by what was built for them. -/
def TookOps (s : RuleArgs) (rs : List (OpQueue × Option Op)) (t : RuleArgs) : Prop :=
  t.matchJQ = s.matchJQ ++ builtFor .matchJQ rs ∧ t.writeJQ = s.writeJQ ++ builtFor .writeJQ rs

theorem ruleParseKey_builds :
    TurnBuilds (ruleParseKey env .add doc) (ruleBuild env doc)
      (fun key items => (opQueueOf key).elim [] (fun q => items.map (fun item => (q, doc.node item))))
      namesRule RuleArgs.name TookOps (fun s => s.errCnt ≠ 0) := by
  intro key val s w v hb
  have hnone : ∀ {t : RuleArgs}, t.matchJQ = s.matchJQ → t.writeJQ = s.writeJQ → TookOps s [] t := by
    intro t hm hw
    exact ⟨by rw [hm]; exact (List.append_nil _).symm, by rw [hw]; exact (List.append_nil _).symm⟩
  have hsay : ∀ msg, Beside id id w { v with log := v.log ++ [msg] } := by
    intro msg
    obtain ⟨l, rfl⟩ := hb
    exact ⟨l ++ [msg], rfl⟩
  unfold ruleParseKey
  cases val with
  | scalar txt =>
    have hlist : ∀ u, Beside id id w u → Attempts (ruleBuild env doc) [] w [] u :=
      fun u hu => .nil hu
    by_cases hk : key = "rule" ∨ key = "r"
    · simp only [hk, if_true]
      refine ⟨[], hlist v hb, hnone rfl rfl, fun _ h => (by cases h), ?_⟩
      simp only [nextName, namesRule, Bool.or_eq_true, decide_eq_true_eq, hk, if_true]
    · simp only [hk, if_false]
      refine ⟨[], hlist _ (hsay _), hnone rfl rfl, fun _ h => (by cases h), ?_⟩
      simp only [nextName, namesRule, Bool.or_eq_true, decide_eq_true_eq, hk, if_false]
  | sequence items =>
    simp only [ne_eq, not_true_eq_false, if_false]
    by_cases hm : key = "match" ∨ key = "m"
    · simp only [hm, if_true]
      refine Runs.bind (yForSeq_builds (q := .matchJQ) hb) ?_
      intro r t ht
      obtain ⟨rs, n, hrs, rfl, hother⟩ := ht
      refine ⟨rs, ?_, ⟨rfl, ?_⟩, fun _ h => (by cases h), rfl⟩
      · simp only [pairListed, opQueueOf, hm, if_true, Option.elim_some]
        exact hrs
      · rw [hother .writeJQ (by decide)]
        exact (List.append_nil _).symm
    · by_cases hw : key = "write" ∨ key = "w"
      · simp only [hm, hw, if_true, if_false]
        refine Runs.bind (yForSeq_builds (q := .writeJQ) hb) ?_
        intro r t ht
        obtain ⟨rs, n, hrs, rfl, hother⟩ := ht
        refine ⟨rs, ?_, ⟨?_, rfl⟩, fun _ h => (by cases h), rfl⟩
        · simp only [pairListed, opQueueOf, hm, hw, if_true, if_false, Option.elim_some]
          exact hrs
        · rw [hother .matchJQ (by decide)]
          exact (List.append_nil _).symm
      · simp only [hm, hw, if_false]
        refine ⟨[], ?_, hnone rfl rfl, fun _ h => (by cases h), rfl⟩
        simp only [pairListed, opQueueOf, hm, hw, if_false, Option.elim_none]
        exact .nil (hsay _)
  | mapping pairs =>
    refine ⟨[], .nil (hsay _), hnone rfl rfl, ⟨pairs, rfl⟩, ?_⟩
    change s.errCnt + 1 ≠ 0
    omega

/-- The walk of `rule_parse` queues what could be built of what the mapping lists. -/
theorem ruleWalk_builds :
    Runs (fun _ => True) (yForMap doc (ruleParseKey env .add doc) mapping ⟨0, "", [], []⟩) w
      (fun r t => ∃ rs, Attempts (ruleBuild env doc) (ruleListed doc mapping) w rs t ∧
        r.state.matchJQ = builtFor .matchJQ rs ∧ r.state.writeJQ = builtFor .writeJQ rs ∧
        match r with
        | .go s => ¬ Stops doc mapping ∧ s.name = lastName doc namesRule mapping
        | .die s => Stops doc mapping ∧ s.errCnt ≠ 0) := by
  refine Runs.imp (yForMap_builds ?_ ?_ ruleParseKey_builds ⟨w.log, rfl⟩) ?_
  · intro s
    exact ⟨(List.append_nil _).symm, (List.append_nil _).symm⟩
  · intro s t u rs qs h h'
    refine ⟨?_, ?_⟩
    · rw [h'.1, h.1, List.append_assoc, builtFor, builtFor, builtFor, List.filterMap_append]
    · rw [h'.2, h.2, List.append_assoc, builtFor, builtFor, builtFor, List.filterMap_append]
  · intro r t ht
    obtain ⟨rs, hrs, htook, hr⟩ := ht
    refine ⟨rs, hrs, htook.1, htook.2, ?_⟩
    cases r with
    | go s => exact hr
    | die s => exact hr

end Rules

section Processes

/-- A queue of routs grows by what was built. -/
def TookRouts (s : List Rout) (rs : List (Option Rout)) (t : List Rout) : Prop :=
  t = s ++ rs.filterMap id

/-- The pairs of one item are attempted, first to last. -/
theorem yForMap_routs {pairs : Pairs doc} {s : Nat × List Rout} (hb : Beside id id w v) :
    Runs (fun _ => True) (yForMap doc processParsePair pairs s) v (fun r t => ∃ rs n qs,
      Attempts routBuild (pairs.map (fun p => ((doc.node p.1).txt, (doc.node p.2).txt))) w rs t ∧
        r = .go (n, qs) ∧ TookRouts s.2 rs qs) := by
  induction pairs generalizing s w v with
  | nil => exact ⟨[], s.1, s.2, .nil hb, rfl, (List.append_nil _).symm⟩
  | cons pair pairs ih =>
    obtain ⟨k, x⟩ := pair
    refine yForMap_turn trivial ?_
    intro key hk
    simp only [processParsePair]
    refine Runs.bind (Steady.routNew.shadow hb) ?_
    intro rt t ht
    obtain ⟨rt, u, hrt, rfl, hu⟩ := ht
    have hrt' : routBuild ((doc.node k).txt, (doc.node x).txt) w = .ok (rt, u) := by
      rw [hk]
      exact hrt
    cases rt with
    | some rt =>
      change Runs _ (yForMap doc processParsePair pairs (s.1, s.2 ++ [rt])) _ _
      refine Runs.imp (ih hu) ?_
      intro r t' ht'
      obtain ⟨rs, n, qs, hrs, hr, hq⟩ := ht'
      refine ⟨some rt :: rs, n, qs, hrs.cons hrt', hr, ?_⟩
      unfold TookRouts at hq ⊢
      simpa using hq
    | none =>
      obtain ⟨l, rfl⟩ := hu
      change Runs _ (yForMap doc processParsePair pairs (s.1 + 1, s.2)) _ _
      refine Runs.imp (ih (w := u) ⟨l ++ [""], rfl⟩) ?_
      intro r t' ht'
      obtain ⟨rs, n, qs, hrs, hr, hq⟩ := ht'
      refine ⟨none :: rs, n, qs, hrs.cons hrt', hr, ?_⟩
      unfold TookRouts at hq ⊢
      simpa using hq

theorem processParseItem_builds {item : Node doc.size} {s : Nat × List Rout}
    (hb : Beside id id w v) :
    Runs (fun _ => True) (processParseItem doc item s) v (fun r t => ∃ rs n qs,
      Attempts routBuild (itemListed doc item) w rs t ∧ r = .go (n, qs) ∧ TookRouts s.2 rs qs) := by
  have hno : Runs (fun _ => True)
      (do nbErr "expecting 'rulename: iface' pairs"; return .go (s.1 + 1, s.2) :
        M (Step (Nat × List Rout))) v (fun r t => ∃ rs n qs,
          Attempts routBuild [(none, none)] w rs t ∧ r = .go (n, qs) ∧ TookRouts s.2 rs qs) := by
    obtain ⟨l, rfl⟩ := hb
    have hbuild : routBuild (none, none) w =
        .ok (none, { w with log := w.log ++ ["rout requires 'rule_name'"] }) := rfl
    refine ⟨[none], s.1 + 1, s.2, .cons hbuild (.nil ⟨_, rfl⟩), rfl, ?_⟩
    simp [TookRouts]
  unfold processParseItem
  cases item with
  | scalar txt => exact hno
  | sequence items => exact hno
  | mapping pairs => exact yForMap_routs hb

theorem yForSeq_routs {items : List (Fin doc.size)} {s : Nat × List Rout}
    (hb : Beside id id w v) :
    Runs (fun _ => True) (yForSeq doc (processParseItem doc) items s) v (fun r t => ∃ rs n qs,
      Attempts routBuild (items.flatMap (fun item => itemListed doc (doc.node item))) w rs t ∧
        r = .go (n, qs) ∧ TookRouts s.2 rs qs) := by
  induction items generalizing s w v with
  | nil => exact ⟨[], s.1, s.2, .nil hb, rfl, (List.append_nil _).symm⟩
  | cons item items ih =>
    unfold yForSeq
    refine Runs.bind (processParseItem_builds hb) ?_
    intro r t ht
    obtain ⟨rs, n, qs, ⟨u, hu, hbu⟩, rfl, hq⟩ := ht
    refine Runs.imp (ih (s := (n, qs)) hbu) ?_
    intro r' t' ht'
    obtain ⟨rs', n', qs', ⟨u', hu', hbu'⟩, rfl, hq'⟩ := ht'
    refine ⟨rs ++ rs', n', qs', ⟨u', ?_, hbu'⟩, rfl, ?_⟩
    · rw [List.flatMap_cons]
      exact mapM_append_ok hu hu'
    · unfold TookRouts at hq hq' ⊢
      rw [hq', hq, List.filterMap_append, List.append_assoc]

theorem processParseKey_builds :
    TurnBuilds (processParseKey doc) routBuild
      (fun key items => if key = "rules" ∨ key = "r" then
        items.flatMap (fun item => itemListed doc (doc.node item)) else [])
      namesProcess ProcessArgs.name (fun s rs t => TookRouts s.routJQ rs t.routJQ)
      (fun s => s.errCnt ≠ 0) := by
  intro key val s w v hb
  have hnone : ∀ {t : ProcessArgs}, t.routJQ = s.routJQ → TookRouts s.routJQ [] t.routJQ := by
    intro t ht
    exact ht.trans (List.append_nil _).symm
  have hsay : ∀ msg, Beside id id w { v with log := v.log ++ [msg] } := by
    intro msg
    obtain ⟨l, rfl⟩ := hb
    exact ⟨l ++ [msg], rfl⟩
  unfold processParseKey
  cases val with
  | scalar txt =>
    by_cases hk : key = "process" ∨ key = "p"
    · simp only [hk, if_true]
      refine ⟨[], .nil hb, hnone rfl, fun _ h => (by cases h), ?_⟩
      simp only [nextName, namesProcess, Bool.or_eq_true, decide_eq_true_eq, hk, if_true]
    · simp only [hk, if_false]
      refine ⟨[], .nil (hsay _), hnone rfl, fun _ h => (by cases h), ?_⟩
      simp only [nextName, namesProcess, Bool.or_eq_true, decide_eq_true_eq, hk, if_false]
  | sequence items =>
    by_cases hr : key = "rules" ∨ key = "r"
    · simp only [hr, if_true]
      refine Runs.bind (yForSeq_routs hb) ?_
      intro r t ht
      obtain ⟨rs, n, qs, hrs, rfl, hq⟩ := ht
      refine ⟨rs, ?_, hq, fun _ h => (by cases h), rfl⟩
      simp only [pairListed, hr, if_true]
      exact hrs
    · simp only [hr, if_false]
      refine ⟨[], ?_, hnone rfl, fun _ h => (by cases h), rfl⟩
      simp only [pairListed, hr, if_false]
      exact .nil (hsay _)
  | mapping pairs =>
    refine ⟨[], .nil (hsay _), hnone rfl, ⟨pairs, rfl⟩, ?_⟩
    change s.errCnt + 1 ≠ 0
    omega

/-- The walk of `process_parse` queues what could be built of what the mapping lists. -/
theorem processWalk_builds :
    Runs (fun _ => True) (yForMap doc (processParseKey doc) mapping ⟨0, "", []⟩) w
      (fun r t => ∃ rs, Attempts routBuild (processListed doc mapping) w rs t ∧
        r.state.routJQ = rs.filterMap id ∧
        match r with
        | .go s => ¬ Stops doc mapping ∧ s.name = lastName doc namesProcess mapping
        | .die s => Stops doc mapping ∧ s.errCnt ≠ 0) := by
  refine Runs.imp (yForMap_builds ?_ ?_ processParseKey_builds ⟨w.log, rfl⟩) ?_
  · intro s
    exact (List.append_nil _).symm
  · intro s t u rs qs h h'
    unfold TookRouts at h h' ⊢
    rw [h', h, List.append_assoc, List.filterMap_append]
  · intro r t ht
    obtain ⟨rs, hrs, htook, hr⟩ := ht
    refine ⟨rs, hrs, htook, ?_⟩
    cases r with
    | go s => exact hr
    | die s => exact hr

end Processes

end Xdpacket
