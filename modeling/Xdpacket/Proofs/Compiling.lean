import Xdpacket.Proofs.AllOrNothing
import Xdpacket.Proofs.Replies
import Xdpacket.Proofs.Resolving
import Xdpacket.Proofs.Teardown

namespace Xdpacket

variable {w v u : World} {live live' : Multiset Ref} {env : Env} {a : Addr} {n : Text}
  {doc : Document} {mapping : Pairs doc} {α σ τ : Type}

section Counting

/-- A walk loses nothing of what is listed: its turns make up for all of it, in errors or in
what they queue. -/
theorem yForMap_counts {statements : Text → Node doc.size → σ → M (Step σ)} {size : σ → Nat}
    {here : Text → List (Fin doc.size) → List α} {s : σ}
    (hturn : ∀ key val s w, Runs (fun _ => True) (statements key val s) w (fun r _ =>
      size s + (pairListed here key val).length ≤ size r.state ∧
        ∀ t, r = .die t → ∃ pairs, val = .mapping pairs)) :
    Runs (fun _ => True) (yForMap doc statements mapping s) w (fun r _ =>
      size s + (listedBefore doc here mapping).length ≤ size r.state) := by
  induction mapping generalizing s w with
  | nil => exact Nat.le_refl _
  | cons pair pairs ih =>
    obtain ⟨k, x⟩ := pair
    refine yForMap_turn trivial ?_
    intro key hk
    refine (hturn key (doc.node x) s w).imp ?_
    intro r v hr
    obtain ⟨hle, hdie⟩ := hr
    have hcons : (listedBefore doc here ((k, x) :: pairs)).length ≤
        (pairListed here key (doc.node x)).length + (listedBefore doc here pairs).length := by
      cases hn : doc.node x <;> simp [listedBefore, hn, hk, Node.txt]
    cases r with
    | die t =>
      obtain ⟨items, hx⟩ := hdie t rfl
      have hzero : (listedBefore doc here ((k, x) :: pairs)).length = 0 := by
        simp [listedBefore, hx]
      change size s + _ ≤ size t
      change size s + _ ≤ size t at hle
      omega
    | go t =>
      refine ih.imp ?_
      intro r' _ hr'
      change size s + _ ≤ size t at hle
      omega

/-- So with the items of a list. -/
theorem yForSeq_counts {statements : Node doc.size → Nat × List τ → M (Step (Nat × List τ))}
    {items : List (Fin doc.size)} {s : Nat × List τ} {count : Node doc.size → Nat}
    (hturn : ∀ item s w, Runs (fun _ => True) (statements item s) w (fun r _ => ∃ t, r = .go t ∧
      s.1 + s.2.length + count item ≤ t.1 + t.2.length)) :
    Runs (fun _ => True) (yForSeq doc statements items s) w (fun r _ =>
      s.1 + s.2.length + (items.map (fun item => count (doc.node item))).sum ≤
        r.state.1 + r.state.2.length) := by
  induction items generalizing s w with
  | nil => exact Nat.le_refl _
  | cons item items ih =>
    unfold yForSeq
    refine (hturn (doc.node item) s w).bind ?_
    intro r v hr
    obtain ⟨t, rfl, hle⟩ := hr
    refine Runs.imp ih ?_
    intro r' _ hr'
    rw [List.map_cons, List.sum_cons]
    omega

end Counting

section Library

/-- The rule of a name: what it checks and what it writes. -/
def World.library (w : World) (n : Text) : Option (List (Transfer Text) × List (Transfer Text)) :=
  (AList.lookup n w.ruleJS).bind (fun a => (w.rules a).map (fun r =>
    (r.matchJQ.map (fun op => w.transfer op.set), r.writeJQ.map (fun op => w.transfer op.set))))

theorem library_stored {r : Rule} (hl : AList.lookup n w.ruleJS = some a) (hr : w.rules a = some r) :
    w.library n = some (r.matchJQ.map (fun op => w.transfer op.set),
      r.writeJQ.map (fun op => w.transfer op.set)) := by
  simp [World.library, hl, hr]

/-- A rule that is there before and after stands for the same transfers. -/
theorem rule_lasts {r q : Rule} (h : Consistent w live) (h' : Consistent v live') (hq : Quiet w v)
    (hr : w.rules a = some r) (hv : v.rules a = some q) :
    q.matchJQ.map (fun op => v.transfer op.set) = r.matchJQ.map (fun op => w.transfer op.set) ∧
      q.writeJQ.map (fun op => v.transfer op.set) = r.writeJQ.map (fun op => w.transfer op.set) := by
  have hk : q.key = r.key := hq.rules.same h.fresh.rules hr hv
  have hm : q.matchJQ = r.matchJQ := (Prod.mk.inj (Prod.mk.inj hk).2).1
  have hw : q.writeJQ = r.writeJQ := (Prod.mk.inj (Prod.mk.inj hk).2).2
  have hlast : ∀ op ∈ r.matchJQ ++ r.writeJQ, v.transfer op.set = w.transfer op.set := by
    intro op ho
    refine transfer_lasts h hq (h.wired hr ho) (h'.wired hv ?_)
    rw [hm, hw]
    exact ho
  rw [hm, hw]
  exact ⟨List.map_congr_left (fun op ho => hlast op (List.mem_append_left _ ho)),
    List.map_congr_left (fun op ho => hlast op (List.mem_append_right _ ho))⟩

/-- A rule that stays in its store stays as it is. -/
theorem library_kept (h : Consistent w live) (h' : Consistent v live') (hq : Quiet w v)
    (hj : AList.lookup n v.ruleJS = AList.lookup n w.ruleJS) : v.library n = w.library n := by
  unfold World.library
  rw [hj]
  refine Option.bind_congr (fun a ha => ?_)
  obtain ⟨r, hr, -⟩ := h.rules.found ha
  obtain ⟨q, hv, -⟩ := h'.rules.found (hj.trans ha)
  obtain ⟨hm, hw⟩ := rule_lasts h h' hq hr hv
  rw [hr, hv, Option.map_some, Option.map_some, hm, hw]

/-- The items that a rule mapping lists for one queue. -/
def listedFor (q : OpQueue) (doc : Document) (mapping : Pairs doc) : List (Node doc.size) :=
  (ruleListed doc mapping).filterMap (fun x => if x.1 = q then some x.2 else none)

/-- An operation that was built, and the transfer that it was when it was built. -/
def BuiltAs (env : Env) (doc : Document) (w v : World) (x : OpQueue × Node doc.size)
    (r : OpQueue × Option Op) : Prop :=
  r.1 = x.1 ∧ ∀ op, r.2 = some op → ∃ u live, Consistent u live ∧ Quiet u v ∧ Wired u op.set ∧
    w.compile env doc x.2 = some (u.transfer op.set)

theorem Same.compile (h : Same w v) : v.compile env doc = w.compile env doc := by
  have hfields : v.fieldNamed = w.fieldNamed := by
    funext n
    unfold World.fieldNamed
    rw [h.fieldJS]
    congr 1
    funext a
    have hk := congrArg (Option.map Prod.snd) (h.fieldKeys a)
    rwa [Option.map_map, Option.map_map] at hk
  funext item
  unfold World.compile World.resolve
  rw [hfields]

/-- What was built of the listed operations. -/
theorem built_compiles {xs : List (OpQueue × Node doc.size)} {rs : List (OpQueue × Option Op)}
    (h : Consistent w live) (hr : xs.mapM (ruleBuild env doc) w = .ok (rs, u)) :
    Same w u ∧ List.Forall₂ (BuiltAs env doc w u) xs rs := by
  induction xs generalizing w live rs with
  | nil =>
    rw [List.mapM_nil] at hr
    obtain ⟨rfl, rfl⟩ := pure_eq_ok.mp hr
    exact ⟨.refl h.fresh, .nil⟩
  | cons x xs ih =>
    rw [List.mapM_cons] at hr
    obtain ⟨r, v, hx, hr⟩ := bind_eq_ok.mp hr
    obtain ⟨qs, t, hxs, hr⟩ := bind_eq_ok.mp hr
    obtain ⟨rfl, rfl⟩ := pure_eq_ok.mp hr
    obtain ⟨op, v', hop, hx⟩ := bind_eq_ok.mp hx
    obtain ⟨rfl, rfl⟩ := pure_eq_ok.mp hx
    obtain ⟨hs, hc, hbuilt⟩ := (opBuild_compiles h).ok hop
    obtain ⟨hs', htail⟩ := ih hc hxs
    refine ⟨hs.trans hs', .cons ⟨rfl, fun o ho => ?_⟩ (htail.imp (fun y q hy => ?_))⟩
    · obtain ⟨hwired, hcomp⟩ := hbuilt o ho
      exact ⟨v, _, hc, hs'.toQuiet, hwired, hcomp⟩
    · unfold BuiltAs at hy
      rwa [hs.compile] at hy

theorem answersFor_cons {q q' : OpQueue} {o : Option Op} {rs : List (OpQueue × Option Op)} :
    answersFor q ((q', o) :: rs) = if q' = q then o :: answersFor q rs else answersFor q rs := by
  by_cases hq : q' = q <;> simp [answersFor, hq]

/-- The part of the answers that is for one queue. -/
theorem built_for {xs : List (OpQueue × Node doc.size)} {rs : List (OpQueue × Option Op)}
    (q : OpQueue) (h : List.Forall₂ (BuiltAs env doc w u) xs rs) :
    List.Forall₂ (fun item r => BuiltAs env doc w u (q, item) (q, r))
      (xs.filterMap (fun x => if x.1 = q then some x.2 else none)) (answersFor q rs) := by
  induction h with
  | nil => exact .nil
  | @cons x r xs rs hx _ ih =>
    obtain ⟨q', item⟩ := x
    obtain ⟨q'', o⟩ := r
    obtain ⟨rfl, hop⟩ := hx
    rw [answersFor_cons]
    by_cases hq : q'' = q
    · subst hq
      simpa using ⟨⟨rfl, hop⟩, ih⟩
    · simpa [hq] using ih

theorem builtFor_answers {q : OpQueue} {rs : List (OpQueue × Option Op)} :
    builtFor q rs = (answersFor q rs).filterMap id := by
  induction rs with
  | nil => rfl
  | cons r rs ih =>
    obtain ⟨q', o⟩ := r
    have hcons : builtFor q ((q', o) :: rs) =
        if q' = q then o.toList ++ builtFor q rs else builtFor q rs := by
      cases o <;> by_cases hq : q' = q <;> simp [builtFor, hq]
    rw [hcons, answersFor_cons, ih]
    cases o <;> by_cases hq : q' = q <;> simp [hq]

end Library

section Walks

def RuleArgs.size (s : RuleArgs) : Nat := s.errCnt + s.matchJQ.length + s.writeJQ.length

theorem ruleParseItem_counts {item : Node doc.size} {s : Nat × List Op} :
    Runs (fun _ => True) (ruleParseItem env doc item s) w (fun r _ => ∃ t, r = .go t ∧
      s.1 + s.2.length + 1 ≤ t.1 + t.2.length) := by
  unfold ruleParseItem
  cases item with
  | scalar txt => exact ⟨_, rfl, by dsimp only; omega⟩
  | sequence items => exact ⟨_, rfl, by dsimp only; omega⟩
  | mapping map =>
    refine Runs.any.bind ?_
    intro op v _
    cases op with
    | none => exact ⟨_, rfl, by dsimp only; omega⟩
    | some op => exact ⟨_, rfl, by simp only [List.length_append, List.length_singleton]; omega⟩

theorem ruleParseKey_counts {key : Text} {val : Node doc.size} {s : RuleArgs} :
    Runs (fun _ => True) (ruleParseKey env .add doc key val s) w (fun r _ =>
      s.size + (pairListed (fun key items => (opQueueOf key).elim []
        (fun q => items.map (fun item => (q, doc.node item)))) key val).length ≤ r.state.size ∧
          ∀ t, r = .die t → ∃ pairs, val = .mapping pairs) := by
  have hlist : ∀ {mine : List Op} {items : List (Fin doc.size)}, Runs (fun _ => True)
      (yForSeq doc (ruleParseItem env doc) items (s.errCnt, mine)) w (fun r _ =>
        s.errCnt + mine.length + items.length ≤ r.state.1 + r.state.2.length) := by
    intro mine items
    refine (@yForSeq_counts w doc _ (ruleParseItem env doc) items _ (fun _ => 1)
      (fun _ _ _ => ruleParseItem_counts)).imp ?_
    intro r _ hr
    simpa using hr
  unfold ruleParseKey
  cases val with
  | scalar txt =>
    simp only []
    split
    · exact ⟨Nat.le_refl _, fun _ h => (by cases h)⟩
    · refine ⟨?_, fun _ h => (by cases h)⟩
      simp only [pairListed, RuleArgs.size, Step.state, List.length_nil]
      omega
  | sequence items =>
    simp only [ne_eq, not_true_eq_false, if_false]
    by_cases hm : key = "match" ∨ key = "m"
    · rw [if_pos hm]
      refine hlist.bind ?_
      intro r _ hr
      refine ⟨?_, fun _ h => (by cases h)⟩
      simp only [pairListed, opQueueOf, hm, if_true, Option.elim_some, List.length_map, RuleArgs.size,
        Step.state] at hr ⊢
      omega
    rw [if_neg hm]
    by_cases hw : key = "write" ∨ key = "w"
    · rw [if_pos hw]
      refine hlist.bind ?_
      intro r _ hr
      refine ⟨?_, fun _ h => (by cases h)⟩
      simp only [pairListed, opQueueOf, hm, hw, if_true, if_false, Option.elim_some, List.length_map,
        RuleArgs.size, Step.state] at hr ⊢
      omega
    · rw [if_neg hw]
      refine ⟨?_, fun _ h => (by cases h)⟩
      simp only [pairListed, opQueueOf, hm, hw, if_false, Option.elim_none, List.length_nil,
        RuleArgs.size, Step.state]
      omega
  | mapping pairs =>
    refine ⟨?_, fun _ _ => ⟨pairs, rfl⟩⟩
    simp only [pairListed, RuleArgs.size, Step.state, List.length_nil]
    omega

/-- What is listed and not queued is an error. -/
theorem ruleWalk_counts : Runs (fun _ => True)
    (yForMap doc (ruleParseKey env .add doc) mapping ⟨0, "", [], []⟩) w (fun r _ =>
      (ruleListed doc mapping).length ≤ r.state.size) := by
  refine Runs.imp (yForMap_counts (fun _ _ _ _ => ruleParseKey_counts)) ?_
  intro r _ hr
  simpa [RuleArgs.size, ruleListed] using hr

/-- The name of a rule in any other mode. -/
theorem ruleParseKey_names {mode : ParseMode} (hm : mode ≠ .add) :
    TurnBuilds (ruleParseKey env mode doc) (ruleBuild env doc) (fun _ _ => []) namesRule RuleArgs.name
      (fun _ _ _ => True) (fun s => s.errCnt ≠ 0) := by
  intro key val s w v hb
  have hsay : ∀ msg, Beside id id w { v with log := v.log ++ [msg] } := by
    intro msg
    obtain ⟨l, rfl⟩ := hb
    exact ⟨l ++ [msg], rfl⟩
  unfold ruleParseKey
  cases val with
  | scalar txt =>
    simp only []
    by_cases hk : key = "rule" ∨ key = "r"
    · rw [if_pos hk]
      refine ⟨[], .nil hb, trivial, fun _ h => (by cases h), ?_⟩
      simp [nextName, namesRule, hk]
    · rw [if_neg hk]
      refine ⟨[], .nil (hsay _), trivial, fun _ h => (by cases h), ?_⟩
      simp [nextName, namesRule, hk]
  | sequence items =>
    simp only [hm, ne_eq, not_false_eq_true, if_true]
    exact ⟨[], .nil (hsay _), trivial, fun _ h => (by cases h), rfl⟩
  | mapping pairs => exact ⟨[], .nil (hsay _), trivial, ⟨pairs, rfl⟩, Nat.succ_ne_zero _⟩

/-- A walk that counts no error built all that is listed. -/
theorem all_built {rs : List (OpQueue × Option Op)} {s : RuleArgs}
    (hl : rs.length ≤ s.size) (hm : s.matchJQ = builtFor .matchJQ rs)
    (hw : s.writeJQ = builtFor .writeJQ rs) (he : s.errCnt = 0) : ∀ r ∈ rs, r.2.isSome := by
  have hcount : (builtFor .matchJQ rs).length + (builtFor .writeJQ rs).length =
      (rs.filterMap Prod.snd).length := by
    clear hl hm hw
    induction rs with
    | nil => rfl
    | cons r rs ih =>
      obtain ⟨q, o⟩ := r
      cases q <;> cases o <;> simp [builtFor] at ih ⊢ <;> omega
  simp only [RuleArgs.size, hm, hw, he] at hl
  have hle := List.length_filterMap_le Prod.snd rs
  refine List.filterMap_length_eq_length.mp ?_
  omega

/-- What one queue gets. -/
theorem queue_translated {q : OpQueue} {rs : List (OpQueue × Option Op)}
    (h : Consistent w live) (hu : (ruleListed doc mapping).mapM (ruleBuild env doc) w = .ok (rs, u))
    (hq : Quiet u v) (hwired : ∀ op ∈ builtFor q rs, Wired v op.set) :
    Translated (w.compile env doc) (listedFor q doc mapping) (answersFor q rs)
      ((builtFor q rs).map (fun op => v.transfer op.set)) := by
  obtain ⟨-, hbuilt⟩ := built_compiles h hu
  obtain ⟨hlen, hzip⟩ := List.forall₂_iff_zip.mp (built_for q hbuilt)
  rw [builtFor_answers] at hwired ⊢
  rw [← List.filterMap_eq_map]
  refine .of_answers (List.forall₂_iff_zip.mpr ⟨hlen, fun hm op ho => ⟨_, rfl, ?_⟩⟩)
  subst ho
  obtain ⟨-, hop⟩ := hzip hm
  obtain ⟨t, live', hc, hqt, hw, hcomp⟩ := hop op rfl
  have hmem : op ∈ (answersFor q rs).filterMap id :=
    List.mem_filterMap.mpr ⟨_, (List.of_mem_zip hm).2, rfl⟩
  exact hcomp.trans (congrArg some (transfer_lasts hc (hqt.trans hq) hw (hwired op hmem)).symm)

end Walks

section Commands

/-- A rule that was compiled: a transfer for exactly the listed operations that were built, in
the order of each list, and all of them were where no error was reported. -/
def Compiled (env : Env) (doc : Document) (mapping : Pairs doc) (w : World) (errs : Nat)
    (checks writes : List (Transfer Text)) : Prop :=
  ∃ rs u, (ruleListed doc mapping).mapM (ruleBuild env doc) w = .ok (rs, u) ∧
    (errs = 0 → ∀ r ∈ rs, r.2.isSome) ∧
      Translated (w.compile env doc) (listedFor .matchJQ doc mapping) (answersFor .matchJQ rs) checks ∧
        Translated (w.compile env doc) (listedFor .writeJQ doc mapping) (answersFor .writeJQ rs) writes

/-- What a rule mapping makes of the library. -/
def LibraryEdited (env : Env) (doc : Document) (mapping : Pairs doc) (w : World) (mode : ParseMode)
    (errs : Nat) (v : World) : Prop :=
  match mode with
  | .add => errs ≠ 0 ∧ v.library = w.library ∨
      w.library (lastName doc namesRule mapping) = none ∧ ∃ checks writes,
        Compiled env doc mapping w errs checks writes ∧
          v.library = Function.update w.library (lastName doc namesRule mapping)
            (some (checks, writes))
  | .del => errs ≠ 0 ∧ v.library = w.library ∨
      v.library = Function.update w.library (lastName doc namesRule mapping) none
  | .prn | .invalid => v.library = w.library

/-- `rule_new` stores what it makes under its name. -/
theorem ruleNew_publishes {xs ys : List Op} : Runs (fun _ => True) (ruleNew env n xs ys) w
    (fun r v => ∀ a, r = some a → v.ruleJS = w.ruleJS.insert n a) := by
  unfold ruleNew
  refine Runs.bind calloc_idle ?_
  intro ret v hv
  cases ret with
  | none => exact Runs.any.bind (fun _ _ _ => nothing_made)
  | some ret =>
    refine Runs.bind strAlloc_idle ?_
    intro copied v₁ hv₁
    cases copied with
    | null | inval | truncated copy => exact Runs.any.bind (fun _ _ _ => nothing_made)
    | copy =>
      rw [Runs.bind_iff, Runs.get_iff]
      split
      · exact Runs.any.bind (fun _ _ _ => nothing_made)
      · intro a ha
        cases ha
        change v₁.ruleJS.insert n ret = _
        rw [hv₁.1.ruleJS, hv.1.ruleJS]

/-- `rule_parse` in mode `add`, after the walk. -/
theorem ruleParseMode_adds {s : RuleArgs} (h : Queued live (s.matchJQ ++ s.writeJQ) w) :
    Frames NoDangle Quiet (ruleParseMode env .add s) w (fun errs v => Consistent v live ∧
      s.errCnt ≤ errs ∧ (errs ≠ 0 ∧ v.ruleJS = w.ruleJS ∨ AList.lookup s.name w.ruleJS = none ∧
        ∃ a, v.ruleJS = w.ruleJS.insert s.name a ∧
          v.rules a = some ⟨s.name, s.matchJQ, s.writeJQ, 0⟩)) := by
  obtain ⟨hc, hops⟩ := h
  rw [opsRefs_append] at hc
  unfold ruleParseMode
  refine Runs.bind ((ruleNew_does hc hops).and ruleNew_publishes) ?_
  intro r v hv
  obtain ⟨⟨hq, hcv, hr⟩, hpub⟩ := hv
  cases r with
  | none =>
    refine Runs.imp (parseDie_idle.and (parseDie_keep hcv)) ?_
    intro errs u hu
    obtain ⟨⟨-, he⟩, hs, hcu, hne⟩ := hu
    exact ⟨hq.trans hs.toQuiet, hcu, by omega, .inl ⟨hne, hs.ruleJS.trans hr.ruleJS⟩⟩
  | some a =>
    refine Runs.imp ((parseEmit_idle (ruleEmit_idle hcv hr.1)).and (Reports.parseEmit.runs v)) ?_
    intro errs u hu
    obtain ⟨⟨hi, -⟩, hle⟩ := hu
    refine ⟨hq.trans (hi.quiet hcv.fresh), hi.consistent hcv, hle, .inr ⟨hr.2, a, ?_, ?_⟩⟩
    · rw [hi.ruleJS, hpub a rfl]
    · rw [hi.rules]
      exact hr.1

/-- `rule_parse` in mode `del`, after the walk. -/
theorem ruleParseMode_erases {s : RuleArgs} (h : Consistent w live) :
    Frames NoDangle Quiet (ruleParseMode env .del s) w (fun errs v => Consistent v live ∧
      (errs ≠ 0 ∧ v.ruleJS = w.ruleJS ∨ v.ruleJS = w.ruleJS.erase s.name)) := by
  have hdie : ∀ {u : World} {msg : Text}, Idle w u → Frames NoDangle Quiet (parseDie s.errCnt msg) u
      (fun errs v => Consistent v live ∧
        (errs ≠ 0 ∧ v.ruleJS = w.ruleJS ∨ v.ruleJS = w.ruleJS.erase s.name)) := by
    intro u msg hi
    refine Runs.imp (parseDie_keep (hi.consistent h)) ?_
    intro errs v hv
    obtain ⟨hs, hcv, hne⟩ := hv
    exact ⟨hs.toQuiet, hcv, .inl ⟨hne, hs.ruleJS.trans hi.ruleJS⟩⟩
  simp only [ruleParseMode]
  rw [jsGet_bind]
  cases hl : AList.lookup s.name w.ruleJS with
  | none => exact hdie (.refl w)
  | some a =>
    obtain ⟨r, hr, -⟩ := h.rules.found hl
    simp only []
    rw [deref_bind hr]
    by_cases hz : r.refcnt = 0
    · rw [if_neg (not_not.mpr hz)]
      refine Runs.bind (ruleEmit_idle h hr) ?_
      intro rc v hv
      obtain ⟨hi, -⟩ := hv
      split
      · exact Runs.imp (hdie hi) (fun _ _ hu => ⟨(hi.quiet h.fresh).trans hu.1, hu.2⟩)
      · have hlv : AList.lookup s.name v.ruleJS = some a := by
          rw [hi.ruleJS]
          exact hl
        refine Runs.bind (Runs.mono (ruleFreeAt_erases (hi.consistent h) hlv) (fun _ hf => hf.elim)
          (fun _ _ hu => hu)) ?_
        intro _ u hu
        obtain ⟨hq, hcu, hjs, -⟩ := hu
        refine ⟨(hi.quiet h.fresh).trans hq.toQuiet, hcu, .inr ?_⟩
        rcases hjs with ⟨hj, -⟩ | ⟨-, -, q, hq', hne⟩
        · rw [hj, hi.ruleJS]
        · rw [hi.rules, hr] at hq'
          cases hq'
          exact absurd hz hne
    · rw [if_pos hz]
      exact hdie (.refl w)

theorem library_unchanged (h : Consistent w live) (h' : Consistent v live') (hq : Quiet w v)
    (hj : v.ruleJS = w.ruleJS) : v.library = w.library :=
  funext (fun n => library_kept h h' hq (by rw [hj]))

/-- `rule_parse` where it only prints, after the walk. -/
theorem ruleParseMode_prints {mode : ParseMode} {s : RuleArgs} (h : Consistent w live)
    (hm : mode = .prn ∨ mode = .invalid) :
    Frames NoDangle Idle (ruleParseMode env mode s) w (fun _ _ => True) := by
  rcases hm with rfl | rfl
  · simp only [ruleParseMode]
    split
    · exact (parseEmit_idle (ruleEmitAll_idle h)).imp (fun _ _ _ => trivial)
    · rw [jsGet_bind]
      cases hl : AList.lookup s.name w.ruleJS with
      | none => exact ⟨.refl w, trivial⟩
      | some a =>
        obtain ⟨r, hr, -⟩ := h.rules.found hl
        exact (parseEmit_idle (ruleEmit_idle h hr)).imp (fun _ _ _ => trivial)
  · exact parseDie_idle.imp (fun _ _ _ => trivial)

theorem library_erased (h : Consistent w live) (h' : Consistent v live') (hq : Quiet w v)
    (hj : v.ruleJS = w.ruleJS.erase n) : v.library = Function.update w.library n none := by
  funext k
  by_cases hk : k = n
  · subst hk
    simp [World.library, hj]
  · rw [Function.update_of_ne hk]
    exact library_kept h h' hq (by rw [hj, AList.lookup_erase_ne hk])

/-- A new rule is the only change of the library. -/
theorem library_added {rs : List (OpQueue × Option Op)} {errs : Nat}
    (h : Consistent w live) (h' : Consistent v live') (hq : Quiet w v) (huv : Quiet u v)
    (hu : (ruleListed doc mapping).mapM (ruleBuild env doc) w = .ok (rs, u))
    (hfree : AList.lookup n w.ruleJS = none) (hj : v.ruleJS = w.ruleJS.insert n a)
    (hra : v.rules a = some ⟨n, builtFor .matchJQ rs, builtFor .writeJQ rs, 0⟩)
    (herr : errs = 0 → ∀ r ∈ rs, r.2.isSome) :
    w.library n = none ∧ ∃ checks writes,
      Compiled env doc mapping w errs checks writes ∧
        v.library = Function.update w.library n (some (checks, writes)) := by
  have hwired : ∀ q, ∀ op ∈ builtFor q rs, Wired v op.set := by
    intro q op ho
    refine h'.wired hra ?_
    cases q with
    | matchJQ => exact List.mem_append_left _ ho
    | writeJQ => exact List.mem_append_right _ ho
  refine ⟨by simp [World.library, hfree], _, _, ⟨rs, u, hu, herr,
    queue_translated h hu huv (hwired _), queue_translated h hu huv (hwired _)⟩, ?_⟩
  funext k
  by_cases hk : k = n
  · subst hk
    rw [Function.update_self]
    exact library_stored (by rw [hj, AList.lookup_insert]) hra
  · rw [Function.update_of_ne hk]
    exact library_kept h h' hq (by rw [hj, AList.lookup_insert_ne hk])

/-- `rule_parse` -/
theorem ruleParse_edits {mode : ParseMode} (h : Consistent w live) :
    Runs NoDangle (ruleParse env mode doc mapping) w (fun errs v =>
      LibraryEdited env doc mapping w mode errs v) := by
  unfold ruleParse
  by_cases hm : mode = .add
  · subst hm
    refine Runs.bind (((ruleWalk_does h).and ruleWalk_builds).and ruleWalk_counts) ?_
    intro r t ht
    obtain ⟨⟨⟨hs, hq⟩, rs, ⟨u, hu, hb⟩, hmatch, hwrite, hend⟩, hcount⟩ := ht
    cases r with
    | die s => exact .inl ⟨hend.2, library_unchanged h hq.queued.1 hs.toQuiet hs.ruleJS⟩
    | go s =>
      obtain ⟨-, hname⟩ := hend
      refine Runs.imp (ruleParseMode_adds hq.queued) ?_
      intro errs v hv
      obtain ⟨hqv, hcv, hle, hstore⟩ := hv
      have hqw := hs.toQuiet.trans hqv
      rcases hstore with ⟨hne, hj⟩ | ⟨hfree, a, hj, hra⟩
      · exact .inl ⟨hne, library_unchanged h hcv hqw (hj.trans hs.ruleJS)⟩
      · obtain ⟨l, rfl⟩ := hb
        have hut : Idle u (u.aside id id l) := { Idle.refl u with next := Nat.le_refl _ }
        have hfresh : Fresh u := { hq.queued.1.fresh with }
        have hlen := (built_compiles h hu).2.length_eq
        simp only [Step.state] at hmatch hwrite hcount
        rw [hmatch, hwrite] at hra
        unfold LibraryEdited
        rw [← hname]
        exact .inr (library_added h hcv hqw ((hut.quiet hfresh).trans hqv) hu (hs.ruleJS ▸ hfree)
          (hs.ruleJS ▸ hj) hra (fun he => all_built (hlen ▸ hcount) hmatch hwrite (by omega)))
  · refine Runs.bind ((ruleWalk_does h).and (yForMap_builds (fun _ => trivial)
      (fun _ _ _ _ _ _ _ => trivial) (ruleParseKey_names hm) ⟨w.log, rfl⟩)) ?_
    intro r t ht
    obtain ⟨⟨hs, hq⟩, rs, -, -, hend⟩ := ht
    have hct : Consistent t live := by
      obtain ⟨hma, hwr⟩ := hq.adding hm
      have hc := hq.queued.1
      rwa [hma, hwr, List.append_nil, opsRefs_nil, zero_add] at hc
    have hkept : ∀ {v : World}, Idle t v → v.library = w.library := fun hi =>
      library_unchanged h (hi.consistent hct) (hs.toQuiet.trans (hi.quiet hct.fresh))
        (hi.ruleJS.trans hs.ruleJS)
    cases r with
    | die s =>
      cases mode with
      | add => exact absurd rfl hm
      | del => exact .inl ⟨hend.2, hkept (.refl t)⟩
      | prn | invalid => exact hkept (.refl t)
    | go s =>
      obtain ⟨-, hname⟩ := hend
      cases mode with
      | add => exact absurd rfl hm
      | prn | invalid =>
        refine Runs.imp (ruleParseMode_prints hct (by simp)) ?_
        exact fun errs v hv => hkept hv.1
      | del =>
        refine Runs.imp (ruleParseMode_erases hct) ?_
        intro errs v hv
        obtain ⟨hqv, hcv, hj⟩ := hv
        have hqw := hs.toQuiet.trans hqv
        rcases hj with ⟨hne, hj⟩ | hj
        · exact .inl ⟨hne, library_unchanged h hcv hqw (hj.trans hs.ruleJS)⟩
        · have hname : s.name = lastName doc namesRule mapping := hname
          exact .inr (library_erased h hcv hqw (by rw [hj, hs.ruleJS, hname]))

/-- Whatever has happened, a rule mapping edits the rule that it names and no other: adding
compiles what it lists into transfers between the fields, states and values that are named. -/
theorem rule_compiled (env : Env) (openFds : List Nat) (oom sys : List Bool)
    (events : List Event) :
    Runs NoDangle (handleAll env events) (World.start openFds oom sys) (fun _ w =>
      ∀ mode doc mapping, Runs NoDangle (ruleParse env mode doc mapping) w (fun errs v =>
        LibraryEdited env doc mapping w mode errs v)) := by
  refine (handleAll_consistent (consistent_start openFds oom sys)).imp ?_
  rintro _ w ⟨live, h⟩ mode doc mapping
  exact ruleParse_edits h

end Commands

end Xdpacket
