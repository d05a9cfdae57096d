import Xdpacket.Proofs.Compiling

namespace Xdpacket

variable {w v u : World} {live live' : Multiset Ref} {env : Env} {a b rst : Addr} {n : Text}
  {x : Option Text × Option Text} {xs : List (Option Text × Option Text)} {rt : Rout}
  {rs : List (Option Rout)} {doc : Document} {mapping : Pairs doc}

section Links

/-- The clause that a `rule: iface` pair names, over the rules of the library. -/
def World.link (w : World) (x : Option Text × Option Text) : Option (Clause Text Text) :=
  x.1.bind (fun rule => x.2.bind (fun output =>
    (w.library rule).bind (fun r => (AList.lookup output w.ifaceJS).map (fun _ =>
      { checks := r.1
        writes := r.2
        out := output
        hits := 0 }))))

/-- A rout has the rule and the output that a pair names. -/
def Links (w : World) (x : Option Text × Option Text) (rt : Rout) : Prop :=
  ∃ rule output, x = (some rule, some output) ∧ AList.lookup rule w.ruleJS = some rt.rule ∧
    AList.lookup output w.ifaceJS = some rt.output

theorem ruleGet_found : Runs (fun _ => True) (ruleGet n) w (fun r v =>
    (∀ a, r = some a → AList.lookup n w.ruleJS = some a) ∧ v.ifaceJS = w.ifaceJS) := by
  unfold ruleGet
  rw [jsGet_run]
  cases hl : AList.lookup n w.ruleJS with
  | none => exact ⟨fun a ha => (by cases ha), rfl⟩
  | some a => exact deref_runs (fun r _ => ⟨fun _ hb => hb, rfl⟩)

theorem ifaceGet_found : Runs (fun _ => True) (ifaceGet n) w (fun r _ =>
    ∀ a, r = some a → AList.lookup n w.ifaceJS = some a) := by
  unfold ifaceGet
  rw [jsGet_run]
  cases hl : AList.lookup n w.ifaceJS with
  | none => exact fun a ha => (by cases ha)
  | some a => exact deref_runs (fun i _ _ hb => hb)

/-- `rout_new` finds what the pair names. -/
theorem routBuild_links : Runs (fun _ => True) (routBuild x) w (fun r _ =>
    ∀ rt, r = some rt → Links w x rt) := by
  unfold routBuild routNew
  obtain ⟨rule, output⟩ := x
  cases rule with
  | none => exact nothing_made
  | some rule =>
    cases output with
    | none => exact nothing_made
    | some output =>
      refine Runs.bind alloc_idle ?_
      intro ok v hv
      obtain ⟨hi, -⟩ := hv
      split
      · exact nothing_made
      refine ruleGet_found.bind ?_
      intro r v₁ hr
      cases r with
      | none => exact Runs.any.bind (fun _ _ _ => nothing_made)
      | some r =>
        refine ifaceGet_found.bind ?_
        intro o v₂ ho
        cases o with
        | none => exact Runs.any.bind (fun _ _ _ => nothing_made)
        | some o =>
          refine Runs.any.bind ?_
          intro set v₃ _
          cases set with
          | none => exact Runs.any.bind (fun _ _ _ => nothing_made)
          | some set =>
            intro rt hrt
            cases hrt
            refine ⟨rule, output, rfl, ?_, ?_⟩
            · rw [← hi.ruleJS]
              exact hr.1 r rfl
            · rw [← hi.ifaceJS, ← hr.2]
              exact ho o rfl

/-- What was built of the pairs, each from the names it lists. -/
theorem built_links (h : Consistent w live) (hr : xs.mapM routBuild w = .ok (rs, u)) :
    List.Forall₂ (fun x r => ∀ rt, r = some rt → Links w x rt) xs rs := by
  induction xs generalizing w live rs with
  | nil =>
    rw [List.mapM_nil] at hr
    obtain ⟨rfl, -⟩ := pure_eq_ok.mp hr
    exact .nil
  | cons x xs ih =>
    rw [List.mapM_cons] at hr
    obtain ⟨r, v, hx, hr⟩ := bind_eq_ok.mp hr
    obtain ⟨qs, t, hxs, hr⟩ := bind_eq_ok.mp hr
    obtain ⟨rfl, rfl⟩ := pure_eq_ok.mp hr
    obtain ⟨hs, hc, -⟩ := (routNew_does h).ok hx
    refine .cons (routBuild_links.ok hx) ((ih hc hxs).imp (fun y q hy rt hrt => ?_))
    obtain ⟨rule, output, he, hrule, hout⟩ := hy rt hrt
    exact ⟨rule, output, he, hs.ruleJS ▸ hrule, hs.ifaceJS ▸ hout⟩

end Links

section Clauses

/-- The copied root of a rule's queue leads to the queue. -/
theorem queue_copied {queue : Rule → List Op} {root : Option Addr} {r : Rule}
    (hroot : root = jqRoot a (queue r)) (hr : w.rules a = some r) : w.queue queue root = queue r := by
  subst hroot
  unfold jqRoot
  split
  · rename_i hempty
    rw [List.isEmpty_iff.mp hempty]
    rfl
  · unfold World.queue
    rw [Option.bind_some, hr, Option.elim_some]

/-- A new rout of a stored process stands for the clause that its pair names. -/
theorem link_clause {p : Process} (h : Consistent w live) (h' : Consistent v live') (hq : Quiet w v)
    (hr : Retains w v) (hp : v.processes a = some p) (hrt : rt ∈ p.routJQ) (hnew : w.next ≤ rt.set)
    (hl : Links w x rt) : ∃ c, v.clause rt.set = some c ∧ w.link x = some c := by
  obtain ⟨rule, output, rfl, hrule, hout⟩ := hl
  obtain ⟨r, hrw, -⟩ := h.rules.found hrule
  obtain ⟨i, hiw, hname⟩ := h.ifaces.found hout
  have halive := h'.routAlive hp hrt
  obtain ⟨q, ⟨-, hqv⟩, set, hset, hset', hmatch, hwrite⟩ := halive.rule
  obtain ⟨j, hjv, -⟩ := halive.output
  have hj : j.name = output :=
    (hr.ifaces.same h.fresh.ifaces hiw hjv).trans (Option.some.inj hname)
  have hzero : set.countMatch = 0 := by
    rcases hr.uncounted rt.set set hnew hset with hold | hzero
    · rw [h.fresh.rsets rt.set hnew] at hold
      cases hold
    · exact hzero
  obtain ⟨hm, hw⟩ := rule_lasts h h' hq hrw hqv
  have hclause : v.clause rt.set = some
      { checks := r.matchJQ.map (fun op => w.transfer op.set)
        writes := r.writeJQ.map (fun op => w.transfer op.set)
        out := output
        hits := 0 } := by
    unfold World.clause
    rw [hset, Option.bind_some, hset', hjv, Option.map_some, queue_copied hmatch hqv,
      queue_copied hwrite hqv, hm, hw, hj, hzero]
  refine ⟨_, hclause, ?_⟩
  simp [World.link, library_stored hrule hrw, hout]

/-- A table that was linked: a clause for exactly the listed pairs that were built, in order, and
all of them were where no error was reported. -/
def Linked (w : World) (errs : Nat) (xs : List (Option Text × Option Text))
    (table : List (Clause Text Text)) : Prop :=
  ∃ rs u, xs.mapM routBuild w = .ok (rs, u) ∧ (errs = 0 → ∀ r ∈ rs, r.isSome) ∧
    Translated w.link xs rs table

end Clauses

section Walks

/-- Each pair is a rout or an error. -/
theorem processPairs_count {pairs : Pairs doc} {s : Nat × List Rout} :
    Runs (fun _ => True) (yForMap doc processParsePair pairs s) w (fun r _ => ∃ t, r = .go t ∧
      s.1 + s.2.length + pairs.length ≤ t.1 + t.2.length) := by
  induction pairs generalizing s w with
  | nil => exact ⟨s, rfl, Nat.le_refl _⟩
  | cons pair pairs ih =>
    obtain ⟨k, x⟩ := pair
    refine yForMap_turn trivial ?_
    intro key hk
    have hrest : ∀ {u : Nat × List Rout} {v : World}, s.1 + s.2.length + 1 = u.1 + u.2.length →
        Runs (fun _ => True) (yForMap doc processParsePair pairs u) v (fun r _ => ∃ t, r = .go t ∧
          s.1 + s.2.length + (pairs.length + 1) ≤ t.1 + t.2.length) := by
      intro u v hu
      refine ih.imp ?_
      rintro r _ ⟨t, rfl, ht⟩
      exact ⟨t, rfl, by omega⟩
    unfold processParsePair
    refine Runs.any.bind ?_
    intro rt v _
    cases rt with
    | some rt => exact hrest (by simp only [List.length_append, List.length_singleton]; omega)
    | none => exact hrest (by dsimp only; omega)

theorem processParseItem_counts {item : Node doc.size} {s : Nat × List Rout} :
    Runs (fun _ => True) (processParseItem doc item s) w (fun r _ => ∃ t, r = .go t ∧
      s.1 + s.2.length + (itemListed doc item).length ≤ t.1 + t.2.length) := by
  unfold processParseItem
  cases item with
  | scalar txt => exact ⟨_, rfl, by simp only [itemListed, List.length_singleton]; omega⟩
  | sequence items => exact ⟨_, rfl, by simp only [itemListed, List.length_singleton]; omega⟩
  | mapping pairs =>
    refine processPairs_count.imp ?_
    rintro r _ ⟨t, rfl, ht⟩
    exact ⟨t, rfl, by simpa [itemListed] using ht⟩

def ProcessArgs.size (s : ProcessArgs) : Nat := s.errCnt + s.routJQ.length

theorem processParseKey_counts {key : Text} {val : Node doc.size} {s : ProcessArgs} :
    Runs (fun _ => True) (processParseKey doc key val s) w (fun r _ =>
      s.size + (pairListed (fun key items => if key = "rules" ∨ key = "r" then
        items.flatMap (fun item => itemListed doc (doc.node item)) else []) key val).length ≤
          r.state.size ∧ ∀ t, r = .die t → ∃ pairs, val = .mapping pairs) := by
  unfold processParseKey
  cases val with
  | scalar txt =>
    simp only []
    split
    · exact ⟨Nat.le_refl _, fun _ h => (by cases h)⟩
    · refine ⟨?_, fun _ h => (by cases h)⟩
      simp only [pairListed, ProcessArgs.size, Step.state, List.length_nil]
      omega
  | sequence items =>
    simp only []
    by_cases hr : key = "rules" ∨ key = "r"
    · rw [if_pos hr]
      refine (@yForSeq_counts w doc _ (processParseItem doc) items _
        (fun item => (itemListed doc item).length) (fun _ _ _ => processParseItem_counts)).bind ?_
      intro r _ hle
      refine ⟨?_, fun _ h => (by cases h)⟩
      simp only [pairListed, hr, if_true, List.length_flatMap, ProcessArgs.size, Step.state] at hle ⊢
      omega
    · rw [if_neg hr]
      refine ⟨?_, fun _ h => (by cases h)⟩
      simp only [pairListed, hr, if_false, ProcessArgs.size, Step.state, List.length_nil]
      omega
  | mapping pairs =>
    refine ⟨?_, fun _ _ => ⟨pairs, rfl⟩⟩
    simp only [pairListed, ProcessArgs.size, Step.state, List.length_nil]
    omega

/-- What is listed and not queued is an error. -/
theorem processWalk_counts : Runs (fun _ => True)
    (yForMap doc (processParseKey doc) mapping ⟨0, "", []⟩) w (fun r _ =>
      (processListed doc mapping).length ≤ r.state.size) := by
  refine Runs.imp (yForMap_counts (fun _ _ _ _ => processParseKey_counts)) ?_
  intro r _ hr
  simpa [ProcessArgs.size, processListed] using hr

/-- A walk that counts no error built all that is listed. -/
theorem all_routs {s : ProcessArgs} (hl : rs.length ≤ s.size) (hq : s.routJQ = rs.filterMap id)
    (he : s.errCnt = 0) : ∀ r ∈ rs, r.isSome := by
  simp only [ProcessArgs.size, hq, he] at hl
  have hle := List.length_filterMap_le id rs
  have hlen : (rs.filterMap id).length = rs.length := by omega
  exact List.filterMap_length_eq_length.mp hlen

end Walks

section Ports

/-- A port whose process is not touched has its table still. -/
theorem port_kept (h : Consistent w live) (h' : Consistent v live') (hq : Quiet w v)
    (hr : Reshapes w v) (hj : AList.lookup n v.processJS = AList.lookup n w.processJS)
    (ht : v.tracked = w.tracked) : v.ports n = w.ports n := by
  unfold World.ports
  rw [hj, ht]
  refine Option.bind_congr (fun b hb => ?_)
  obtain ⟨p, hp, -⟩ := h.processes.found hb
  obtain ⟨q, hq', -⟩ := h'.processes.found (hj.trans hb)
  obtain rfl : q = p := hr.processes.same h.fresh.processes hp hq'
  rw [hp, hq', Option.bind_some, Option.bind_some, table_lasts h h' hq hr.toRetains hp hq']

/-- The iface of a name is polled. -/
def World.polled (w : World) (n : Text) : Bool :=
  (AList.lookup n w.ifaceJS).any (fun a => w.tracked.any (fun r => r.2 = a))

/-- The port of a stored process. -/
theorem port_stored {p : Process} {i : Iface} (h : Consistent w live)
    (hl : AList.lookup n w.processJS = some a) (hp : w.processes a = some p)
    (hi : w.ifaces p.inIface = some i) (hn : i.name = n) :
    w.ports n = if w.polled n then some (p.routSetJQ.filterMap w.clause) else none := by
  have hlist : AList.lookup n w.ifaceJS = some p.inIface := h.ifaces.listed hi (by rw [hn])
  unfold World.ports World.polled
  rw [hl, Option.bind_some, hp, Option.bind_some, hlist]
  rfl

/-- `process_new` stores what it makes under the name of its iface. -/
theorem processNew_publishes {rts : List Rout} : Runs (fun _ => True) (processNew n rts) w
    (fun r v => ∀ a, r = some a → ∃ p i, v.processes a = some p ∧ v.ifaces p.inIface = some i ∧
      v.processJS = w.processJS.insert i.name a ∧ v.tracked = w.tracked) := by
  refine (Sparing.calloc.runs w).bind ?_
  intro ret v₁ hv₁
  cases ret with
  | none => exact Runs.any.bind (fun _ _ _ => nothing_made)
  | some ret =>
    rw [Runs.bind_iff, Runs.get_iff]
    split
    · exact Runs.any.bind (fun _ _ _ => nothing_made)
    refine (Sparing.ifaceGet.runs v₁).bind ?_
    intro iface v₂ hv₂
    cases iface with
    | none => exact Runs.any.bind (fun _ _ _ => nothing_made)
    | some iface =>
      refine (Sparing.ifaceHandlerRegister.runs v₂).bind ?_
      intro rc v₃ hv₃
      have hv₃ := (hv₁.trans hv₂).trans hv₃
      split
      · exact Runs.any.bind (fun _ _ _ => nothing_made)
      refine deref_runs (fun i hi => ?_)
      intro a ha
      cases ha
      refine ⟨_, i, Function.update_self .., hi, ?_, hv₃.tracked⟩
      change v₃.processJS.insert i.name ret = _
      rw [hv₃.processJS]

/-- A new process is the only change of the store. -/
structure Publishes (n : Text) (rts : List Rout) (w v : World) : Prop where
  free : AList.lookup n w.processJS = none
  stored : ∃ a p i, v.processJS = w.processJS.insert n a ∧ v.processes a = some p ∧
    p.routJQ = rts ∧ v.ifaces p.inIface = some i ∧ i.name = n

/-- What `process_parse` does to its store and to what is polled. -/
structure Edits (live : Multiset Ref) (w v : World) (edit : Prop) (errs : Nat) : Prop where
  quiet : Quiet w v
  consistent : Consistent v live
  tracked : v.tracked = w.tracked
  store : errs ≠ 0 ∧ v.processJS = w.processJS ∨ edit

theorem Same.edits {errs : Nat} {edit : Prop} (hs : Same w v) (hc : Consistent v live)
    (he : errs ≠ 0) : Edits live w v edit errs :=
  ⟨hs.toQuiet, hc, hs.tracked, .inl ⟨he, hs.processJS⟩⟩

/-- `process_parse` in mode `add`, after the walk. -/
theorem processParseMode_adds {s : ProcessArgs} (h : RoutsQueued live s.routJQ w) :
    Runs NoDangle (processParseMode .add s) w (fun errs v =>
      Edits live w v (Publishes s.name s.routJQ w v) errs) := by
  unfold processParseMode
  refine Runs.bind ((processNew_does h.1 h.2).and processNew_publishes) ?_
  intro r v hv
  obtain ⟨⟨hq, hc, hr⟩, hpub⟩ := hv
  cases r with
  | none => exact Runs.imp (parseDie_keep hc) (fun _ _ hu => (hr.trans hu.1).edits hu.2.1 hu.2.2)
  | some a =>
    obtain ⟨hfree, p, i, hp, hrts, hi, hn⟩ := hr
    obtain ⟨q, j, hp', hj, hjs, ht⟩ := hpub a rfl
    rw [hp] at hp'
    cases hp'
    rw [hi] at hj
    cases hj
    refine Runs.imp (parseEmit_keep hc (processEmit_idle hc hp)) ?_
    intro errs u hu
    obtain ⟨hs, hcu⟩ := hu
    refine ⟨hq.trans hs.toQuiet, hcu, hs.tracked.trans ht, .inr ⟨hfree, a, p, ?_⟩⟩
    obtain ⟨k, hk, hkey⟩ := hs.ifaceKeys.live hi
    refine ⟨k, ?_, by rw [hs.processes]; exact hp, hrts, hk, (congrArg Iface.name hkey).trans hn⟩
    rw [hs.processJS, hjs, hn]

/-- `process_parse` in mode `del`, after the walk. -/
theorem processParseMode_erases {s : ProcessArgs} (h : Consistent w live) :
    Runs NoDangle (processParseMode .del s) w (fun errs v =>
      Edits live w v (v.processJS = w.processJS.erase s.name) errs) := by
  have hdie : ∀ {u : World} {msg : Text}, Same w u → Consistent u live →
      Runs NoDangle (parseDie s.errCnt msg) u (fun errs v =>
        Edits live w v (v.processJS = w.processJS.erase s.name) errs) :=
    fun hs hc => Runs.imp (parseDie_keep hc) (fun _ _ hu => (hs.trans hu.1).edits hu.2.1 hu.2.2)
  simp only [processParseMode]
  rw [jsGet_run]
  cases hl : AList.lookup s.name w.processJS with
  | none => exact hdie (.refl h.fresh) h
  | some a =>
    obtain ⟨p, hp, -⟩ := h.processes.found hl
    refine Runs.bind (processEmit_idle h hp) ?_
    intro r v hv
    obtain ⟨hi, -⟩ := hv
    have hc := hi.consistent h
    have hs := hi.same h.fresh
    split
    · exact hdie hs hc
    · have hlv : AList.lookup s.name v.processJS = some a := by
        rw [hi.processJS]
        exact hl
      have hpv : v.processes a = some p := by
        rw [hi.processes]
        exact hp
      refine Runs.bind ((processFreeAt_does hc hpv).and (processFreeAt_erases hc hlv)) ?_
      intro _ u hu
      obtain ⟨⟨hq, hcu, -⟩, -, -, hjs, -, -, ht⟩ := hu
      refine ⟨hs.toQuiet.trans hq, hcu, ht.trans hs.tracked, .inr ?_⟩
      rw [hjs, hs.processJS]

/-- What a process mapping makes of the ports: one gets the table that was linked from its list,
or loses its table, or nothing changes. -/
def PortsEdited (doc : Document) (mapping : Pairs doc) (w : World) (mode : ParseMode) (errs : Nat)
    (v : World) : Prop :=
  match mode with
  | .add => errs ≠ 0 ∧ v.ports = w.ports ∨
      w.ports (lastName doc namesProcess mapping) = none ∧
        ∃ table, Linked w errs (processListed doc mapping) table ∧
          v.ports = Function.update w.ports (lastName doc namesProcess mapping)
            (if v.polled (lastName doc namesProcess mapping) then some table else none)
  | .del => errs ≠ 0 ∧ v.ports = w.ports ∨
      v.ports = Function.update w.ports (lastName doc namesProcess mapping) none
  | .prn | .invalid => v.ports = w.ports

theorem ports_kept (h : Consistent w live) (h' : Consistent v live') (hq : Quiet w v)
    (hr : Reshapes w v) (hj : v.processJS = w.processJS) (ht : v.tracked = w.tracked) :
    v.ports = w.ports :=
  funext (fun _ => port_kept h h' hq hr (by rw [hj]) ht)

/-- A process that was made of the pairs of a mapping is a port with their table. -/
theorem publish_links {rts : List Rout} {errs : Nat} (h : Consistent w live) (h' : Consistent v live')
    (hq : Quiet w v) (hr : Reshapes w v) (ht : v.tracked = w.tracked) (hp : Publishes n rts w v)
    (hnew : ∀ rt ∈ rts, w.next ≤ rt.set) (hxs : xs.mapM routBuild w = .ok (rs, u))
    (hrts : rts = rs.filterMap id) (herr : errs = 0 → ∀ r ∈ rs, r.isSome) :
    w.ports n = none ∧ ∃ table, Linked w errs xs table ∧
      v.ports = Function.update w.ports n (if v.polled n then some table else none) := by
  obtain ⟨hfree, a, p, i, hjs, hpa, hjq, hi, hn⟩ := hp
  have hlinked : Linked w errs xs (p.routSetJQ.filterMap v.clause) := by
    refine ⟨rs, u, hxs, herr, ?_⟩
    rw [(h'.routs a p hpa).1, hjq, hrts, List.filterMap_map]
    have hl := List.forall₂_iff_zip.mp (built_links h hxs)
    refine .of_answers (List.forall₂_iff_zip.mpr ⟨hl.1, fun hm rt hrt => ?_⟩)
    have hmem : rt ∈ rts := by
      rw [hrts]
      exact List.mem_filterMap.mpr ⟨_, (List.of_mem_zip hm).2, hrt⟩
    exact link_clause h h' hq hr.toRetains hpa (hjq ▸ hmem) (hnew rt hmem) (hl.2 hm rt hrt)
  refine ⟨by unfold World.ports; rw [hfree, Option.bind_none], _, hlinked, ?_⟩
  funext k
  by_cases hk : k = n
  · subst hk
    rw [Function.update_self]
    exact port_stored h' (by rw [hjs, AList.lookup_insert]) hpa hi hn
  · rw [Function.update_of_ne hk]
    exact port_kept h h' hq hr (by rw [hjs, AList.lookup_insert_ne hk]) ht

/-- `process_parse` -/
theorem processParse_edits {mode : ParseMode} (h : Consistent w live) :
    Runs NoDangle (processParse mode doc mapping) w (fun errs v => Reshapes w v →
      PortsEdited doc mapping w mode errs v) := by
  unfold processParse
  refine Runs.bind ((((processWalk_does h).and processWalk_builds).and processWalk_counts).and
    Reshaping.processWalk) ?_
  intro r t ht
  obtain ⟨⟨⟨⟨hs, hq⟩, rs, ⟨u, hu, -⟩, hrts, hend⟩, hcount⟩, -, -, hnew⟩ := ht
  have hkept : ∀ {v : World} {live' : Multiset Ref}, Quiet t v → Consistent v live' →
      v.tracked = t.tracked → v.processJS = t.processJS → Reshapes w v → v.ports = w.ports :=
    fun hqv hc ht hj hr => ports_kept h hc (hs.toQuiet.trans hqv) hr (hj.trans hs.processJS)
      (ht.trans hs.tracked)
  cases r with
  | die s =>
    obtain ⟨-, herr⟩ := hend
    intro hr
    have hports := hkept (.refl hq.1.fresh) hq.1 rfl rfl hr
    cases mode with
    | add | del => exact .inl ⟨herr, hports⟩
    | prn | invalid => exact hports
  | go s =>
    obtain ⟨-, hname⟩ := hend
    cases mode with
    | invalid =>
      refine Runs.imp (parseDie_keep hq.1) ?_
      intro errs v hv hr
      exact hkept hv.1.toQuiet hv.2.1 hv.1.tracked hv.1.processJS hr
    | prn =>
      refine Runs.imp (processParse_prn hq.1) ?_
      intro errs v hv hr
      exact hkept hv.1.toQuiet hv.2 hv.1.tracked hv.1.processJS hr
    | del =>
      refine (processParseMode_erases hq.1).imp ?_
      intro errs v hv hr
      rcases hv.store with ⟨herr, hj⟩ | hj
      · exact .inl ⟨herr, hkept hv.quiet hv.consistent hv.tracked hj hr⟩
      · refine .inr (funext (fun k => ?_))
        rw [← hname]
        by_cases hk : k = s.name
        · subst hk
          rw [Function.update_self]
          unfold World.ports
          rw [hj, AList.lookup_erase, Option.bind_none]
        · rw [Function.update_of_ne hk]
          exact port_kept h hv.consistent (hs.toQuiet.trans hv.quiet) hr
            (by rw [hj, AList.lookup_erase_ne hk, hs.processJS]) (hv.tracked.trans hs.tracked)
    | add =>
      refine ((processParseMode_adds hq).and (Reports.processParseMode.runs _)).imp ?_
      intro errs v hv hr
      obtain ⟨hv, hle⟩ := hv
      rcases hv.store with ⟨herr, hj⟩ | hp
      · exact .inl ⟨herr, hkept hv.quiet hv.consistent hv.tracked hj hr⟩
      · have hpub : Publishes s.name s.routJQ w v := by
          obtain ⟨hfree, a, p, i, hjs, hrest⟩ := hp
          exact ⟨hs.processJS ▸ hfree, a, p, i, hs.processJS ▸ hjs, hrest⟩
        rw [hname] at hpub
        exact .inr (publish_links h hv.consistent (hs.toQuiet.trans hv.quiet) hr
          (hv.tracked.trans hs.tracked) hpub hnew hu hrts (fun he => all_routs
            ((built_links h hu).length_eq ▸ hcount) hrts (Nat.le_zero.mp (he ▸ hle))))

/-- Whatever has happened, a process mapping edits the port that it names and no other: adding
links the rules and the outputs that it lists into a table that has counted nothing. -/
theorem process_linked (env : Env) (openFds : List Nat) (oom sys : List Bool)
    (events : List Event) :
    Runs NoDangle (handleAll env events) (World.start openFds oom sys) (fun _ w =>
      ∀ mode doc mapping, Runs NoDangle (processParse mode doc mapping) w (fun errs v =>
        PortsEdited doc mapping w mode errs v)) := by
  refine (handleAll_consistent (consistent_start openFds oom sys)).imp ?_
  rintro _ w ⟨live, h⟩ mode doc mapping
  exact ((processParse_edits h).and (Reshaping.processParse.runs w)).imp (fun _ _ hv => hv.1 hv.2)

end Ports

end Xdpacket
