import Xdpacket.Proofs.Transitions

namespace Xdpacket

variable {w v : World} {live : Multiset Ref} {a b : Addr} {n : Text}

namespace Consistent

/-- The process at an address is stored under the name of its iface. -/
theorem process_stored (h : Consistent w live) {p : Process} (hp : w.processes a = some p) :
    ∃ i, w.ifaces p.inIface = some i ∧ 0 < i.refcnt ∧
      AList.lookup i.name w.processJS = some a := by
  obtain ⟨i, hi⟩ := Option.isSome_iff_exists.mp (h.inputs a p hp)
  have hl : AList.lookup i.name w.processJS = some a := h.processes.listed hp (by simp [hi])
  have hpos := h.process_counted hp (x := .iface p.inIface) (by simp [Process.refs])
  have hc : w.count (.iface p.inIface) = i.refcnt := by simp [World.count, hi]
  exact ⟨i, hi, by omega, hl⟩

/-- One process for each iface. -/
theorem process_unique (h : Consistent w live) {p q : Process} (hp : w.processes a = some p)
    (hq : w.processes b = some q) (he : p.inIface = q.inIface) : a = b := by
  obtain ⟨i, hi, -, hl⟩ := h.process_stored hp
  obtain ⟨j, hj, -, hm⟩ := h.process_stored hq
  rw [he, hj] at hi
  cases hi
  rw [hl] at hm
  exact Option.some.inj hm

/-- A new field, with no reference yet. -/
theorem publishField (h : Consistent w live) (hu : Unborn w v a) {f : Field} (hn : f.name = n)
    (hc : f.refcnt = 0) (hl : AList.lookup n v.fieldJS = none) :
    Consistent { v with fieldJS := v.fieldJS.insert n a, fields := Function.update v.fields a (some f) }
      live ∧
    Quiet w { v with fieldJS := v.fieldJS.insert n a, fields := Function.update v.fields a (some f) } := by
  have hv := hu.consistent h
  have hnone : v.fields a = none := by
    rw [hu.idle.fields]
    exact h.fresh.fields a hu.above
  have hzero : v.count (.field a) = 0 := by simp [World.count, hnone]
  have hq : Quiet w { v with
      fieldJS := v.fieldJS.insert n a, fields := Function.update v.fields a (some f) } :=
    { (hu.idle.same h.fresh).toQuiet with
      fields := by
        rw [hu.idle.fields]
        exact .add hu.above _ }
  refine ⟨?_, hq⟩
  exact
    { hv with
      balanced := by
        change InBalance (World.count { v with fields := Function.update v.fields a (some f) })
          v.stored _
        rw [count_setField, Option.elim_some, hc, ← hzero, Function.update_eq_self]
        exact hv.balanced
      fields := hv.fields.publish hnone (by rw [hn]) hl
      fresh := { hv.fresh with fields := hv.fresh.fields.update hu.below _ }
      ops := hu.idle.opsOk h hq.toGrows
      routs := hu.idle.routsOk h hq.toGrows }

/-- A field that nothing refers to goes. -/
theorem unpublishField (h : Consistent w live) {f : Field} (hf : w.fields a = some f)
    (hc : f.refcnt = 0) :
    Consistent { w with
      fieldJS := w.fieldJS.erase f.name, fields := Function.update w.fields a none } live ∧
    Quiet w { w with
      fieldJS := w.fieldJS.erase f.name, fields := Function.update w.fields a none } := by
  have hzero : w.count (.field a) = 0 := by simp [World.count, hf, hc]
  have hq : Quiet w { w with
      fieldJS := w.fieldJS.erase f.name, fields := Function.update w.fields a none } :=
    { Quiet.refl h.fresh with fields := .remove }
  refine ⟨?_, hq⟩
  exact
    { h with
      balanced := by
        change InBalance (World.count { w with fields := Function.update w.fields a none })
          w.stored _
        rw [count_setField, Option.elim_none, ← hzero, Function.update_eq_self]
        exact h.balanced
      fields := h.fields.unpublish hf rfl
      fresh := { h.fresh with fields := h.fresh.fields.update (h.fresh.fields.below hf) _ }
      ops := h.opsOk hq.toGrows
      routs := h.routsOk hq.toGrows }

/-- A stored rule adds what its operations hold to the stored holders. -/
theorem stored_publishRule (h : Consistent w live) {r : Rule} (hnone : w.rules a = none)
    (hl : AList.lookup n w.ruleJS = none) (x : Ref) :
    World.stored { w with
      ruleJS := w.ruleJS.insert n a, rules := Function.update w.rules a (some r) } x =
      w.stored x + r.refs.count x := by
  have ht := h.rules.total_publish (o := r) hnone hl (fun rule => rule.refs.count x)
  have hv : World.stored { w with
      ruleJS := w.ruleJS.insert n a, rules := Function.update w.rules a (some r) } x =
      NameStore.total (w.ruleJS.insert n a) (fun b =>
        (Function.update w.rules a (some r) b).elim 0 (fun rule => rule.refs.count x)) +
      w.processJS.total (w.processHolds x) := rfl
  have hw : w.stored x =
      w.ruleJS.total (fun b => (w.rules b).elim 0 (fun rule => rule.refs.count x)) +
      w.processJS.total (w.processHolds x) := rfl
  omega

theorem stored_unpublishRule (h : Consistent w live) {r : Rule} (hr : w.rules a = some r)
    (x : Ref) :
    w.stored x = World.stored { w with
      ruleJS := w.ruleJS.erase r.name, rules := Function.update w.rules a none } x +
      r.refs.count x := by
  have ht := h.rules.total_unpublish hr rfl (fun rule => rule.refs.count x)
  have hv : World.stored { w with
      ruleJS := w.ruleJS.erase r.name, rules := Function.update w.rules a none } x =
      NameStore.total (w.ruleJS.erase r.name) (fun b =>
        (Function.update w.rules a none b).elim 0 (fun rule => rule.refs.count x)) +
      w.processJS.total (w.processHolds x) := rfl
  have hw : w.stored x =
      w.ruleJS.total (fun b => (w.rules b).elim 0 (fun rule => rule.refs.count x)) +
      w.processJS.total (w.processHolds x) := rfl
  omega

/-- A new rule takes charge of what its operations hold. -/
theorem publishRule {r : Rule} (h : Consistent w (r.refs + live)) (hu : Unborn w v a)
    (hn : r.name = n) (hc : r.refcnt = 0) (hl : AList.lookup n v.ruleJS = none)
    (hops : ∀ op ∈ r.matchJQ ++ r.writeJQ, OpOk w op) :
    Consistent { v with
      ruleJS := v.ruleJS.insert n a, rules := Function.update v.rules a (some r) } live ∧
    Quiet w { v with
      ruleJS := v.ruleJS.insert n a, rules := Function.update v.rules a (some r) } := by
  have hv := hu.consistent h
  have hnone : v.rules a = none := by
    rw [hu.idle.rules]
    exact h.fresh.rules a hu.above
  have hzero : v.count (.rule a) = 0 := by simp [World.count, hnone]
  have hq : Quiet w { v with
      ruleJS := v.ruleJS.insert n a, rules := Function.update v.rules a (some r) } :=
    { (hu.idle.same h.fresh).toQuiet with
      rules := by
        rw [hu.idle.rules]
        exact .add hu.above _ }
  refine ⟨?_, hq⟩
  exact
    { hv with
      balanced := by
        change InBalance (World.count { v with rules := Function.update v.rules a (some r) }) _ _
        rw [count_setRule, Option.elim_some, hc, ← hzero, Function.update_eq_self]
        exact hv.balanced.store (hv.stored_publishRule hnone hl)
      rules := hv.rules.publish hnone (by rw [hn]) hl
      fresh := { hv.fresh with rules := hv.fresh.rules.update hu.below _ }
      ops := by
        intro b q hb op ho
        rcases of_updated hb with ⟨-, hr⟩ | ⟨-, hb⟩
        · cases hr
          exact (hops op ho).mono hq.toGrows
        · rw [hu.idle.rules] at hb
          exact (h.ops b q hb op ho).mono hq.toGrows
      routs := hu.idle.routsOk h hq.toGrows }

/-- A rule that nothing refers to goes; what its operations hold is in flight. -/
theorem unpublishRule (h : Consistent w live) {r : Rule} (hr : w.rules a = some r)
    (hc : r.refcnt = 0) :
    Consistent { w with
      ruleJS := w.ruleJS.erase r.name, rules := Function.update w.rules a none } (r.refs + live) ∧
    Quiet w { w with
      ruleJS := w.ruleJS.erase r.name, rules := Function.update w.rules a none } := by
  have hzero : w.count (.rule a) = 0 := by simp [World.count, hr, hc]
  have hq : Quiet w { w with
      ruleJS := w.ruleJS.erase r.name, rules := Function.update w.rules a none } :=
    { Quiet.refl h.fresh with rules := .remove }
  refine ⟨?_, hq⟩
  exact
    { h with
      balanced := by
        change InBalance (World.count { w with rules := Function.update w.rules a none }) _ _
        rw [count_setRule, Option.elim_none, ← hzero, Function.update_eq_self]
        exact h.balanced.unlink (h.stored_unpublishRule hr)
      rules := h.rules.unpublish hr rfl
      fresh := { h.fresh with rules := h.fresh.rules.update (h.fresh.rules.below hr) _ }
      ops := fun b q hb => h.opsOk hq.toGrows b q (of_removed hb)
      routs := h.routsOk hq.toGrows }

/-- A new iface, with no handler and no reference yet. -/
theorem publishIface (h : Consistent w live) (hu : Unborn w v a) {i : Iface} (hn : i.name = n)
    (hc : i.refcnt = 0) (hh : i.handler = none) (hl : AList.lookup n v.ifaceJS = none) :
    Consistent { v with
      ifaceJS := v.ifaceJS.insert n a, ifaces := Function.update v.ifaces a (some i) } live ∧
    Quiet w { v with
      ifaceJS := v.ifaceJS.insert n a, ifaces := Function.update v.ifaces a (some i) } := by
  have hv := hu.consistent h
  have hnone : v.ifaces a = none := by
    rw [hu.idle.ifaces]
    exact h.fresh.ifaces a hu.above
  have hzero : v.count (.iface a) = 0 := by simp [World.count, hnone]
  have hne : ∀ {b j}, v.ifaces b = some j → b ≠ a := by
    intro b j hb he
    rw [he, hnone] at hb
    cases hb
  have hin : ∀ {b p}, v.processes b = some p → p.inIface ≠ a := by
    intro b p hp
    obtain ⟨j, hj⟩ := Option.isSome_iff_exists.mp (hv.inputs b p hp)
    exact hne hj
  have hq : Quiet w { v with
      ifaceJS := v.ifaceJS.insert n a, ifaces := Function.update v.ifaces a (some i) } :=
    { (hu.idle.same h.fresh).toQuiet with next := (hu.idle.same h.fresh).next }
  refine ⟨?_, hq⟩
  exact
    { hv with
      balanced := by
        change InBalance (World.count { v with ifaces := Function.update v.ifaces a (some i) })
          v.stored _
        rw [count_setIface, Option.elim_some, hc, ← hzero, Function.update_eq_self]
        exact hv.balanced
      ifaces := hv.ifaces.publish hnone (by rw [hn]) hl
      processes := by
        apply hv.processes.congr
        intro b
        cases hp : v.processes b with
        | none => rfl
        | some p =>
          simp only [Option.bind_some]
          rw [Function.update_of_ne (hin hp)]
      fresh := { hv.fresh with ifaces := hv.fresh.ifaces.update hu.below _ }
      ops := hu.idle.opsOk h hq.toGrows
      routs := hu.idle.routsOk h hq.toGrows
      inputs := by
        intro b p hp
        change (Function.update v.ifaces a (some i) p.inIface).isSome
        rw [Function.update_of_ne (hin hp)]
        exact hv.inputs b p hp
      handlers := by
        intro b j hb
        rcases of_updated hb with ⟨rfl, hj⟩ | ⟨-, hb⟩
        · cases hj
          unfold HandlerOk
          rw [hh]
          exact fun _ _ hp => hin hp
        · exact hv.handlers b j hb
      tracked := by
        refine ⟨hv.tracked.1, ?_⟩
        intro x hx
        change (Function.update v.ifaces a (some i) x.2).isSome
        obtain ⟨j, hj⟩ := Option.isSome_iff_exists.mp (hv.tracked.2 x hx)
        rw [Function.update_of_ne (hne hj)]
        exact hv.tracked.2 x hx }

/-- An iface that nothing refers to and no registration names goes. -/
theorem unpublishIface (h : Consistent w live) {i : Iface} (hi : w.ifaces a = some i)
    (hc : i.refcnt = 0) (ht : a ∉ w.tracked.map Prod.snd) :
    Consistent { w with
      ifaceJS := w.ifaceJS.erase i.name, ifaces := Function.update w.ifaces a none } live ∧
    Quiet w { w with
      ifaceJS := w.ifaceJS.erase i.name, ifaces := Function.update w.ifaces a none } := by
  have hzero : w.count (.iface a) = 0 := by simp [World.count, hi, hc]
  have hin : ∀ {b p}, w.processes b = some p → p.inIface ≠ a := by
    intro b p hp he
    obtain ⟨j, hj, hpos, -⟩ := h.process_stored hp
    rw [he, hi] at hj
    cases hj
    omega
  have hq : Quiet w { w with
      ifaceJS := w.ifaceJS.erase i.name, ifaces := Function.update w.ifaces a none } :=
    { Quiet.refl h.fresh with next := Nat.le_refl _ }
  refine ⟨?_, hq⟩
  exact
    { h with
      balanced := by
        change InBalance (World.count { w with ifaces := Function.update w.ifaces a none })
          w.stored _
        rw [count_setIface, Option.elim_none, ← hzero, Function.update_eq_self]
        exact h.balanced
      ifaces := h.ifaces.unpublish hi rfl
      processes := by
        apply h.processes.congr
        intro b
        cases hp : w.processes b with
        | none => rfl
        | some p =>
          simp only [Option.bind_some]
          rw [Function.update_of_ne (hin hp)]
      fresh := { h.fresh with ifaces := h.fresh.ifaces.update (h.fresh.ifaces.below hi) _ }
      ops := h.opsOk hq.toGrows
      routs := h.routsOk hq.toGrows
      inputs := by
        intro b p hp
        change (Function.update w.ifaces a none p.inIface).isSome
        rw [Function.update_of_ne (hin hp)]
        exact h.inputs b p hp
      handlers := fun b j hb => h.handlers b j (of_removed hb)
      tracked := by
        refine ⟨h.tracked.1, ?_⟩
        intro x hx
        change (Function.update w.ifaces a none x.2).isSome
        rw [Function.update_of_ne]
        · exact h.tracked.2 x hx
        · intro he
          exact ht (he ▸ List.mem_map_of_mem hx) }

theorem stored_publishProcess (h : Consistent w live) {p : Process} (hnone : w.processes a = none)
    (hl : AList.lookup n w.processJS = none) (ifs : Heap Iface) (x : Ref) :
    World.stored { w with
      ifaces := ifs, processJS := w.processJS.insert n a,
      processes := Function.update w.processes a (some p) } x =
      w.stored x + p.refs.count x := by
  have ht := h.processes.total_publish (o := p) hnone hl (fun p => p.refs.count x)
  have hv : World.stored { w with
      ifaces := ifs, processJS := w.processJS.insert n a,
      processes := Function.update w.processes a (some p) } x =
      w.ruleJS.total (w.ruleHolds x) +
      NameStore.total (w.processJS.insert n a) (fun b =>
        (Function.update w.processes a (some p) b).elim 0 (fun p => p.refs.count x)) := rfl
  have hw : w.stored x = w.ruleJS.total (w.ruleHolds x) +
      w.processJS.total (fun b => (w.processes b).elim 0 (fun p => p.refs.count x)) := rfl
  omega

theorem stored_unpublishProcess (h : Consistent w live) {p : Process} {i : Iface}
    (hp : w.processes a = some p) (hi : w.ifaces p.inIface = some i) (ifs : Heap Iface) (x : Ref) :
    w.stored x = World.stored { w with
      ifaces := ifs, processJS := w.processJS.erase i.name,
      processes := Function.update w.processes a none } x + p.refs.count x := by
  have ht := h.processes.total_unpublish hp (n := i.name) (by rw [hi]; rfl)
    (fun p => p.refs.count x)
  have hv : World.stored { w with
      ifaces := ifs, processJS := w.processJS.erase i.name,
      processes := Function.update w.processes a none } x =
      w.ruleJS.total (w.ruleHolds x) +
      NameStore.total (w.processJS.erase i.name) (fun b =>
        (Function.update w.processes a none b).elim 0 (fun p => p.refs.count x)) := rfl
  have hw : w.stored x = w.ruleJS.total (w.ruleHolds x) +
      w.processJS.total (fun b => (w.processes b).elim 0 (fun p => p.refs.count x)) := rfl
  omega

/-- An iface that no process comes to or goes from keeps its handler. -/
theorem handlerOk_elsewhere {i : Iface} {op : Option Process} (hi : HandlerOk w b i)
    (hv : v.processes = Function.update w.processes a op)
    (hold : ∀ q, w.processes a = some q → q.inIface ≠ b)
    (hnew : ∀ q, op = some q → q.inIface ≠ b) : HandlerOk v b i := by
  unfold HandlerOk at hi ⊢
  rw [hv]
  cases hh : i.handler with
  | none =>
    rw [hh] at hi
    intro c q hc
    rcases of_updated hc with ⟨-, hq⟩ | ⟨-, hc⟩
    · exact hnew q hq
    · exact hi c q hc
  | some handler =>
    rw [hh] at hi
    obtain ⟨c, q, hc, hq, he⟩ := hi
    have hca : c ≠ a := fun hca => hold q (hca ▸ hc) hq
    exact ⟨c, q, (Function.update_of_ne hca _ _).trans hc, hq, he⟩

/-- A new process takes charge of its iface and routs, and registers with the
iface. -/
theorem publishProcess {p : Process} {i i' : Iface} (h : Consistent w (p.refs + live))
    (ha : a < w.next) (hnone : w.processes a = none) (hi : w.ifaces p.inIface = some i)
    (hl : AList.lookup i.name w.processJS = none)
    (hi' : i' = { i with handler := some .processExec, context := jqRoot a p.routSetJQ })
    (hsets : p.routSetJQ = p.routJQ.map Rout.set) (hrouts : ∀ rt ∈ p.routJQ, RoutOk w rt) :
    Consistent { w with
      ifaces := Function.update w.ifaces p.inIface (some i'),
      processJS := w.processJS.insert i.name a,
      processes := Function.update w.processes a (some p) } live ∧
    Quiet w { w with
      ifaces := Function.update w.ifaces p.inIface (some i'),
      processJS := w.processJS.insert i.name a,
      processes := Function.update w.processes a (some p) } := by
  have hn : i'.name = i.name := by rw [hi']
  have hrc : i'.refcnt = i.refcnt := by rw [hi']
  have hq : Quiet w { w with
      ifaces := Function.update w.ifaces p.inIface (some i'),
      processJS := w.processJS.insert i.name a,
      processes := Function.update w.processes a (some p) } :=
    { Quiet.refl h.fresh with next := Nat.le_refl _ }
  have hname := update_name hi hn
  have hlive : ∀ c, (Function.update w.ifaces p.inIface (some i') c).isSome = _ := update_isSome hi
  refine ⟨?_, hq⟩
  exact
    { h with
      balanced := by
        change InBalance (World.count { w with
          ifaces := Function.update w.ifaces p.inIface (some i') }) _ _
        have hc : i.refcnt = w.count (.iface p.inIface) := by simp [World.count, hi]
        rw [count_setIface, Option.elim_some, hrc, hc, Function.update_eq_self]
        exact h.balanced.store (h.stored_publishProcess hnone hl _)
      ifaces := h.ifaces.modify hi (by rw [hn])
      processes := by
        have hr : Registered (w.processJS.insert i.name a)
            (Function.update w.processes a (some p))
            (fun p => (w.ifaces p.inIface).map Iface.name) :=
          h.processes.publish hnone (by rw [hi]; rfl) hl
        apply hr.congr
        intro b
        simp only [hname]
      fresh :=
        { h.fresh with
          ifaces := h.fresh.ifaces.update (h.fresh.ifaces.below hi) _
          processes := h.fresh.processes.update ha _ }
      ops := h.opsOk hq.toGrows
      routs := by
        refine live_update (h.routsOk hq.toGrows) (fun q hp => ?_)
        cases hp
        exact ⟨hsets, fun rt hrt => (hrouts rt hrt).mono hq.toGrows⟩
      inputs := by
        intro b q hb
        refine (hlive q.inIface).trans ?_
        rcases of_updated hb with ⟨-, hp⟩ | ⟨-, hb⟩
        · cases hp
          rw [hi]
          rfl
        · exact h.inputs b q hb
      handlers := by
        intro b j hb
        rcases of_updated hb with ⟨rfl, hj⟩ | ⟨hbi, hb⟩
        · cases hj
          unfold HandlerOk
          rw [hi']
          exact ⟨a, p, Function.update_self .., rfl, rfl⟩
        · refine handlerOk_elsewhere (h.handlers b j hb) rfl ?_ ?_
          · intro q hq
            rw [hnone] at hq
            cases hq
          · intro q hq
            cases hq
            exact Ne.symm hbi
      tracked := ⟨h.tracked.1, fun x hx => (hlive _).trans (h.tracked.2 x hx)⟩ }

/-- A process goes: it lets go of its iface, and what its routs hold is in flight. -/
theorem unpublishProcess (h : Consistent w live) {p : Process} {i i' : Iface}
    (hp : w.processes a = some p) (hi : w.ifaces p.inIface = some i)
    (hi' : i' = { i with handler := none, context := none, refcnt := i.refcnt - 1 }) :
    Consistent { w with
      ifaces := Function.update w.ifaces p.inIface (some i'),
      processJS := w.processJS.erase i.name,
      processes := Function.update w.processes a none } (routsRefs p.routJQ + live) ∧
    Quiet w { w with
      ifaces := Function.update w.ifaces p.inIface (some i'),
      processJS := w.processJS.erase i.name,
      processes := Function.update w.processes a none } := by
  have hn : i'.name = i.name := by rw [hi']
  have hrc : i'.refcnt = i.refcnt - 1 := by rw [hi']
  have hq : Quiet w { w with
      ifaces := Function.update w.ifaces p.inIface (some i'),
      processJS := w.processJS.erase i.name,
      processes := Function.update w.processes a none } :=
    { Quiet.refl h.fresh with next := Nat.le_refl _ }
  have hname := update_name hi hn
  have hlive : ∀ c, (Function.update w.ifaces p.inIface (some i') c).isSome = _ := update_isSome hi
  refine ⟨?_, hq⟩
  exact
    { h with
      balanced := by
        change InBalance (World.count { w with
          ifaces := Function.update w.ifaces p.inIface (some i') }) _ _
        have hc : i.refcnt = w.count (.iface p.inIface) := by simp [World.count, hi]
        rw [count_setIface, Option.elim_some, hrc, hc]
        have hb := h.balanced.unlink (h.stored_unpublishProcess hp hi
          (Function.update w.ifaces p.inIface (some i')))
        rw [Process.refs, Multiset.singleton_add, Multiset.cons_add] at hb
        exact hb.release_update
      ifaces := h.ifaces.modify hi (by rw [hn])
      processes := by
        have hr : Registered (w.processJS.erase i.name) (Function.update w.processes a none)
            (fun p => (w.ifaces p.inIface).map Iface.name) :=
          h.processes.unpublish hp (by rw [hi]; rfl)
        apply hr.congr
        intro b
        simp only [hname]
      fresh :=
        { h.fresh with
          ifaces := h.fresh.ifaces.update (h.fresh.ifaces.below hi) _
          processes := h.fresh.processes.update (h.fresh.processes.below hp) _ }
      ops := h.opsOk hq.toGrows
      routs := fun b q hb => h.routsOk hq.toGrows b q (of_removed hb)
      inputs := fun b q hb => (hlive q.inIface).trans (h.inputs b q (of_removed hb))
      handlers := by
        intro b j hb
        rcases of_updated hb with ⟨rfl, hj⟩ | ⟨hbi, hb⟩
        · cases hj
          unfold HandlerOk
          rw [hi']
          intro c q hc he
          rcases of_updated hc with ⟨-, hq⟩ | ⟨hca, hc⟩
          · cases hq
          · exact hca (h.process_unique hc hp he)
        · refine handlerOk_elsewhere (h.handlers b j hb) rfl ?_ (fun q hq => by cases hq)
          intro q hq
          rw [hp] at hq
          cases hq
          exact Ne.symm hbi
      tracked := ⟨h.tracked.1, fun x hx => (hlive _).trans (h.tracked.2 x hx)⟩ }

end Consistent

end Xdpacket
