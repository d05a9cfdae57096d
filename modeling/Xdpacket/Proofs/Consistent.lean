import Xdpacket.Proofs.Holders

namespace Xdpacket

/-- An iface's handler is set exactly while a stored process reads from it, and
its context is the root of that process's rout sets. -/
def HandlerOk (w : World) (a : Addr) (i : Iface) : Prop :=
  match i.handler with
  | none => ∀ b p, w.processes b = some p → p.inIface ≠ a
  | some .processExec => ∃ b p, w.processes b = some p ∧ p.inIface = a ∧
      i.context = jqRoot b p.routSetJQ

/-- The invariant of the program between any two of its operations, while it
holds the references `live` outside the stores. -/
structure Consistent (w : World) (live : Multiset Ref) : Prop where
  balanced : InBalance w.count w.stored live
  fields : Registered w.fieldJS w.fields (fun f => some f.name)
  states : Registered w.stateJS w.memrefs Memref.stateName
  rules : Registered w.ruleJS w.rules (fun r => some r.name)
  ifaces : Registered w.ifaceJS w.ifaces (fun i => some i.name)
  processes : Registered w.processJS w.processes (fun p => (w.ifaces p.inIface).map Iface.name)
  fresh : Fresh w
  counted : ∀ a r, w.memrefs a = some r → 0 < r.count
  ops : ∀ a r, w.rules a = some r → ∀ op ∈ r.matchJQ ++ r.writeJQ, OpOk w op
  routs : ∀ a p, w.processes a = some p →
    p.routSetJQ = p.routJQ.map Rout.set ∧ ∀ rt ∈ p.routJQ, RoutOk w rt
  inputs : ∀ a p, w.processes a = some p → (w.ifaces p.inIface).isSome
  handlers : ∀ a i, w.ifaces a = some i → HandlerOk w a i
  tracked : (w.tracked.map Prod.snd).Nodup ∧ ∀ x ∈ w.tracked, (w.ifaces x.2).isSome

section Counts

variable (w : World) (a : Addr)

theorem count_setField (o : Option Field) :
    World.count { w with fields := Function.update w.fields a o } =
      Function.update w.count (.field a) (o.elim 0 Field.refcnt) := by
  funext r
  cases r with
  | field b =>
    by_cases hb : b = a
    · subst hb
      simp [World.count]
    · simp [World.count, hb]
  | _ => simp [World.count]

theorem count_setMemref (o : Option Memref) :
    World.count { w with memrefs := Function.update w.memrefs a o } =
      Function.update w.count (.memref a) (o.elim 0 Memref.count) := by
  funext r
  cases r with
  | memref b =>
    by_cases hb : b = a
    · subst hb
      simp [World.count]
    · simp [World.count, hb]
  | _ => simp [World.count]

theorem count_setRule (o : Option Rule) :
    World.count { w with rules := Function.update w.rules a o } =
      Function.update w.count (.rule a) (o.elim 0 Rule.refcnt) := by
  funext r
  cases r with
  | rule b =>
    by_cases hb : b = a
    · subst hb
      simp [World.count]
    · simp [World.count, hb]
  | _ => simp [World.count]

theorem count_setIface (o : Option Iface) :
    World.count { w with ifaces := Function.update w.ifaces a o } =
      Function.update w.count (.iface a) (o.elim 0 Iface.refcnt) := by
  funext r
  cases r with
  | iface b =>
    by_cases hb : b = a
    · subst hb
      simp [World.count]
    · simp [World.count, hb]
  | _ => simp [World.count]

theorem count_setRset (o : Option RoutSet) :
    World.count { w with rsets := Function.update w.rsets a o } =
      Function.update w.count (.rset a) (o.elim 0 (fun _ => 1)) := by
  funext r
  cases r with
  | rset b =>
    by_cases hb : b = a
    · subst hb
      simp [World.count]
    · simp [World.count, hb]
  | _ => simp [World.count]

end Counts

/-- Changing a rule's count does not change what it holds. -/
theorem stored_setRule {w : World} {a : Addr} {r : Rule} (r' : Rule) (hr : w.rules a = some r)
    (hrefs : r'.refs = r.refs) :
    World.stored { w with rules := Function.update w.rules a (some r') } = w.stored := by
  funext x
  unfold World.stored
  congr 1
  exact Registered.total_modify hr (fun rule => rule.refs.count x) (by rw [hrefs])

section Counted

variable {w : World} {a : Addr}

/-- Whatever is counted is live. -/
theorem field_of_count (hp : 0 < w.count (.field a)) : ∃ f, w.fields a = some f ∧ 0 < f.refcnt := by
  unfold World.count at hp
  cases hf : w.fields a with
  | none => simp [hf] at hp
  | some f => exact ⟨f, rfl, by simpa [hf] using hp⟩

theorem memref_of_count (hp : 0 < w.count (.memref a)) : ∃ r, w.memrefs a = some r := by
  unfold World.count at hp
  cases hr : w.memrefs a with
  | none => simp [hr] at hp
  | some r => exact ⟨r, rfl⟩

theorem rule_of_count (hp : 0 < w.count (.rule a)) : ∃ r, w.rules a = some r ∧ 0 < r.refcnt := by
  unfold World.count at hp
  cases hr : w.rules a with
  | none => simp [hr] at hp
  | some r => exact ⟨r, rfl, by simpa [hr] using hp⟩

theorem iface_of_count (hp : 0 < w.count (.iface a)) : ∃ i, w.ifaces a = some i ∧ 0 < i.refcnt := by
  unfold World.count at hp
  cases hi : w.ifaces a with
  | none => simp [hi] at hp
  | some i => exact ⟨i, rfl, by simpa [hi] using hp⟩

theorem rset_of_count (hp : 0 < w.count (.rset a)) : ∃ s, w.rsets a = some s := by
  unfold World.count at hp
  cases hs : w.rsets a with
  | none => simp [hs] at hp
  | some s => exact ⟨s, rfl⟩

end Counted

namespace Consistent

variable {w v : World} {live live' : Multiset Ref} {a b : Addr} {x : Ref}

theorem counted_of_mem (h : Consistent w live) (hx : x ∈ live) : 0 < w.count x :=
  h.balanced.pos_of_mem hx

theorem counted_of_stored (h : Consistent w live) (hx : 0 < w.stored x) : 0 < w.count x :=
  Nat.lt_of_lt_of_le hx (h.balanced.stored_le x)

theorem field_live (h : Consistent w live) (hx : Ref.field a ∈ live) :
    ∃ f, w.fields a = some f ∧ 0 < f.refcnt :=
  field_of_count (h.counted_of_mem hx)

theorem memref_live (h : Consistent w live) (hx : Ref.memref a ∈ live) :
    ∃ r, w.memrefs a = some r :=
  memref_of_count (h.counted_of_mem hx)

theorem rule_live (h : Consistent w live) (hx : Ref.rule a ∈ live) :
    ∃ r, w.rules a = some r ∧ 0 < r.refcnt :=
  rule_of_count (h.counted_of_mem hx)

theorem iface_live (h : Consistent w live) (hx : Ref.iface a ∈ live) :
    ∃ i, w.ifaces a = some i ∧ 0 < i.refcnt :=
  iface_of_count (h.counted_of_mem hx)

theorem rset_live (h : Consistent w live) (hx : Ref.rset a ∈ live) :
    ∃ s, w.rsets a = some s :=
  rset_of_count (h.counted_of_mem hx)

/-- What a live rule holds is counted. -/
theorem rule_counted (h : Consistent w live) {r : Rule} (hr : w.rules a = some r)
    (hx : x ∈ r.refs) : 0 < w.count x :=
  h.counted_of_stored (World.stored_rule (h.rules.listed hr rfl) hr hx)

/-- What a live process holds is counted. -/
theorem process_counted (h : Consistent w live) {p : Process} (hp : w.processes a = some p)
    (hx : x ∈ p.refs) : 0 < w.count x := by
  obtain ⟨i, hi⟩ := Option.isSome_iff_exists.mp (h.inputs a p hp)
  have hl : AList.lookup i.name w.processJS = some a := h.processes.listed hp (by simp [hi])
  exact h.counted_of_stored (World.stored_process hl hp hx)

end Consistent

/-- What is stored holds the same, whatever the counts. -/
theorem Same.stored {w v : World} (h : Same w v) : v.stored = w.stored := by
  have hr : ∀ x, v.ruleHolds x = w.ruleHolds x := by
    intro x
    funext a
    have hk := h.ruleKeys a
    unfold World.ruleHolds
    cases hv : v.rules a with
    | none =>
      rw [hv] at hk
      rw [Option.map_eq_none_iff.mp hk.symm]
    | some r =>
      obtain ⟨r', hr', hk'⟩ := h.ruleKeys.evolves (a + 1) a (Nat.lt_succ_self a) r hv
      simp only [Rule.key, Prod.mk.injEq] at hk'
      simp only [hr', Option.elim_some, Rule.refs, hk'.2.1, hk'.2.2]
  have hp : ∀ x, v.processHolds x = w.processHolds x := by
    intro x
    funext a
    simp only [World.processHolds, h.processes]
  funext x
  simp only [World.stored, hr, hp, h.ruleJS, h.processJS]

/-- The finished operations and routs stay finished as the world grows. -/
theorem Consistent.opsOk {w v : World} {live : Multiset Ref} (h : Consistent w live)
    (hg : Grows w v) : ∀ a r, w.rules a = some r → ∀ op ∈ r.matchJQ ++ r.writeJQ, OpOk v op :=
  fun a r hr op ho => (h.ops a r hr op ho).mono hg

theorem Consistent.routsOk {w v : World} {live : Multiset Ref} (h : Consistent w live)
    (hg : Grows w v) : ∀ a p, w.processes a = some p →
      p.routSetJQ = p.routJQ.map Rout.set ∧ ∀ rt ∈ p.routJQ, RoutOk v rt :=
  fun a p hp => ⟨(h.routs a p hp).1, fun rt hrt => ((h.routs a p hp).2 rt hrt).mono hg⟩

/-- A change of the parts of the world that no object is in. -/
structure Idle (w v : World) : Prop where
  next : w.next ≤ v.next
  memrefs : v.memrefs = w.memrefs
  fields : v.fields = w.fields
  rules : v.rules = w.rules
  rsets : v.rsets = w.rsets
  ifaces : v.ifaces = w.ifaces
  processes : v.processes = w.processes
  fieldJS : v.fieldJS = w.fieldJS
  stateJS : v.stateJS = w.stateJS
  ruleJS : v.ruleJS = w.ruleJS
  ifaceJS : v.ifaceJS = w.ifaceJS
  processJS : v.processJS = w.processJS
  tracked : v.tracked = w.tracked
  written : v.written = w.written

theorem Idle.fresh {w v : World} (h : Idle w v) (hf : Fresh w) : Fresh v where
  fields := by rw [h.fields]; exact hf.fields.mono h.next
  memrefs := by rw [h.memrefs]; exact hf.memrefs.mono h.next
  rules := by rw [h.rules]; exact hf.rules.mono h.next
  rsets := by rw [h.rsets]; exact hf.rsets.mono h.next
  ifaces := by rw [h.ifaces]; exact hf.ifaces.mono h.next
  processes := by rw [h.processes]; exact hf.processes.mono h.next

theorem Idle.same {w v : World} (h : Idle w v) (hf : Fresh w) : Same w v where
  next := h.next
  fields := by rw [h.fields]; exact .refl _ _ _
  memrefs := by rw [h.memrefs]; exact .refl _ _ _
  rules := by rw [h.rules]; exact .refl _ _ _
  rsets := by rw [h.rsets]; exact .refl _ _ _
  bytes := by rw [h.memrefs]; exact .refl _ _ _
  zeroed := by
    intro a r ha hr
    rw [h.memrefs, hf.memrefs a ha] at hr
    cases hr
  written := h.written
  fieldKeys := by rw [h.fields]; exact .refl _ _
  ruleKeys := by rw [h.rules]; exact .refl _ _
  ifaceKeys := by rw [h.ifaces]; exact .refl _ _
  processes := h.processes
  fieldJS := h.fieldJS
  ruleJS := h.ruleJS
  ifaceJS := h.ifaceJS
  processJS := h.processJS
  tracked := h.tracked

theorem Idle.count {w v : World} (h : Idle w v) : v.count = w.count := by
  funext r
  cases r <;> simp only [World.count, h.fields, h.memrefs, h.rules, h.ifaces, h.rsets]

theorem Idle.consistent {w v : World} {live : Multiset Ref} (h : Idle w v)
    (hw : Consistent w live) : Consistent v live := by
  have hg := (h.same hw.fresh).toGrows
  exact
    { balanced := by rw [h.count, (h.same hw.fresh).stored]; exact hw.balanced
      fields := by rw [h.fieldJS, h.fields]; exact hw.fields
      states := by rw [h.stateJS, h.memrefs]; exact hw.states
      rules := by rw [h.ruleJS, h.rules]; exact hw.rules
      ifaces := by rw [h.ifaceJS, h.ifaces]; exact hw.ifaces
      processes := by rw [h.processJS, h.processes, h.ifaces]; exact hw.processes
      fresh := h.fresh hw.fresh
      counted := by rw [h.memrefs]; exact hw.counted
      ops := by rw [h.rules]; exact hw.opsOk hg
      routs := by rw [h.processes]; exact hw.routsOk hg
      inputs := by rw [h.processes, h.ifaces]; exact hw.inputs
      handlers := by
        rw [h.ifaces]
        intro a i hi
        have := hw.handlers a i hi
        unfold HandlerOk at this ⊢
        rw [h.processes]
        exact this
      tracked := by rw [h.tracked, h.ifaces]; exact hw.tracked }

theorem Idle.opsOk {w v u : World} {live : Multiset Ref} (h : Idle w v) (hw : Consistent w live)
    (hg : Grows w u) : ∀ a r, v.rules a = some r → ∀ op ∈ r.matchJQ ++ r.writeJQ, OpOk u op := by
  rw [h.rules]
  exact hw.opsOk hg

theorem Idle.routsOk {w v u : World} {live : Multiset Ref} (h : Idle w v) (hw : Consistent w live)
    (hg : Grows w u) : ∀ a p, v.processes a = some p →
      p.routSetJQ = p.routJQ.map Rout.set ∧ ∀ rt ∈ p.routJQ, RoutOk u rt := by
  rw [h.processes]
  exact hw.routsOk hg

theorem Idle.refl (w : World) : Idle w w :=
  ⟨Nat.le_refl _, rfl, rfl, rfl, rfl, rfl, rfl, rfl, rfl, rfl, rfl, rfl, rfl, rfl⟩

theorem Idle.trans {w v u : World} (h : Idle w v) (h' : Idle v u) : Idle w u where
  next := Nat.le_trans h.next h'.next
  memrefs := h'.memrefs.trans h.memrefs
  fields := h'.fields.trans h.fields
  rules := h'.rules.trans h.rules
  rsets := h'.rsets.trans h.rsets
  ifaces := h'.ifaces.trans h.ifaces
  processes := h'.processes.trans h.processes
  fieldJS := h'.fieldJS.trans h.fieldJS
  stateJS := h'.stateJS.trans h.stateJS
  ruleJS := h'.ruleJS.trans h.ruleJS
  ifaceJS := h'.ifaceJS.trans h.ifaceJS
  processJS := h'.processJS.trans h.processJS
  tracked := h'.tracked.trans h.tracked
  written := h'.written.trans h.written

/-- From `w` to `v` the address `a` was given out, and nothing is there yet. -/
structure Unborn (w v : World) (a : Addr) : Prop where
  idle : Idle w v
  above : w.next ≤ a
  below : a < v.next

theorem Unborn.later {w v u : World} {a : Addr} (h : Unborn w v a) (hi : Idle v u) :
    Unborn w u a :=
  ⟨h.idle.trans hi, h.above, Nat.lt_of_lt_of_le h.below hi.next⟩

theorem Unborn.consistent {w v : World} {a : Addr} {live : Multiset Ref} (h : Unborn w v a)
    (hw : Consistent w live) : Consistent v live :=
  h.idle.consistent hw

end Xdpacket
