import Xdpacket.Proofs.Consistent

namespace Xdpacket

variable {w v : World} {live live' : Multiset Ref} {a b : Addr}

section Same

theorem Same.fieldCount (h : Fresh w) {f : Field} (hf : w.fields a = some f) (c : Nat) :
    Same w { w with fields := Function.update w.fields a (some { f with refcnt := c }) } :=
  { Same.refl h with
    fields := .modify hf rfl
    fieldKeys := .modify hf rfl }

theorem Same.ruleCount (h : Fresh w) {r : Rule} (hr : w.rules a = some r) (c : Nat) :
    Same w { w with rules := Function.update w.rules a (some { r with refcnt := c }) } :=
  { Same.refl h with
    rules := .modify hr rfl
    ruleKeys := .modify hr rfl }

theorem Same.ifaceCount (h : Fresh w) {i : Iface} (hi : w.ifaces a = some i) (c : Nat) :
    Same w { w with ifaces := Function.update w.ifaces a (some { i with refcnt := c }) } :=
  { Same.refl h with ifaceKeys := .modify hi rfl }

/-- Another count for a state, or another state byte for byte equal. -/
theorem Same.setMemref (h : Fresh w) {r r' : Memref} (hr : w.memrefs a = some r)
    (hk : r'.key = r.key) (hb : r'.bytes = r.bytes) :
    Same w { w with memrefs := Function.update w.memrefs a (some r') } :=
  { Same.refl h with
    memrefs := .modify hr hk
    bytes := .modify hr hb
    zeroed := by
      intro b q hq hm
      have hlt := (h.memrefs.update (h.memrefs.below hr) (some r')).below hm
      exact absurd hlt (Nat.not_lt.mpr hq) }

theorem Same.freeMemref (h : Fresh w) (js : NameStore Text) :
    Same w { w with memrefs := Function.update w.memrefs a none, stateJS := js } :=
  { Same.refl h with
    memrefs := .remove
    bytes := .remove
    zeroed := by
      intro b q hq hm
      have hm := of_removed hm
      rw [h.memrefs b hq] at hm
      cases hm }

theorem Same.newMemref (h : Fresh w) (hu : Unborn w v a) {r : Memref}
    (hz : r.stateName.isSome → r.bytes = List.replicate r.set.len.toNat 0) (js : NameStore Text) :
    Same w { v with memrefs := Function.update v.memrefs a (some r), stateJS := js } :=
  { hu.idle.same h with
    memrefs := by
      rw [hu.idle.memrefs]
      exact .add hu.above _
    bytes := by
      rw [hu.idle.memrefs]
      exact .add hu.above _
    zeroed := by
      intro b q hq hm hs
      rcases of_updated hm with ⟨rfl, hp⟩ | ⟨-, hm⟩
      · cases hp
        exact hz hs
      · rw [hu.idle.memrefs, h.memrefs b hq] at hm
        cases hm }

/-- A rout set comes, goes or counts a match. -/
theorem Same.newRset (h : Fresh w) (hu : Unborn w v a) (s : RoutSet) :
    Same w { v with rsets := Function.update v.rsets a (some s) } :=
  { hu.idle.same h with
    rsets := by
      rw [hu.idle.rsets]
      exact .add hu.above _ }

theorem Same.freeRset (h : Fresh w) :
    Same w { w with rsets := Function.update w.rsets a none } :=
  { Same.refl h with rsets := .remove }

end Same

/-- An iface under its old name leaves all names and live addresses as they were. -/
theorem update_name {i i' : Iface} (hi : w.ifaces b = some i)
    (hn : i'.name = i.name) (c : Addr) :
    (Function.update w.ifaces b (some i') c).map Iface.name = (w.ifaces c).map Iface.name := by
  by_cases hc : c = b
  · subst hc
    simp [hi, hn]
  · rw [Function.update_of_ne hc]

theorem update_isSome {i i' : Iface} (hi : w.ifaces b = some i)
    (c : Addr) : (Function.update w.ifaces b (some i') c).isSome = (w.ifaces c).isSome := by
  by_cases hc : c = b
  · subst hc
    simp [hi]
  · rw [Function.update_of_ne hc]

namespace Consistent

theorem fieldCount (h : Consistent w live) {f : Field} (hf : w.fields a = some f) {c : Nat}
    (hb : InBalance (Function.update w.count (.field a) c) w.stored live') :
    Consistent { w with fields := Function.update w.fields a (some { f with refcnt := c }) }
      live' := by
  have hg := (Same.fieldCount h.fresh hf c).toGrows
  exact
    { h with
      balanced := by rw [count_setField]; exact hb
      fields := h.fields.modify hf rfl
      fresh := { h.fresh with fields := h.fresh.fields.update (h.fresh.fields.below hf) _ }
      ops := h.opsOk hg
      routs := h.routsOk hg }

theorem ruleCount (h : Consistent w live) {r : Rule} (hr : w.rules a = some r) {c : Nat}
    (hb : InBalance (Function.update w.count (.rule a) c) w.stored live') :
    Consistent { w with rules := Function.update w.rules a (some { r with refcnt := c }) }
      live' := by
  have hg := (Same.ruleCount h.fresh hr c).toGrows
  exact
    { h with
      balanced := by
        rw [count_setRule, stored_setRule { r with refcnt := c } hr rfl]
        exact hb
      rules := h.rules.modify hr rfl
      fresh := { h.fresh with rules := h.fresh.rules.update (h.fresh.rules.below hr) _ }
      ops := by
        intro b q hq op ho
        obtain ⟨q', hq', hk⟩ := hg.rules b
          ((h.fresh.rules.update (h.fresh.rules.below hr) _).below hq) q hq
        simp only [Rule.key, Prod.mk.injEq] at hk
        rw [hk.2.1, hk.2.2] at ho
        exact (h.ops b q' hq' op ho).mono hg
      routs := h.routsOk hg }

/-- A change of an iface that keeps its name and its handler. -/
theorem setIface (h : Consistent w live) {i i' : Iface} (hi : w.ifaces a = some i)
    (hn : i'.name = i.name) (hh : i'.handler = i.handler) (hc : i'.context = i.context)
    (hb : InBalance (Function.update w.count (.iface a) i'.refcnt) w.stored live') :
    Consistent { w with ifaces := Function.update w.ifaces a (some i') } live' := by
  have hname := update_name hi hn
  have hlive : ∀ c, (Function.update w.ifaces a (some i') c).isSome = _ := update_isSome hi
  have hg : Grows w { w with ifaces := Function.update w.ifaces a (some i') } :=
    { Grows.refl w with next := Nat.le_refl _ }
  exact
    { h with
      balanced := by rw [count_setIface]; exact hb
      ifaces := h.ifaces.modify hi (by rw [hn])
      processes := by
        apply h.processes.congr
        intro b
        simp only [hname]
      fresh := { h.fresh with ifaces := h.fresh.ifaces.update (h.fresh.ifaces.below hi) _ }
      ops := h.opsOk hg
      routs := h.routsOk hg
      handlers := by
        intro b q hq
        rcases of_updated hq with ⟨rfl, hp⟩ | ⟨-, hq⟩
        · cases hp
          have := h.handlers b i hi
          unfold HandlerOk at this ⊢
          rw [hh, hc]
          exact this
        · exact h.handlers b q hq
      inputs := fun b p hp => (hlive _).trans (h.inputs b p hp)
      tracked := ⟨h.tracked.1, fun x hx => (hlive _).trans (h.tracked.2 x hx)⟩ }

/-- Another memref in place of one with the same key, still held. -/
theorem setMemref (h : Consistent w live) {r r' : Memref} (hr : w.memrefs a = some r)
    (hk : r'.key = r.key) (hp : 0 < r'.count)
    (hb : InBalance (Function.update w.count (.memref a) r'.count) w.stored live') :
    Consistent { w with memrefs := Function.update w.memrefs a (some r') } live' := by
  have hg : Grows w { w with memrefs := Function.update w.memrefs a (some r') } :=
    { Grows.refl w with memrefs := .modify hr hk }
  exact
    { h with
      balanced := by rw [count_setMemref]; exact hb
      states := h.states.modify hr (congrArg Prod.snd hk)
      fresh := { h.fresh with memrefs := h.fresh.memrefs.update (h.fresh.memrefs.below hr) _ }
      counted := by
        exact live_update h.counted (fun q hq => by cases hq; exact hp)
      ops := h.opsOk hg
      routs := h.routsOk hg }

/-- A new state under a free name, or a new value. -/
theorem newMemref (h : Consistent w live) (hu : Unborn w v a) {r : Memref} (hc : r.count = 1)
    (hz : r.stateName.isSome → r.bytes = List.replicate r.set.len.toNat 0) {js : NameStore Text}
    (hreg : Registered js (Function.update v.memrefs a (some r)) Memref.stateName) :
    Consistent { v with memrefs := Function.update v.memrefs a (some r), stateJS := js }
      (.memref a ::ₘ live) := by
  have hg := (Same.newMemref h.fresh hu hz js).toGrows
  have hv := hu.consistent h
  have hnone : v.memrefs a = none := by
    rw [hu.idle.memrefs]
    exact h.fresh.memrefs a hu.above
  have hzero : v.count (.memref a) = 0 := by simp [World.count, hnone]
  have hb := hv.balanced.take_update (x := .memref a)
  rw [hzero] at hb
  exact
    { hv with
      balanced := by
        change InBalance (World.count { v with memrefs := Function.update v.memrefs a (some r) })
          v.stored _
        rw [count_setMemref]
        simpa [hc] using hb
      states := hreg
      fresh := { hv.fresh with memrefs := hv.fresh.memrefs.update hu.below _ }
      counted := by
        refine live_update hv.counted (fun q hq => ?_)
        cases hq
        omega
      ops := hu.idle.opsOk h hg
      routs := hu.idle.routsOk h hg }

/-- The last reference to a state or value goes, and the memref with it. -/
theorem freeMemref (h : Consistent w (.memref a ::ₘ live)) {r : Memref}
    (hr : w.memrefs a = some r) (hc : r.count = 1) {js : NameStore Text}
    (hreg : Registered js (Function.update w.memrefs a none) Memref.stateName) :
    Consistent { w with memrefs := Function.update w.memrefs a none, stateJS := js } live := by
  have hg := (Same.freeMemref h.fresh (a := a) js).toGrows
  have hone : w.count (.memref a) = 1 := by simp [World.count, hr, hc]
  have hb := h.balanced.release_update
  rw [hone] at hb
  exact
    { h with
      balanced := by
        change InBalance (World.count { w with memrefs := Function.update w.memrefs a none })
          w.stored _
        rw [count_setMemref]
        exact hb
      states := hreg
      fresh := { h.fresh with memrefs := h.fresh.memrefs.update (h.fresh.memrefs.below hr) _ }
      counted := by
        intro b q hq
        exact h.counted b q (of_removed hq)
      ops := h.opsOk hg
      routs := h.routsOk hg }

/-- A new rout set. -/
theorem newRset (h : Consistent w live) (hu : Unborn w v a) (s : RoutSet) :
    Consistent { v with rsets := Function.update v.rsets a (some s) } (.rset a ::ₘ live) := by
  have hg := (Same.newRset h.fresh hu s).toGrows
  have hv := hu.consistent h
  have hnone : v.rsets a = none := by
    rw [hu.idle.rsets]
    exact h.fresh.rsets a hu.above
  have hzero : v.count (.rset a) = 0 := by simp [World.count, hnone]
  have hb := hv.balanced.take_update (x := .rset a)
  rw [hzero] at hb
  exact
    { hv with
      balanced := by rw [count_setRset]; exact hb
      fresh := { hv.fresh with rsets := hv.fresh.rsets.update hu.below _ }
      ops := hu.idle.opsOk h hg
      routs := hu.idle.routsOk h hg }

theorem freeRset (h : Consistent w (.rset a ::ₘ live)) {s : RoutSet} (hs : w.rsets a = some s) :
    Consistent { w with rsets := Function.update w.rsets a none } live := by
  have hg := (Same.freeRset h.fresh (a := a)).toGrows
  have hone : w.count (.rset a) = 1 := by simp [World.count, hs]
  have hb := h.balanced.release_update
  rw [hone] at hb
  exact
    { h with
      balanced := by rw [count_setRset]; exact hb
      fresh := { h.fresh with rsets := h.fresh.rsets.update (h.fresh.rsets.below hs) _ }
      ops := h.opsOk hg
      routs := h.routsOk hg }

end Consistent

end Xdpacket
