import Xdpacket.Proofs.Passing
import Xdpacket.Proofs.StateBuffers

namespace Xdpacket

variable {w v : World} {live : Multiset Ref} {env : Env}

/-- Everything that is live was made by its own function. -/
structure Made (env : Env) (w : World) : Prop where
  fields : ∀ a f, w.fields a = some f → FieldMade env f
  memrefs : ∀ a r, w.memrefs a = some r → MemrefMade env r
  rules : ∀ a r, w.rules a = some r → RuleMade env r

theorem Made.of_parts (h : Made env w) (hf : v.fields = w.fields) (hm : v.memrefs = w.memrefs)
    (hr : v.rules = w.rules) : Made env v where
  fields := by rw [hf]; exact h.fields
  memrefs := by rw [hm]; exact h.memrefs
  rules := by rw [hr]; exact h.rules

theorem Made.changeField (h : Made env w) {a : Addr} {o : Option Field}
    (ho : ∀ f, o = some f → FieldMade env f) :
    Made env { w with fields := Function.update w.fields a o } where
  fields := live_update h.fields ho
  memrefs := h.memrefs
  rules := h.rules

theorem Made.changeMemref (h : Made env w) {a : Addr} {o : Option Memref}
    (ho : ∀ r, o = some r → MemrefMade env r) :
    Made env { w with memrefs := Function.update w.memrefs a o } where
  fields := h.fields
  memrefs := live_update h.memrefs ho
  rules := h.rules

theorem Made.changeRule (h : Made env w) {a : Addr} {o : Option Rule}
    (ho : ∀ r, o = some r → RuleMade env r) :
    Made env { w with rules := Function.update w.rules a o } where
  fields := h.fields
  memrefs := h.memrefs
  rules := live_update h.rules ho

instance made : SocketFree env (fun _ => True) (Made env) where
  dangling := fun _ => trivial
  nullName := trivial
  nullMember := trivial
  beyond := fun h hb => h.of_parts hb.fields hb.memrefs hb.rules
  sockets := fun h hf hm hr => h.of_parts hf hm hr
  forgetField := fun _ h => h.changeField (fun _ ho => (by cases ho))
  forgetMemref := fun _ h => h.changeMemref (fun _ ho => (by cases ho))
  forgetRule := fun _ h => h.changeRule (fun _ ho => (by cases ho))
  makeField := fun _ h hf => h.changeField (fun _ ho => Option.some.inj ho ▸ hf)
  makeMemref := fun _ h hr => h.changeMemref (fun _ ho => Option.some.inj ho ▸ hr)
  makeRule := fun _ h hr => h.changeRule (fun _ ho => Option.some.inj ho ▸ hr)
  countField := by
    intro w a f c h hf
    refine h.changeField (fun g hg => ?_)
    cases hg
    exact h.fields a f hf
  countState := by
    intro w a r name c c' h hr hk
    refine h.changeMemref (fun q hq => ?_)
    have hm := h.memrefs a r hr
    cases hq
    unfold MemrefMade at hm ⊢
    rw [hk] at hm
    exact hm
  countRule := by
    intro w a r c h hr
    refine h.changeRule (fun q hq => ?_)
    cases hq
    exact h.rules a r hr
  changeIface := fun h _ _ _ => h.of_parts rfl rfl rfl

/-- Packets write to states only, so every value keeps the bytes that it was made with. -/
theorem Made.passes (h : Made env w) (hc : Consistent w live) (hh : Handles w v)
    (hp : Passes w v) : Made env v where
  fields := by rw [hh.fields]; exact h.fields
  rules := by rw [hh.rules]; exact h.rules
  memrefs := by
    obtain ⟨ws, hw, hwrites⟩ := hp.written
    obtain ⟨ws', hw', -, hbytes⟩ := hh.writes
    obtain rfl : ws = ws' := List.append_cancel_left (hw.symm.trans hw')
    intro a r hr
    obtain ⟨q, hq, hk⟩ := hh.memrefs.evolves (a + 1) a (Nat.lt_succ_self a) r hr
    simp only [Prod.mk.injEq] at hk
    have hm := h.memrefs a q hq
    unfold MemrefMade at hm ⊢
    rw [hk.1, hk.2]
    cases hkind : q.kind with
    | state name c =>
      rw [hkind] at hm
      exact hm
    | value input rendered =>
      have hsame : r.bytes = q.bytes := by
        have hb := hbytes a
        rw [hr, hq, Option.map_some, Option.map_some] at hb
        rw [Option.some.inj hb]
        apply replay_elsewhere
        intro x hx he
        obtain ⟨b, rule, hrule, op, ho, hop⟩ := hwrites x hx
        have hok := hc.ops b rule hrule op (List.mem_append_right _ ho)
        have hstate := hok.state a q (by rw [← hok.to', hop]; exact he) hq
        unfold Memref.stateName at hstate
        rw [hkind] at hstate
        cases hstate
      rw [hkind] at hm
      cases input with
      | none => trivial
      | some input => rw [hsame]; exact hm

theorem subsystemParse_made {sub : Subsystem} {mode : ParseMode} {doc : Document}
    {mapping : Pairs doc} (h : Made env w) :
    Runs (fun _ => True) (subsystemParse env sub mode doc mapping) w (fun _ v => Made env v) := by
  have P : Policy env (fun _ => True) (Made env) := made.toPolicy
  cases sub with
  | iface => exact (Obeys.ifaceParse).keeps.runs h
  | field => exact (Obeys.fieldParse (P := P)).keeps.runs h
  | rule => exact (Obeys.ruleParse (P := P)).keeps.runs h
  | process => exact (Obeys.processParse (P := P)).keeps.runs h

theorem poll_made {a : Addr} {recv : Recv} (hc : Consistent w live) (h : Made env w) :
    Runs (fun _ => True) (poll env a recv) w (fun _ v => Made env v) := by
  unfold poll
  rw [Runs.bind_iff, Runs.get_iff]
  cases hr : w.tracked.find? (fun r => r.2 = a) with
  | none => exact h
  | some r =>
    have hp := List.find?_some hr
    have hsome : (w.ifaces a).isSome :=
      of_decide_eq_true hp ▸ hc.tracked.2 r (List.mem_of_find?_eq_some hr)
    refine ((Passing.ifaceCallback.runs w).and (ifaceCallback_does hc hsome)).bind ?_
    intro rc v hv
    obtain ⟨hp, hh, -⟩ := hv
    have hm : Made env v := h.passes hc hh hp
    have hremove : Obeys env (fun _ => True) (Made env) (do let _ ← eptkRemove env r.1) :=
      inferInstance
    split
    · exact hremove.keeps.runs hm
    · exact hm

theorem made_companion :
    Companion env (fun _ _ _ _ _ => True) (fun _ _ _ => True) (Made env) where
  idle := fun h hi _ => h.of_parts hi.fields hi.memrefs hi.rules
  mapping := fun _ h _ => subsystemParse_made h
  packet := fun hc h _ => poll_made hc h

theorem Reachable.made (h : Reachable env w) : Made env w := by
  obtain ⟨openFds, oom, sys, events, hr⟩ := h
  refine (made_companion.run ?_ (stepsMeet_of ?_) hr).2
  · exact ⟨fun _ _ h => (by cases h), fun _ _ h => (by cases h), fun _ _ h => (by cases h)⟩
  · intro event w
    cases event with
    | mapping sub mode doc pairs => trivial
    | document doc => exact documentMeets_of (fun _ _ _ _ => trivial)
    | packet a recv => trivial

end Xdpacket
