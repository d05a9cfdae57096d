import Xdpacket.Proofs.Forwarding
import Xdpacket.Proofs.Reshaping

namespace Xdpacket

variable {w v : World} {live live' : Multiset Ref} {env : Env} {a b rst : Addr} {n : Text}

section Lasting

/-- What is live before and after is named and filled alike. -/
theorem place_lasts (h : Consistent w live) (hq : Quiet w v) {r q : Memref}
    (hw : w.memrefs a = some r) (hv : v.memrefs a = some q) :
    v.place (some a) = w.place (some a) := by
  have hk : (q.set, q.stateName) = (r.set, r.stateName) := hq.memrefs.same h.fresh.memrefs hw hv
  have hb := hq.bytes.same h.fresh.memrefs hw hv
  unfold World.place
  simp only [hw, hv, (Prod.mk.inj hk).2, hb]

theorem operand_lasts {ref : Option Addr} {set : FieldSet} (h : Consistent w live) (hq : Quiet w v)
    (hw : w.toMem.Backs ref set) (hv : v.toMem.Backs ref set) : v.place ref = w.place ref := by
  cases ref with
  | none => rfl
  | some a =>
    obtain ⟨r, hr, -⟩ := hw a rfl
    obtain ⟨q, hq', -⟩ := hv a rfl
    exact place_lasts h hq hr hq'

theorem transfer_lasts {op : OpSet} (h : Consistent w live) (hq : Quiet w v) (hw : Wired w op)
    (hv : Wired v op) : v.transfer op = w.transfer op := by
  unfold World.transfer
  rw [operand_lasts h hq hw.to' hv.to', operand_lasts h hq hw.from' hv.from']

/-- The operations behind a root that is there before and after. -/
theorem queue_lasts {queue : Rule → List Op} {root : Option Addr} (h : Consistent w live)
    (hq : Quiet w v) (hk : ∀ r q : Rule, q.key = r.key → queue q = queue r)
    (hw : HasQueue w queue root (w.queue queue root))
    (hv : HasQueue v queue root (v.queue queue root)) : v.queue queue root = w.queue queue root := by
  cases root with
  | none => rfl
  | some a =>
    obtain ⟨r, hr, hrq⟩ := hw
    obtain ⟨q, hq', hqq⟩ := hv
    rw [← hrq, ← hqq]
    exact hk r q (hq.rules.same h.fresh.rules hr hq')

/-- A rout set that is there before and after stands for the same clause. -/
theorem clause_lasts {set set' : RoutSet} {out out' : Iface} (h : Consistent w live)
    (hq : Quiet w v) (hr : Retains w v) (hw : Routed w rst set out) (hv : Routed v rst set' out') :
    v.clause rst = w.clause rst := by
  obtain rfl : set' = set := hr.rsets.same h.fresh.rsets hw.found hv.found
  have hout : out'.name = out.name := hr.ifaces.same h.fresh.ifaces hw.output hv.output
  have hm := queue_lasts h hq (fun r q hk => (Prod.mk.inj (Prod.mk.inj hk).2).1) hw.matches' hv.matches'
  have hs := queue_lasts h hq (fun r q hk => (Prod.mk.inj (Prod.mk.inj hk).2).2) hw.writes hv.writes
  rw [hw.clause, hv.clause, hout, hm, hs]
  congr 2
  · exact List.map_congr_left (fun op ho => transfer_lasts h hq (hw.matched op ho)
      (hv.matched op (hm ▸ ho)))
  · exact List.map_congr_left (fun op ho => transfer_lasts h hq (hw.written op ho)
      (hv.written op (hs ▸ ho)))

/-- A process that is there before and after has the same table. -/
theorem table_lasts {p : Process} (h : Consistent w live) (h' : Consistent v live') (hq : Quiet w v)
    (hr : Retains w v) (hw : w.processes a = some p) (hv : v.processes a = some p) :
    p.routSetJQ.filterMap v.clause = p.routSetJQ.filterMap w.clause := by
  refine List.filterMap_congr (fun rst hrst => ?_)
  obtain ⟨set, out, hrouted⟩ := h.routed hw hrst
  obtain ⟨set', out', hrouted'⟩ := h'.routed hv hrst
  exact clause_lasts h hq hr hrouted hrouted'

end Lasting

section Reconfigured

/-- Where no process and no registration is touched, every port has its table still. -/
theorem ports_spared (h : Consistent w live) (h' : Consistent v live') (hq : Quiet w v)
    (hs : Spares w v) : v.ports = w.ports := by
  funext n
  unfold World.ports
  rw [hs.processJS, hs.processes, hs.tracked]
  refine Option.bind_congr (fun b hb => Option.bind_congr (fun p hp => ?_))
  rw [table_lasts h h' hq hs.toRetains hp (by rw [hs.processes]; exact hp)]

/-- A process that lasts is the one that its port had. -/
theorem port_lasts {p : Process} (h : Consistent w live) (h' : Consistent v live') (hq : Quiet w v)
    (hr : Reshapes w v) (hl : AList.lookup n v.processJS = some b) (hb : v.processes b = some p)
    (hp : w.processes b = some p) (ht : v.tracked.any (fun r => r.2 = p.inIface)) :
    w.ports n = some (p.routSetJQ.filterMap v.clause) := by
  obtain ⟨i, hi, -, hli⟩ := h.process_stored hp
  obtain ⟨q, hq', hname⟩ := h'.processes.found hl
  rw [hb] at hq'
  cases hq'
  obtain ⟨j, hj, hname⟩ := Option.map_eq_some_iff.mp hname
  have hn : n = i.name := hname.symm.trans (hr.ifaces.same h.fresh.ifaces hi hj)
  have htw : w.tracked.any (fun r => r.2 = p.inIface) := by
    obtain ⟨r, hrv, hra⟩ := List.any_eq_true.mp ht
    refine List.any_eq_true.mpr ⟨r, ?_, hra⟩
    rcases hr.tracked r hrv with hold | hnew
    · exact hold
    · rw [of_decide_eq_true hra] at hnew
      exact absurd (h.fresh.ifaces.below hi) (Nat.not_lt_of_le hnew)
  unfold World.ports
  rw [hn, hli, Option.bind_some, hp, Option.bind_some, if_pos htw,
    table_lasts h h' hq hr.toRetains hp hb]

/-- Configuring reconfigures the switch. -/
theorem switch_reconfigured (h : Consistent w live) (h' : Consistent v live') (hq : Quiet w v)
    (hr : Reshapes w v) : w.switch.Reconfigured v.switch where
  ports := by
    intro n
    change v.ports n = w.ports n ∨ v.ports n = none ∨ ∃ table, v.ports n = some table ∧ _
    cases hv : v.ports n with
    | none => exact .inr (.inl rfl)
    | some table =>
      have hports := hv
      unfold World.ports at hv
      obtain ⟨b, hl, hv⟩ := Option.bind_eq_some_iff.mp hv
      obtain ⟨p, hp, hv⟩ := Option.bind_eq_some_iff.mp hv
      split at hv
      swap
      · cases hv
      rename_i ht
      cases hv
      have hnew : w.processes b = some p →
          some (p.routSetJQ.filterMap v.clause) = w.ports n := fun hw =>
        (port_lasts h h' hq hr hl hp hw ht).symm
      by_cases hb : b < w.next
      · obtain ⟨q, hw, he⟩ := hr.processes b hb p hp
        cases he
        exact .inl (hnew hw)
      · rcases hr.newborn b p (Nat.le_of_not_lt hb) hp with hw | hfresh
        · exact .inl (hnew hw)
        · refine .inr (.inr ⟨_, rfl, fun c hc => ?_⟩)
          obtain ⟨rst, hrst, hclause⟩ := List.mem_filterMap.mp hc
          obtain ⟨set, out, hrouted⟩ := h'.routed hp hrst
          rw [hrouted.clause] at hclause
          cases hclause
          rcases hr.uncounted rst set (hfresh rst hrst) hrouted.found with hold | hzero
          · rw [h.fresh.rsets rst (hfresh rst hrst)] at hold
            cases hold
          · exact hzero
  buffers := by
    intro n
    change v.buffers n = w.buffers n ∨ v.buffers n = none ∨ ∃ k, v.buffers n = some _
    cases hv : v.buffers n with
    | none => exact .inr (.inl rfl)
    | some bytes =>
      unfold World.buffers at hv
      obtain ⟨a, hl, hv⟩ := Option.bind_eq_some_iff.mp hv
      obtain ⟨q, hq', rfl⟩ := Option.map_eq_some_iff.mp hv
      obtain ⟨q', hqa, hname⟩ := h'.states.found hl
      rw [hq'] at hqa
      cases hqa
      by_cases ha : a < w.next
      · obtain ⟨r, hr', hk⟩ := hq.memrefs a ha q hq'
        have hb := hq.bytes.same h.fresh.memrefs hr' hq'
        rw [buffers_state h.states hr' ((Prod.mk.inj hk).2.symm.trans hname), hb]
        exact .inl rfl
      · refine .inr (.inr ⟨q.set.len.toNat, ?_⟩)
        rw [hq.zeroed a q (Nat.le_of_not_lt ha) hq' (by rw [hname]; rfl)]

end Reconfigured

section Commands

/-- What a mapping or a document leaves of the switch, and that it sends nothing. -/
def Reconfigures (w v : World) : Prop := w.switch.Reconfigured v.switch ∧ v.sent = w.sent

/-- A mapping reconfigures the switch. One of the fields or the rules changes no port. -/
theorem subsystemParse_reconfigures {sub : Subsystem} {mode : ParseMode} {doc : Document}
    {mapping : Pairs doc} (h : Consistent w live) :
    Runs NoDangle (subsystemParse env sub mode doc mapping) w (fun _ v => Reconfigures w v ∧
      (sub = .field ∨ sub = .rule → v.ports = w.ports)) := by
  have hdoes : Frames NoDangle Quiet (subsystemParse env sub mode doc mapping) w (fun _ v =>
      ∃ lost, Consistent v (lost + live)) := subsystemParse_does h
  have hspares : Runs (fun _ => True) (subsystemParse env sub mode doc mapping) w (fun _ v =>
      sub = .field ∨ sub = .rule → Spares w v) := by
    cases sub with
    | field => exact (Sparing.fieldParse.runs w).imp (fun _ _ hv _ => hv)
    | rule => exact (Sparing.ruleParse.runs w).imp (fun _ _ hv _ => hv)
    | iface | process => exact Runs.any.imp (fun _ _ _ hs => by simp at hs)
  refine ((hdoes.and (Reshaping.subsystemParse.runs w)).and hspares).imp ?_
  intro _ v hv
  obtain ⟨⟨⟨hq, lost, hc⟩, hr⟩, hs⟩ := hv
  exact ⟨⟨switch_reconfigured h hc hq hr, hr.sent⟩, fun hsub => ports_spared h hc hq (hs hsub)⟩

theorem parseDocument_reconfigures {doc : Document} (h : Consistent w live) :
    Runs NoDangle (parseDocument env doc) w (fun _ v => Reconfigures w v) := by
  have hdoc : Frames NoDangle Quiet (parseDocument env doc) w (fun _ v =>
      ∃ live, Consistent v live) :=
    parseDocument_keeps (C := fun _ _ _ _ => True) (@consistent_invariant env).toInvariant
      (fun _ _ _ _ hw _ => (subsystemParse_does hw.choose_spec).imp
        (fun _ _ hv => ⟨_, hv.choose_spec⟩))
      ⟨live, h⟩ (documentMeets_of (fun _ _ _ _ => trivial))
  refine (hdoc.and (Reshaping.parseDocument.runs w)).imp ?_
  intro _ v hv
  obtain ⟨⟨hq, live', hc⟩, hr⟩ := hv
  exact ⟨switch_reconfigured h hc hq hr, hr.sent⟩

/-- Whatever has happened, whoever configures leaves the running ports alone: a port has its
table with its hits, or none, or a new one that has counted nothing; a state buffer has its
bytes, or is gone, or is zero; and nothing is sent. -/
structure Undisturbed (env : Env) (w : World) : Prop where
  mapping : ∀ sub mode doc pairs, Runs NoDangle (handle env (.mapping sub mode doc pairs)) w
    (fun _ v => Reconfigures w v ∧ (sub = .field ∨ sub = .rule → v.ports = w.ports))
  document : ∀ doc, Runs NoDangle (handle env (.document doc)) w (fun _ v => Reconfigures w v)

theorem ports_undisturbed (env : Env) (openFds : List Nat) (oom sys : List Bool)
    (events : List Event) :
    Runs NoDangle (handleAll env events) (World.start openFds oom sys)
      (fun _ w => Undisturbed env w) := by
  refine (handleAll_consistent (consistent_start openFds oom sys)).imp ?_
  rintro _ w ⟨live, h⟩
  refine ⟨fun sub mode doc pairs => ?_, fun doc => ?_⟩
  · exact (subsystemParse_reconfigures h).bind (fun _ _ hv => hv)
  · exact (parseDocument_reconfigures h).bind (fun _ _ hv => hv)

end Commands

end Xdpacket
