import Xdpacket.Model.Shutdown
import Xdpacket.Proofs.NoLeaks

namespace Xdpacket

variable {w v : World} {live : Multiset Ref} {env : Env} {a : Addr}

section Freeing

/-- A freed object was used. -/
def Dangles (e : Fault) : Prop := ∃ a, e = .dangling a

instance : Tolerant Dangles := ⟨fun a => ⟨a, rfl⟩⟩

/-- The program changes the world as `S` says, and only a freed object stops it. -/
abbrev Freeing (S : World → World → Prop) (m : M α) : Prop := Within Dangles S m

/-- A program that uses no freed object is not stopped at all. -/
theorem finishes {m : M α} {Q R : α → World → Prop} (h : Runs NoDangle m w Q)
    (h' : Runs Dangles m w R) : Runs (fun _ => False) m w (fun r v => Q r v ∧ R r v) := by
  unfold Runs at h h' ⊢
  cases hm : m w with
  | ok p =>
    rw [hm] at h h'
    exact ⟨h, h'⟩
  | error e =>
    rw [hm] at h h'
    obtain ⟨a, ha⟩ := h'
    exact h a ha

/-- Only fields and memrefs were handed back. -/
structure OpsFreed (w v : World) : Prop where
  next : v.next = w.next
  rules : v.rules = w.rules
  ifaces : v.ifaces = w.ifaces
  processes : v.processes = w.processes
  fieldJS : v.fieldJS = w.fieldJS
  ruleJS : v.ruleJS = w.ruleJS
  ifaceJS : v.ifaceJS = w.ifaceJS
  processJS : v.processJS = w.processJS
  openFds : v.openFds = w.openFds
  tracked : v.tracked = w.tracked

instance : Std.Refl OpsFreed := ⟨fun _ => ⟨rfl, rfl, rfl, rfl, rfl, rfl, rfl, rfl, rfl, rfl⟩⟩

instance : IsTrans World OpsFreed where
  trans := fun _ _ _ h h' =>
    ⟨h'.next.trans h.next, h'.rules.trans h.rules, h'.ifaces.trans h.ifaces, h'.processes.trans h.processes,
      h'.fieldJS.trans h.fieldJS, h'.ruleJS.trans h.ruleJS, h'.ifaceJS.trans h.ifaceJS,
      h'.processJS.trans h.processJS, h'.openFds.trans h.openFds, h'.tracked.trans h.tracked⟩

/-- Only rules, ifaces and rout sets were handed back. -/
structure RoutsFreed (w v : World) : Prop where
  next : v.next = w.next
  processes : v.processes = w.processes
  fieldJS : v.fieldJS = w.fieldJS
  ruleJS : v.ruleJS = w.ruleJS
  ifaceJS : v.ifaceJS = w.ifaceJS
  processJS : v.processJS = w.processJS
  ifaceKeys : SameKeys (fun i => (i.fd, i.name)) w.ifaces v.ifaces
  openFds : v.openFds = w.openFds
  tracked : v.tracked = w.tracked

instance : Std.Refl RoutsFreed := ⟨fun _ => ⟨rfl, rfl, rfl, rfl, rfl, rfl, .refl _ _, rfl, rfl⟩⟩

instance : IsTrans World RoutsFreed where
  trans := fun _ _ _ h h' =>
    ⟨h'.next.trans h.next, h'.processes.trans h.processes, h'.fieldJS.trans h.fieldJS, h'.ruleJS.trans h.ruleJS,
      h'.ifaceJS.trans h.ifaceJS, h'.processJS.trans h.processJS, h.ifaceKeys.trans h'.ifaceKeys,
      h'.openFds.trans h.openFds, h'.tracked.trans h.tracked⟩

namespace Freeing

variable {ref : Option Addr} {name : Text}

instance errOps : Freeing OpsFreed (nbErr name) :=
  ⟨fun _ => ⟨rfl, rfl, rfl, rfl, rfl, rfl, rfl, rfl, rfl, rfl⟩⟩

instance putField {o : Option Field} : Freeing OpsFreed (putField a o) :=
  ⟨fun _ => ⟨rfl, rfl, rfl, rfl, rfl, rfl, rfl, rfl, rfl, rfl⟩⟩

instance putMemref {o : Option Memref} : Freeing OpsFreed (putMemref a o) :=
  ⟨fun _ => ⟨rfl, rfl, rfl, rfl, rfl, rfl, rfl, rfl, rfl, rfl⟩⟩

instance toStateJS {g : World → NameStore Text} :
    Freeing OpsFreed (modify fun w => { w with stateJS := g w } : M PUnit) :=
  ⟨fun _ => ⟨rfl, rfl, rfl, rfl, rfl, rfl, rfl, rfl, rfl, rfl⟩⟩

instance fieldRelease : Freeing OpsFreed (fieldRelease ref) := by
  unfold Xdpacket.fieldRelease
  split <;> infer_instance

instance memrefRelease : Freeing OpsFreed (memrefRelease ref) := by
  unfold Xdpacket.memrefRelease memrefFree
  split
  · infer_instance
  · refine Within.step (fun r => ?_)
    split <;> infer_instance

instance opFree {op : Op} : Freeing OpsFreed (opFree op) := by
  unfold Xdpacket.opFree
  infer_instance

instance opFreeAll {ops : List Op} : Freeing OpsFreed (opFreeAll ops) := by
  induction ops with
  | nil => exact Within.pure
  | cons op ops ih => exact Within.step (fun _ => ih)

instance errRouts : Freeing RoutsFreed (nbErr name) :=
  ⟨fun _ => ⟨rfl, rfl, rfl, rfl, rfl, rfl, .refl _ _, rfl, rfl⟩⟩

instance putRule {o : Option Rule} : Freeing RoutsFreed (putRule a o) :=
  ⟨fun _ => ⟨rfl, rfl, rfl, rfl, rfl, rfl, .refl _ _, rfl, rfl⟩⟩

instance putRset {o : Option RoutSet} : Freeing RoutsFreed (putRset a o) :=
  ⟨fun _ => ⟨rfl, rfl, rfl, rfl, rfl, rfl, .refl _ _, rfl, rfl⟩⟩

instance ruleRelease : Freeing RoutsFreed (ruleRelease ref) := by
  unfold Xdpacket.ruleRelease
  split <;> infer_instance

/-- An iface under its old descriptor and name. -/
theorem putIface_runs {i i' : Iface} (hi : w.ifaces a = some i)
    (hk : (i'.fd, i'.name) = (i.fd, i.name)) :
    Runs Dangles (putIface a (some i')) w (fun _ v => RoutsFreed w v) :=
  ⟨rfl, rfl, rfl, rfl, rfl, rfl, .modify hi hk, rfl, rfl⟩

instance ifaceRelease : Freeing RoutsFreed (ifaceRelease ref) := by
  unfold Xdpacket.ifaceRelease
  split
  · infer_instance
  · refine ⟨fun w => deref_runs (fun i hi => ?_)⟩
    split
    · exact errRouts.runs w
    · exact putIface_runs hi rfl

instance routSetFree : Freeing RoutsFreed (routSetFree ref) := by
  unfold Xdpacket.routSetFree
  split <;> infer_instance

instance routFreeAll {rts : List Rout} : Freeing RoutsFreed (routFreeAll rts) := by
  induction rts with
  | nil => exact Within.pure
  | cons rt rts ih =>
    unfold Xdpacket.routFreeAll routFree
    infer_instance

end Freeing

end Freeing

section Steps

/-- From `w` to `v` nothing new was made. -/
structure Shrinks (w v : World) : Prop extends Quiet w v where
  next_eq : v.next = w.next

/-- `process_free` of the process at an entry: the entry goes as well. -/
theorem processFreeAt_erases {k : Text} (hc : Consistent w live)
    (hl : AList.lookup k w.processJS = some a) :
    Frames (fun _ => False) Shrinks (processFreeAt a) w (fun _ v => Consistent v live ∧
      v.processJS = w.processJS.erase k ∧ SameKeys (fun i => (i.fd, i.name)) w.ifaces v.ifaces ∧
        v.openFds = w.openFds ∧ v.tracked = w.tracked) := by
  obtain ⟨p, hp, hname⟩ := hc.processes.found hl
  obtain ⟨i, hi, hpos, -⟩ := hc.process_stored hp
  rw [hi, Option.map_some, Option.some.injEq] at hname
  subst hname
  obtain ⟨hh, hctx⟩ := handler_of_process hc hp hi
  refine (finishes (R := fun _ v => v.next = w.next ∧ v.processJS = w.processJS.erase i.name ∧
    SameKeys (fun i => (i.fd, i.name)) w.ifaces v.ifaces ∧ v.openFds = w.openFds ∧
      v.tracked = w.tracked) (processFreeAt_does hc hp) ?_).imp
        (fun _ v hv => ⟨⟨hv.1.1, hv.2.1⟩, hv.1.2.1, hv.2.2⟩)
  unfold processFreeAt processFree
  rw [deref_run hp]
  simp only []
  refine Runs.bind (handlerClear_runs hi hh hctx) ?_
  intro _ w₁ hw₁
  subst hw₁
  refine Runs.bind (ifaceRelease_runs (Function.update_self ..) hpos) ?_
  intro _ w₂ hw₂
  subst hw₂
  have hkeys : SameKeys (fun i => (i.fd, i.name)) w.ifaces (Function.update
      (Function.update w.ifaces p.inIface (some { i with handler := none, context := none }))
      p.inIface (some { i with handler := none, context := none, refcnt := i.refcnt - 1 })) := by
    rw [Function.update_idem]
    exact .modify hi rfl
  rw [deref_run (Function.update_self ..), jsGet_run]
  simp only [World.setIface, hl, if_true]
  rw [Runs.bind_iff, Runs.modify_iff]
  refine Runs.bind (Freeing.routFreeAll.runs _) ?_
  intro _ v hv
  exact ⟨hv.next, hv.processJS, hkeys.trans hv.ifaceKeys, hv.openFds, hv.tracked⟩

/-- `rule_free` of the rule at an entry: both go, or it is still referred to. -/
theorem ruleFreeAt_erases {k : Text} (hc : Consistent w live)
    (hl : AList.lookup k w.ruleJS = some a) :
    Frames (fun _ => False) Shrinks (ruleFreeAt a) w (fun _ v => Consistent v live ∧
      (v.ruleJS = w.ruleJS.erase k ∧ v.rules = Function.update w.rules a none ∨
        v.ruleJS = w.ruleJS ∧ v.rules = w.rules ∧ ∃ r, w.rules a = some r ∧ r.refcnt ≠ 0) ∧
      v.processJS = w.processJS ∧ v.ifaces = w.ifaces ∧ v.openFds = w.openFds ∧
        v.tracked = w.tracked) := by
  obtain ⟨r, hr, hname⟩ := hc.rules.found hl
  rw [Option.some.injEq] at hname
  subst hname
  by_cases hz : r.refcnt = 0
  · refine (finishes (R := fun _ v => v.next = w.next ∧ v.ruleJS = w.ruleJS.erase r.name ∧
      v.rules = Function.update w.rules a none ∧ v.processJS = w.processJS ∧
        v.ifaces = w.ifaces ∧ v.openFds = w.openFds ∧ v.tracked = w.tracked)
      (ruleFreeAt_does hc hr hz) ?_).imp
        (fun _ v hv => ⟨⟨hv.1.1, hv.2.1⟩, hv.1.2, .inl ⟨hv.2.2.1, hv.2.2.2.1⟩, hv.2.2.2.2⟩)
    unfold ruleFreeAt ruleFree ruleReleaseRefs
    rw [deref_run hr, if_neg (by omega), jsGet_run, if_pos hl, Runs.bind_iff, Runs.modify_iff]
    refine Runs.bind ((inferInstance : Freeing OpsFreed (do
      opFreeAll r.matchJQ
      opFreeAll r.writeJQ)).runs _) ?_
    intro _ v hv
    refine ⟨hv.next, hv.ruleJS, ?_, hv.processJS, hv.ifaces, hv.openFds, hv.tracked⟩
    exact congrArg (Function.update · a none) hv.rules
  · unfold ruleFreeAt ruleFree
    rw [deref_bind hr, if_pos hz]
    have hi : ∀ msg, Idle w { w with log := w.log ++ [msg] } :=
      fun msg => { Idle.refl w with next := Nat.le_refl _ }
    exact ⟨⟨((hi _).same hc.fresh).toQuiet, rfl⟩, (hi _).consistent hc, .inr ⟨rfl, rfl, r, hr, hz⟩, rfl, rfl, rfl, rfl⟩

/-- `iface_free` of a live iface that is not registered. -/
theorem ifaceFreeAt_closes {i : Iface} (hc : Consistent w live) (hi : w.ifaces a = some i)
    (ht : a ∉ w.tracked.map Prod.snd) :
    Frames (fun _ => False) Shrinks (ifaceFreeAt env a) w (fun _ v => Consistent v live ∧
      (v.ifaceJS = w.ifaceJS.erase i.name ∧ v.ifaces = Function.update w.ifaces a none ∧
          v.openFds = (if i.fd = -1 then w.openFds
            else w.openFds.filter (fun fd : Nat => (fd : Int) ≠ i.fd)) ∨
        v.ifaceJS = w.ifaceJS ∧ v.ifaces = w.ifaces ∧ v.openFds = w.openFds ∧ i.refcnt ≠ 0) ∧
      v.processJS = w.processJS ∧ v.rules = w.rules ∧ v.fields = w.fields ∧
        v.tracked = w.tracked) := by
  by_cases hz : i.refcnt = 0
  · refine (finishes (R := fun _ v => v.next = w.next ∧ (v.ifaceJS = w.ifaceJS.erase i.name ∧
      v.ifaces = Function.update w.ifaces a none ∧ v.openFds = (if i.fd = -1 then w.openFds
            else w.openFds.filter (fun fd : Nat => (fd : Int) ≠ i.fd))) ∧
        v.processJS = w.processJS ∧ v.rules = w.rules ∧ v.fields = w.fields ∧
          v.tracked = w.tracked)
      (ifaceFreeAt_does hc hi ht) ?_).imp
        (fun _ v hv => ⟨⟨hv.1.1, hv.2.1⟩, hv.1.2.1, .inl hv.2.2.1, hv.2.2.2⟩)
    unfold ifaceFreeAt ifaceFree
    rw [deref_run hi, if_neg (not_not.mpr hz), jsGet_run, if_pos (hc.ifaces.listed hi rfl)]
    by_cases hfd : i.fd = -1
    · simp [hfd, putIface, shown]
    · simp [hfd, putIface, shown]
  · unfold ifaceFreeAt ifaceFree
    rw [deref_bind hi, if_pos hz]
    have hidle : ∀ msg, Idle w { w with log := w.log ++ [msg] } :=
      fun msg => { Idle.refl w with next := Nat.le_refl _ }
    exact ⟨⟨((hidle _).same hc.fresh).toQuiet, rfl⟩, (hidle _).consistent hc, .inr ⟨rfl, rfl, rfl, hz⟩, rfl, rfl, rfl, rfl⟩

end Steps

end Xdpacket
