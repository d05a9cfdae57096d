import Xdpacket.Model.Program
import Xdpacket.Proofs.Documents
import Xdpacket.Proofs.Packets

namespace Xdpacket

variable {w v : World} {live : Multiset Ref} {env : Env} {doc : Document} {mapping : Pairs doc}
  {mode : ParseMode}

section Mappings

/-- `rule_parse`: what it queued and did not store stays counted. -/
theorem ruleParse_does (h : Consistent w live) :
    Frames NoDangle Quiet (ruleParse env mode doc mapping) w (fun _ v =>
      ∃ lost, Consistent v (lost + live)) := by
  unfold ruleParse
  refine Frames.bind ((ruleWalk_does h).weaken (fun _ => Same.toQuiet)) ?_
  intro r v hv
  cases r with
  | die s => exact ⟨.refl hv.queued.1.fresh, _, hv.queued.1⟩
  | go s =>
    by_cases hm : mode = .add
    · subst hm
      apply (ruleParse_add hv.queued).imp
      intro r u hu
      exact ⟨0, by rw [zero_add]; exact hu.1⟩
    · apply (ruleParse_other hv.queued.1 hm).imp
      intro r u hu
      exact ⟨_, hu⟩

/-- `process_parse` -/
theorem processParse_does (h : Consistent w live) :
    Frames NoDangle Quiet (processParse mode doc mapping) w (fun _ v =>
      ∃ lost, Consistent v (lost + live)) := by
  unfold processParse
  refine Frames.bind ((processWalk_does h).weaken (fun _ => Same.toQuiet)) ?_
  intro r v hv
  cases r with
  | die s => exact ⟨.refl hv.1.fresh, _, hv.1⟩
  | go s =>
    cases mode with
    | add =>
      apply (processParse_add hv).imp
      intro r u hu
      exact ⟨0, by rw [zero_add]; exact hu.1⟩
    | del => exact (processParse_del hv.1).imp (fun _ _ hu => ⟨_, hu.1⟩)
    | prn =>
      exact ((processParse_prn hv.1).weaken (fun _ => Same.toQuiet)).imp (fun _ _ hu => ⟨_, hu⟩)
    | invalid => exact (parseDie_quiet hv.1).imp (fun _ _ hu => ⟨_, hu⟩)

/-- Whatever the mapping, its parser keeps the stores consistent. -/
theorem subsystemParse_does {sub : Subsystem} (h : Consistent w live) :
    Frames NoDangle Quiet (subsystemParse env sub mode doc mapping) w (fun _ v =>
      ∃ lost, Consistent v (lost + live)) := by
  cases sub with
  | iface => exact (ifaceParse_does h).imp (fun _ _ hv => ⟨0, by rw [zero_add]; exact hv⟩)
  | field => exact (fieldParse_does h).imp (fun _ _ hv => ⟨0, by rw [zero_add]; exact hv⟩)
  | rule => exact ruleParse_does h
  | process => exact processParse_does h

end Mappings

section Runs

/-- An invariant that packets and lost registrations keep as well. -/
structure ProgramInvariant (env : Env) (I : World → Prop) : Prop extends Invariant I where
  handled : ∀ w v, I w → Handles w v → I v
  removed : ∀ w fd, I w → Frames NoDangle Quiet (eptkRemove env fd) w (fun _ v => I v)

/-- The condition of each mapping that an event hands to a parser. -/
def EventMeets (env : Env) (C : (doc : Document) → MappingCondition doc) (event : Event)
    (w : World) : Prop :=
  match event with
  | .mapping sub mode doc pairs => C doc sub mode pairs w
  | .document doc => DocumentMeets env (C doc) w
  | .packet _ _ => True

/-- Every event of a run meets the condition in the world it finds. -/
def StepsMeet (env : Env) (D : Event → World → Prop) : List Event → World → Prop
  | [], _ => True
  | event :: events, w => D event w ∧
    ∀ v, handle env event w = .ok ((), v) → StepsMeet env D events v

/-- Every mapping of a run meets the condition in the world it finds. -/
def RunMeets (env : Env) (C : (doc : Document) → MappingCondition doc) :
    List Event → World → Prop
  | [], _ => True
  | event :: events, w => EventMeets env C event w ∧
    ∀ v, handle env event w = .ok ((), v) → RunMeets env C events v

variable {I : World → Prop} {C : (doc : Document) → MappingCondition doc}

theorem RunMeets.steps {events : List Event} (h : RunMeets env C events w) :
    StepsMeet env (EventMeets env C) events w := by
  induction events generalizing w with
  | nil => trivial
  | cons event events ih => exact ⟨h.1, fun v hv => ih (h.2 v hv)⟩

/-- What each event keeps under its condition, a run keeps. -/
theorem handleAll_runs {E : Fault → Prop} {D : Event → World → Prop} {events : List Event}
    (hD : ∀ event w, I w → D event w → Runs E (handle env event) w (fun _ v => I v)) (h : I w)
    (hm : StepsMeet env D events w) : Runs E (handleAll env events) w (fun _ v => I v) := by
  induction events generalizing w with
  | nil => exact h
  | cons event events ih =>
    have hstep := hD event w h hm.1
    unfold handleAll
    rw [Runs.bind_iff]
    unfold Runs at hstep ⊢
    cases he : handle env event w with
    | error e =>
      rw [he] at hstep
      exact hstep
    | ok p =>
      rw [he] at hstep
      exact ih hstep (hm.2 p.2 he)

theorem poll_keeps {iface : Addr} {recv : Recv} (hI : ProgramInvariant env I) (h : I w) :
    Runs NoDangle (poll env iface recv) w (fun _ v => I v) := by
  obtain ⟨live, hc⟩ := hI.consistent w h
  unfold poll
  rw [Runs.bind_iff, Runs.get_iff]
  cases hr : w.tracked.find? (fun r => r.2 = iface) with
  | none => exact h
  | some r =>
    have hif : (w.ifaces iface).isSome := by
      have hp := List.find?_some hr
      rw [← of_decide_eq_true hp]
      exact hc.tracked.2 r (List.mem_of_find?_eq_some hr)
    refine Runs.bind (ifaceCallback_does hc hif) ?_
    intro rc v hv
    have hv := hI.handled w v h hv.1
    split
    · refine Runs.bind (hI.removed v _ hv) ?_
      intro _ u hu
      exact hu.2
    · exact hv

/-- One event keeps the invariant. -/
theorem handle_keeps {event : Event} (hI : ProgramInvariant env I)
    (hC : ∀ doc sub mode mapping w, I w → C doc sub mode mapping w →
      Frames NoDangle Quiet (subsystemParse env sub mode doc mapping) w (fun _ v => I v))
    (h : I w) (hm : EventMeets env C event w) :
    Runs NoDangle (handle env event) w (fun _ v => I v) := by
  cases event with
  | mapping sub mode doc pairs =>
    refine Runs.bind (hC doc sub mode pairs w h hm) ?_
    intro _ v hv
    exact hv.2
  | document doc =>
    refine Runs.bind (parseDocument_keeps hI.toInvariant (hC doc) h hm) ?_
    intro _ v hv
    exact hv.2
  | packet iface recv => exact poll_keeps hI h

/-- A run keeps the invariant. -/
theorem handleAll_keeps {events : List Event} (hI : ProgramInvariant env I)
    (hC : ∀ doc sub mode mapping w, I w → C doc sub mode mapping w →
      Frames NoDangle Quiet (subsystemParse env sub mode doc mapping) w (fun _ v => I v))
    (h : I w) (hm : RunMeets env C events w) :
    Runs NoDangle (handleAll env events) w (fun _ v => I v) :=
  handleAll_runs (fun _ _ hw hd => handle_keeps hI hC hw hd) h hm.steps

/-- A condition that always holds is met by every run. -/
theorem runMeets_of {events : List Event} (hC : ∀ doc sub mode mapping w, C doc sub mode mapping w) :
    RunMeets env C events w := by
  induction events generalizing w with
  | nil => trivial
  | cons event events ih =>
    refine ⟨?_, fun v _ => ih⟩
    cases event with
    | mapping sub mode doc pairs => exact hC _ _ _ _ _
    | document doc => exact documentMeets_of (hC doc)
    | packet iface recv => trivial

end Runs

section Consistency

/-- The program starts with nothing stored and nothing held. -/
theorem consistent_start (openFds : List Nat) (oom sys : List Bool) :
    Consistent (World.start openFds oom sys) 0 where
  balanced := by
    intro r
    cases r <;> rfl
  fields := Registered.empty
  states := Registered.empty
  rules := Registered.empty
  ifaces := Registered.empty
  processes := Registered.empty
  fresh := ⟨fun _ _ => rfl, fun _ _ => rfl, fun _ _ => rfl, fun _ _ => rfl, fun _ _ => rfl,
    fun _ _ => rfl⟩
  counted := fun _ _ hr => by cases hr
  ops := fun _ _ hr => by cases hr
  routs := fun _ _ hp => by cases hp
  inputs := fun _ _ hp => by cases hp
  handlers := fun _ _ hi => by cases hi
  tracked := ⟨List.nodup_nil, fun _ hx => by cases hx⟩

theorem consistent_invariant : ProgramInvariant env (fun w => ∃ live, Consistent w live) where
  consistent := fun _ h => h
  idle := fun _ _ h hi => ⟨h.choose, hi.consistent h.choose_spec⟩
  handled := fun _ _ h hh => ⟨h.choose, hh.consistent h.choose_spec⟩
  removed := fun _ _ h => (eptkRemove_does h.choose_spec).imp (fun _ _ hv => ⟨_, hv⟩)

/-- Whatever happens, no freed object is used and the stores stay consistent. -/
theorem handleAll_consistent {events : List Event} (h : Consistent w live) :
    Runs NoDangle (handleAll env events) w (fun _ v => ∃ live, Consistent v live) := by
  apply handleAll_keeps (C := fun _ _ _ _ _ => True) consistent_invariant _ ⟨live, h⟩
    (runMeets_of (fun _ _ _ _ _ => trivial))
  intro doc sub mode mapping w hw _
  exact (subsystemParse_does hw.choose_spec).imp (fun _ _ hv => ⟨_, hv.choose_spec⟩)

theorem reachable_start (openFds : List Nat) (oom sys : List Bool) :
    Reachable env (World.start openFds oom sys) :=
  ⟨openFds, oom, sys, [], rfl⟩

theorem handleAll_append {xs ys : List Event} (h : handleAll env xs w = .ok ((), v)) :
    handleAll env (xs ++ ys) w = handleAll env ys v := by
  induction xs generalizing w with
  | nil =>
    obtain ⟨-, rfl⟩ := pure_eq_ok.mp h
    rfl
  | cons x xs ih =>
    obtain ⟨_, u, hx, hxs⟩ := bind_eq_ok.mp h
    rw [← ih hxs]
    exact bind_run hx

/-- One more mapping is executed. -/
theorem Reachable.parsed {sub : Subsystem} {mode : ParseMode} {doc : Document} {pairs : Pairs doc}
    {errs : Nat} (h : Reachable env w)
    (hr : subsystemParse env sub mode doc pairs w = .ok (errs, v)) : Reachable env v := by
  obtain ⟨openFds, oom, sys, events, hw⟩ := h
  refine ⟨openFds, oom, sys, events ++ [.mapping sub mode doc pairs], ?_⟩
  rw [handleAll_append hw]
  exact bind_eq_ok.mpr ⟨(), v, bind_eq_ok.mpr ⟨errs, v, hr, rfl⟩, rfl⟩

theorem Reachable.consistent (h : Reachable env w) : ∃ live, Consistent w live := by
  obtain ⟨openFds, oom, sys, events, hr⟩ := h
  exact (handleAll_consistent (consistent_start openFds oom sys)).ok hr

end Consistency

section Companions

/-- What holds beside consistency: a mapping keeps it under `C`, and a packet under `K`. -/
structure Companion (env : Env) (C : (doc : Document) → MappingCondition doc)
    (K : Addr → Recv → World → Prop) (J : World → Prop) : Prop where
  idle : ∀ {w v}, J w → Idle w v → v.openFds = w.openFds → J v
  mapping : ∀ {w live doc sub mode mapping}, Consistent w live → J w → C doc sub mode mapping w →
    Runs (fun _ => True) (subsystemParse env sub mode doc mapping) w (fun _ v => J v)
  packet : ∀ {w live a recv}, Consistent w live → J w → K a recv w →
    Runs (fun _ => True) (poll env a recv) w (fun _ v => J v)

/-- Every mapping that an event hands to a parser meets `C`, and every packet meets `K`. -/
def Event.Meets (env : Env) (C : (doc : Document) → MappingCondition doc)
    (K : Addr → Recv → World → Prop) (event : Event) (w : World) : Prop :=
  match event with
  | .mapping sub mode doc pairs => C doc sub mode pairs w
  | .document doc => DocumentMeets env (C doc) w
  | .packet a recv => K a recv w

variable {C : (doc : Document) → MappingCondition doc} {K : Addr → Recv → World → Prop}
  {J : World → Prop}

theorem Companion.steadfast (h : Companion env C K J) :
    Steadfast (fun w => (∃ live, Consistent w live) ∧ J w) where
  consistent := fun _ hw => hw.1
  idle := fun _ _ hw hi ho => ⟨⟨_, hi.consistent hw.1.choose_spec⟩, h.idle hw.2 hi ho⟩

/-- One event keeps consistency and what holds beside it. -/
theorem Companion.handle (h : Companion env C K J) {event : Event}
    (hw : (∃ live, Consistent w live) ∧ J w) (hm : event.Meets env C K w) :
    Runs (fun _ => True) (handle env event) w (fun _ v => (∃ live, Consistent v live) ∧ J v) := by
  have hmapping : ∀ doc sub mode mapping w, (∃ live, Consistent w live) ∧ J w →
      C doc sub mode mapping w → Frames NoDangle Quiet (subsystemParse env sub mode doc mapping) w
        (fun _ v => (∃ live, Consistent v live) ∧ J v) := by
    intro doc sub mode mapping w hw hm
    obtain ⟨⟨live, hc⟩, hj⟩ := hw
    refine ((subsystemParse_does hc).and (h.mapping hc hj hm)).imp ?_
    intro _ v hv
    obtain ⟨⟨hq, lost, hcv⟩, hjv⟩ := hv
    exact ⟨hq, ⟨_, hcv⟩, hjv⟩
  have hdrop : ∀ {m : M Nat},
      Frames NoDangle Quiet m w (fun _ v => (∃ live, Consistent v live) ∧ J v) →
      Runs (fun _ => True) (m >>= fun _ => pure ()) w
        (fun _ v => (∃ live, Consistent v live) ∧ J v) :=
    fun hf => Runs.bind (hf.mono (fun _ _ => trivial) (fun _ _ hq => hq)) (fun _ _ hv => hv.2)
  cases event with
  | mapping sub mode doc pairs => exact hdrop (hmapping doc sub mode pairs w hw hm)
  | document doc => exact hdrop (parseDocument_steadfast h.steadfast (hmapping doc) hw hm)
  | packet a recv =>
    obtain ⟨⟨live, hc⟩, hj⟩ := hw
    exact ((poll_keeps consistent_invariant ⟨live, hc⟩).mono (fun _ _ => trivial)
      (fun _ _ hq => hq)).and (h.packet hc hj hm)

/-- So does a run whose events all meet their conditions. -/
theorem Companion.run (h : Companion env C K J) {openFds : List Nat} {oom sys : List Bool}
    {events : List Event} (hj : J (World.start openFds oom sys))
    (hm : StepsMeet env (Event.Meets env C K) events (World.start openFds oom sys))
    (hr : handleAll env events (World.start openFds oom sys) = .ok ((), w)) :
    (∃ live, Consistent w live) ∧ J w :=
  (handleAll_runs (fun _ _ hw hd => h.handle hw hd) ⟨⟨0, consistent_start openFds oom sys⟩, hj⟩ hm).ok hr

theorem stepsMeet_of {D : Event → World → Prop} {events : List Event} (hD : ∀ event w, D event w) :
    StepsMeet env D events w := by
  induction events generalizing w with
  | nil => trivial
  | cons event events ih => exact ⟨hD event w, fun v _ => ih⟩

end Companions

/-- An environment for runs on fixed inputs. -/
def Env.sample : Env where
  cpy := .ascending
  host := .little
  warns := false
  nstralloc := fun _ _ => .copy
  valueParse := fun _ _ => none
  ifAddress := fun _ => ""

end Xdpacket
