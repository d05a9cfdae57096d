import Xdpacket.Proofs.Contracts
import Xdpacket.Proofs.Beside

namespace Xdpacket

variable {w v : World} {live : Multiset Ref} {a b : Addr} {n : Text} {env : Env}

theorem Idle.quiet (h : Idle w v) (hf : Fresh w) : Quiet w v := (h.same hf).toQuiet

section Fields

/-- Freeing a field that was never stored changes nothing. -/
theorem fieldFree_named {E : Fault → Prop} (h : Consistent w live) (hu : Unborn w v a) :
    Frames E Idle (fieldFree a (some n) 0) v (fun _ _ => True) := by
  have hnone : v.fields a = none := by
    rw [hu.idle.fields]
    exact h.fresh.fields a hu.above
  have hl : AList.lookup n v.fieldJS ≠ some a := by
    intro hl
    obtain ⟨f, hf, -⟩ := (hu.consistent h).fields.found hl
    rw [hnone] at hf
    cases hf
  unfold fieldFree
  rw [if_neg (by omega), jsGet_bind, if_neg hl]
  refine ⟨{ Idle.refl v with fields := ?_ }, trivial⟩
  rw [← hnone]
  exact Function.update_eq_self _ _

theorem fieldFree_unborn {name : Option Text} (h : Consistent w live) (hu : Unborn w v a) :
    Frames NoDangle Idle (fieldFree a name 0) v (fun _ _ => True) := by
  cases name with
  | none =>
    intro b hb
    cases hb
  | some name => exact fieldFree_named h hu

/-- `field_free` of a stored field without references. -/
theorem fieldFreeAt_does {f : Field} (h : Consistent w live) (hf : w.fields a = some f)
    (hc : f.refcnt = 0) :
    Frames NoDangle Quiet (fieldFreeAt a) w (fun _ v => Consistent v live) := by
  unfold fieldFreeAt fieldFree
  rw [deref_bind hf, if_neg (by omega), jsGet_bind, if_pos (h.fields.listed hf rfl)]
  obtain ⟨hv, hq⟩ := h.unpublishField hf hc
  exact ⟨hq, hv⟩

/-- `field_new` -/
theorem fieldNew_does {name : Option Text} {offt len mask : Int} (h : Consistent w live) :
    Frames NoDangle Quiet (fieldNew env name offt len mask) w (fun r v =>
      Consistent v live ∧ ∀ a, r = some a → (v.fields a).isSome) := by
  have hfail : ∀ {u : World}, Idle w u → Quiet w u ∧ Consistent u live ∧
      ∀ a, none = some a → (u.fields a).isSome :=
    fun hi => ⟨hi.quiet h.fresh, hi.consistent h, fun a ha => by cases ha⟩
  have herr : ∀ {u : World} {msg : Text}, Idle w u → Idle w { u with log := u.log ++ [msg] } :=
    fun hi => { hi with next := hi.next }
  unfold fieldNew
  rw [Frames.get_bind]
  cases name with
  | none => exact hfail (herr (.refl w))
  | some name =>
    cases hl : AList.lookup name w.fieldJS with
    | some b =>
      simp only [hl, Option.isSome_some, if_true]
      exact hfail (herr (.refl w))
    | none =>
      simp only [hl, Option.isSome_none, Bool.false_eq_true, if_false]
      refine Runs.bind calloc_idle ?_
      intro ret v hv
      obtain ⟨hi, hu⟩ := hv
      cases ret with
      | none => exact hfail (herr hi)
      | some ret =>
        have hu := hu ret rfl
        refine Runs.bind strAlloc_idle ?_
        intro copied v₁ hv₁
        obtain ⟨hi₁, -⟩ := hv₁
        have hu := hu.later hi₁
        have hdie : ∀ {msg : Text} {name : Option Text},
            Runs NoDangle (nbErr msg >>= fun _ => fieldFree ret name 0 >>= fun _ => pure none :
              M (Option Addr)) v₁ (fun r u => Quiet w u ∧ Consistent u live ∧
                ∀ a, r = some a → (u.fields a).isSome) := by
          intro msg name
          refine Runs.bind nbErr_idle ?_
          intro _ v₂ hv₂
          have hu := hu.later hv₂.1
          refine Runs.bind (fieldFree_unborn h hu) ?_
          intro _ v₃ hv₃
          exact hfail (hu.idle.trans hv₃.1)
        cases copied with
        | null | inval => exact hdie
        | truncated copy => exact hdie
        | copy =>
          simp only []
          cases fieldSetOf offt len (if mask = 0 then 255 else mask) with
          | error msg => exact hdie
          | ok set =>
            have hfree : AList.lookup name v₁.fieldJS = none := by
              rw [hu.idle.fieldJS]
              exact hl
            obtain ⟨hv, hq⟩ := h.publishField hu (f := ⟨name, set, 0⟩) rfl rfl hfree
            refine ⟨hq, hv, ?_⟩
            intro b hb
            cases hb
            exact congrArg Option.isSome (Function.update_self (β := fun _ => Option Field) ..)

end Fields

section Rules

theorem ruleReleaseRefs_does {xs ys : List Op}
    (h : Consistent w (opsRefs xs + opsRefs ys + live)) :
    Frames NoDangle Same (ruleReleaseRefs xs ys) w (fun _ v => Consistent v live) := by
  rw [add_assoc] at h
  exact (opFreeAll_does h).bind (fun _ _ h => opFreeAll_does h)

/-- Freeing a rule that was never stored frees its operations. -/
theorem ruleFree_unborn {name : Option Text} {xs ys : List Op}
    (h : Consistent w (opsRefs xs + opsRefs ys + live)) (hu : Unborn w v a) :
    Frames NoDangle Same (ruleFree a name 0 xs ys) v (fun _ u => Consistent u live) := by
  cases name with
  | none =>
    intro b hb
    cases hb
  | some name =>
    have hv := hu.consistent h
    have hnone : v.rules a = none := by
      rw [hu.idle.rules]
      exact h.fresh.rules a hu.above
    have hl : AList.lookup name v.ruleJS ≠ some a := by
      intro hl
      obtain ⟨f, hf, -⟩ := hv.rules.found hl
      rw [hnone] at hf
      cases hf
    unfold ruleFree
    rw [if_neg (by omega), jsGet_bind, if_neg hl]
    apply (ruleReleaseRefs_does hv).bind_frame
    intro _ u hs hc
    have hnone' : u.rules a = none := by
      have hk := hs.ruleKeys a
      rw [hnone] at hk
      exact Option.map_eq_none_iff.mp hk
    have hi : Idle u { u with rules := Function.update u.rules a none } :=
      { Idle.refl u with
        rules := by
          rw [← hnone']
          exact Function.update_eq_self _ _ }
    exact ⟨hi.same hc.fresh, hi.consistent hc⟩

/-- `rule_free` of a stored rule without references. -/
theorem ruleFreeAt_does {r : Rule} (h : Consistent w live) (hr : w.rules a = some r)
    (hc : r.refcnt = 0) :
    Frames NoDangle Quiet (ruleFreeAt a) w (fun _ v => Consistent v live) := by
  unfold ruleFreeAt ruleFree
  rw [deref_bind hr, if_neg (by omega), jsGet_bind, if_pos (h.rules.listed hr rfl)]
  obtain ⟨hv, hq⟩ := h.unpublishRule hr hc
  -- the rule itself goes last, but the release of its operations does not see it
  have hsteady : Steady (fun rules => Function.update rules a none) id
      (ruleReleaseRefs r.matchJQ r.writeJQ) :=
    Steady.opFreeAll.bind (fun _ => Steady.opFreeAll)
  have hv : Consistent (World.aside { w with ruleJS := w.ruleJS.erase r.name }
      (fun rules => Function.update rules a none) id w.log)
      (opsRefs r.matchJQ + opsRefs r.writeJQ + live) := hv
  unfold Frames
  rw [Runs.bind_iff, Runs.modify_iff]
  refine Runs.bind (hsteady.runs ⟨w.log, rfl⟩ (ruleReleaseRefs_does hv)) ?_
  intro _ u hu
  obtain ⟨_, u', -, ⟨l, rfl⟩, hs, hcu⟩ := hu
  have hi : Idle (u.aside (fun rules => Function.update rules a none) id l)
      { u with rules := Function.update u.rules a none } :=
    { Idle.refl _ with next := Nat.le_refl _ }
  exact ⟨hq.trans (hs.toQuiet.trans (hi.quiet hcu.fresh)), hi.consistent hcu⟩

/-- `rule_new` -/
theorem ruleNew_does {xs ys : List Op} (h : Consistent w (opsRefs xs + opsRefs ys + live))
    (hops : ∀ op ∈ xs ++ ys, OpOk w op) :
    Frames NoDangle Quiet (ruleNew env n xs ys) w (fun r v =>
      Consistent v live ∧ match r with
        | none => Same w v
        | some a => v.rules a = some ⟨n, xs, ys, 0⟩ ∧ AList.lookup n w.ruleJS = none) := by
  have hfail : ∀ {u : World}, Same w u → Consistent u live → Quiet w u ∧ Consistent u live ∧ Same w u :=
    fun hs hu => ⟨hs.toQuiet, hu, hs⟩
  unfold ruleNew
  refine Runs.bind calloc_idle ?_
  intro ret v hv
  obtain ⟨hi, hu⟩ := hv
  cases ret with
  | none =>
    refine Runs.bind (ruleReleaseRefs_does (hi.consistent h)) ?_
    intro _ u hu
    have hi' : Idle u { u with log := u.log ++ ["fail alloc size 32"] } :=
      { Idle.refl u with next := Nat.le_refl _ }
    exact hfail ((hi.same h.fresh).trans (hu.1.trans (hi'.same hu.2.fresh))) (hi'.consistent hu.2)
  | some ret =>
    have hu := hu ret rfl
    refine Runs.bind strAlloc_idle ?_
    intro copied v₁ hv₁
    have hu := hu.later hv₁.1
    have hdie : ∀ {msg : Text} {name : Option Text},
        Runs NoDangle (nbErr msg >>= fun _ => ruleFree ret name 0 xs ys >>= fun _ => pure none :
          M (Option Addr)) v₁ (fun r u => Quiet w u ∧ Consistent u live ∧ match r with
            | none => Same w u
            | some a => u.rules a = some ⟨n, xs, ys, 0⟩ ∧ AList.lookup n w.ruleJS = none) := by
      intro msg name
      refine Runs.bind nbErr_idle ?_
      intro _ v₂ hv₂
      have hu := hu.later hv₂.1
      refine Runs.bind (ruleFree_unborn h hu) ?_
      intro _ v₃ hv₃
      exact hfail ((hu.idle.same h.fresh).trans hv₃.1) hv₃.2
    cases copied with
    | null | inval => exact hdie
    | truncated copy => exact hdie
    | copy =>
      rw [Runs.bind_iff, Runs.get_iff]
      cases hl : AList.lookup n v₁.ruleJS with
      | some b =>
        simp only [Option.isSome_some, if_true]
        exact hdie
      | none =>
        simp only [Option.isSome_none, Bool.false_eq_true, if_false]
        obtain ⟨hv, hq⟩ := h.publishRule hu (r := ⟨n, xs, ys, 0⟩) rfl rfl hl hops
        refine ⟨hq, hv, Function.update_self .., ?_⟩
        rw [← hu.idle.ruleJS]
        exact hl

/-- A constructor that hands back what it made and answers null. -/
theorem answers_none {m : M Unit} {k : Unit → M Unit} {P : Prop} (hP : P) :
    Runs (fun _ => True) (m >>= fun x => k x >>= fun _ => pure none : M (Option Addr)) w
      (fun r _ => r = none ↔ P) := by
  refine Runs.bind (R := fun _ _ => True) ?_ (fun x t _ => Runs.bind (R := fun _ _ => True) ?_
    (fun _ _ _ => ⟨fun _ => hP, fun _ => rfl⟩))
  · unfold Runs
    split <;> trivial
  · unfold Runs
    split <;> trivial

/-- When `rule_new` answers null: an allocation fails, the name is taken or cannot
be stored. -/
def RuleRefused (env : Env) (name : Text) (w : World) : Prop :=
  w.oom.headD false = true ∨ w.oom.tail.headD false = true ∨
    env.nstralloc name MAXLINELEN ≠ .copy ∨ (AList.lookup name w.ruleJS).isSome

theorem ruleNew_refused {xs ys : List Op} :
    Runs (fun _ => True) (ruleNew env n xs ys) w (fun r _ => r = none ↔ RuleRefused env n w) := by
  unfold ruleNew
  refine Runs.bind (calloc_idle.and (calloc_draw (E := fun _ => True))) ?_
  intro ret v hv
  obtain ⟨⟨hi, -⟩, hret, hoom⟩ := hv
  cases ret with
  | none => exact answers_none (.inl (hret.mp rfl))
  | some ret =>
    have hfirst : ¬ w.oom.headD false = true := by
      intro hf
      have := hret.mpr hf
      cases this
    refine Runs.bind strAlloc_draw ?_
    intro copied u hu
    obtain ⟨hcopied, rfl⟩ := hu
    rw [hoom] at hcopied
    have hbad : copied ≠ .copy → RuleRefused env n w := by
      intro hc
      by_cases hf : w.oom.tail.headD false = true
      · exact .inr (.inl hf)
      · exact .inr (.inr (.inl fun hn => hc (hcopied.mpr ⟨Bool.eq_false_of_not_eq_true hf, hn⟩)))
    cases copied with
    | null => exact answers_none (hbad (fun hc => by cases hc))
    | inval => exact answers_none (hbad (fun hc => by cases hc))
    | truncated copy => exact answers_none (hbad (fun hc => by cases hc))
    | copy =>
      obtain ⟨hsecond, hn⟩ := hcopied.mp rfl
      rw [Runs.bind_iff, Runs.get_iff]
      simp only [hi.ruleJS]
      cases hl : AList.lookup n w.ruleJS with
      | some b =>
        simp only [Option.isSome_some, if_true]
        exact answers_none (.inr (.inr (.inr (by rw [hl]; rfl))))
      | none =>
        simp only [Option.isSome_none, Bool.false_eq_true, if_false]
        refine ⟨fun hc => (by cases hc), fun hc => ?_⟩
        rcases hc with hc | hc | hc | hc
        · exact absurd hc hfirst
        · rw [hsecond] at hc
          cases hc
        · exact absurd hn hc
        · rw [hl] at hc
          cases hc

end Rules

section Routs

/-- `rout_set_new` copies the output and the roots of the rule's queues. -/
theorem routSetNew_does {rule output : Addr} {r : Rule} (h : Consistent w live)
    (hr : w.rules rule = some r) :
    Frames NoDangle Same (routSetNew rule output) w (fun x v =>
      Consistent v (holdOpt .rset x + live) ∧ ∀ s, x = some s →
        RoutOk v ⟨rule, output, s⟩) := by
  unfold routSetNew
  refine Runs.bind calloc_idle ?_
  intro ret v hv
  obtain ⟨hi, hu⟩ := hv
  cases ret with
  | none =>
    have hi' : Idle w { v with log := v.log ++ ["fail malloc size 32"] } :=
      { hi with next := hi.next }
    refine ⟨hi'.same h.fresh, ?_, fun s hs => by cases hs⟩
    rw [holdOpt_none_add]
    exact hi'.consistent h
  | some ret =>
    have hu := hu ret rfl
    have hr' : v.rules rule = some r := by
      rw [hi.rules]
      exact hr
    refine (deref_run hr').mpr ?_
    refine ⟨.newRset h.fresh hu _, ?_, ?_⟩
    · simp only [holdOpt_some_add]
      exact h.newRset hu _
    · intro s hs
      cases hs
      refine ⟨?_, hu.below, ?_⟩
      · exact (hu.consistent h).fresh.rules.below hr'
      · intro o ho
        have ho := (Function.update_self ..).symm.trans ho
        cases ho
        refine ⟨rfl, ?_⟩
        intro q hq
        have hq := hr'.symm.trans hq
        cases hq
        exact ⟨rfl, rfl⟩

/-- `rout_free` ends the references of a possibly unfinished rout. -/
theorem routFree_does {rule output set : Option Addr}
    (h : Consistent w (holdOpt .rule rule + (holdOpt .iface output + (holdOpt .rset set + live)))) :
    Frames NoDangle Same (routFree rule output set) w (fun _ v => Consistent v live) := by
  unfold routFree
  apply (ruleRelease_does h).bind
  intro _ _ h
  apply (ifaceRelease_does h).bind
  intro _ _ h
  exact routSetFree_does h

theorem routFreeAll_does {rts : List Rout} (h : Consistent w (routsRefs rts + live)) :
    Frames NoDangle Same (routFreeAll rts) w (fun _ v => Consistent v live) := by
  induction rts generalizing w with
  | nil =>
    rw [routsRefs_nil, zero_add] at h
    exact ⟨.refl h.fresh, h⟩
  | cons rt rts ih =>
    rw [routsRefs_cons, Rout.refs, add_assoc, add_assoc, add_assoc] at h
    exact (routFree_does h).bind
      (fun _ _ h => ih h)

/-- `rout_new` answers a rout that holds its rule, its output and its set, or
hands back all it took. -/
theorem routNew_does {ruleName outName : Option Text} (h : Consistent w live) :
    Frames NoDangle Same (routNew ruleName outName) w (fun r v =>
      Consistent v (r.elim 0 Rout.refs + live) ∧ ∀ rt, r = some rt → RoutOk v rt) := by
  have hnone : ∀ {v : World}, Consistent v live →
      Consistent v ((none : Option Rout).elim 0 Rout.refs + live) ∧
        ∀ rt, none = some rt → RoutOk v rt := by
    intro v hv
    refine ⟨?_, fun rt hrt => by cases hrt⟩
    rwa [Option.elim_none, zero_add]
  have hdie : ∀ {v : World} {msg : Text} {rule output : Option Addr},
      Consistent v (holdOpt .rule rule + (holdOpt .iface output + live)) →
      Frames NoDangle Same
        (nbErr msg >>= fun _ => routFree rule output none >>= fun _ => pure none :
          M (Option Rout)) v (fun r v =>
          Consistent v (r.elim 0 Rout.refs + live) ∧ ∀ rt, r = some rt → RoutOk v rt) := by
    intro v msg rule output hv
    apply (keep hv nbErr_idle).bind
    intro _ u hu
    have hu : Consistent u (holdOpt .rule rule + (holdOpt .iface output +
        (holdOpt .rset none + live))) := by
      rw [holdOpt_none_add]
      exact hu.1
    apply (routFree_does hu).bind
    intro _ u hu
    exact ⟨.refl hu.fresh, hnone hu⟩
  unfold routNew
  cases ruleName with
  | none => exact keep_err h (fun v hv _ => hnone hv)
  | some ruleName =>
    cases outName with
    | none => exact keep_err h (fun v hv _ => hnone hv)
    | some outName =>
      apply (keep h alloc_idle).bind
      intro ok v hv
      obtain ⟨h, -⟩ := hv
      cases ok with
      | false => exact keep_err h (fun v hv _ => hnone hv)
      | true =>
        simp only [Bool.not_true, Bool.false_eq_true, if_false]
        apply (ruleGet_does h).bind
        intro rule v h
        cases rule with
        | none => exact hdie (by simpa only [holdOpt_none_add] using h)
        | some rule =>
          apply (ifaceGet_does h).bind
          intro output v hv
          obtain ⟨h, -⟩ := hv
          have hswap : holdOpt .iface output + (holdOpt .rule (some rule) + live) =
              holdOpt .rule (some rule) + (holdOpt .iface output + live) :=
            add_left_comm _ _ _
          rw [hswap] at h
          cases output with
          | none => exact hdie h
          | some output =>
            obtain ⟨r, hr, -⟩ := h.rule_live (a := rule) (by rw [holdOpt_some_add]; simp)
            apply (routSetNew_does h hr).bind
            intro set v hv
            obtain ⟨h, hok⟩ := hv
            cases set with
            | none =>
              rw [holdOpt_none_add] at h
              exact hdie h
            | some set =>
              refine ⟨.refl h.fresh, ?_, ?_⟩
              · have he : Rout.refs ⟨rule, output, set⟩ + live = holdOpt .rset (some set) +
                    (holdOpt .rule (some rule) + (holdOpt .iface (some output) + live)) := by
                  simp only [Rout.refs, holdOpt]
                  ac_rfl
                rw [← he] at h
                exact h
              · intro rt hrt
                cases hrt
                exact hok set rfl

end Routs

section Ifaces

/-- Freeing an iface that was never stored changes nothing. -/
theorem ifaceFree_unborn {parts : IfaceParts} (h : Consistent w live) (hu : Unborn w v a)
    (hc : parts.refcnt = 0) :
    Frames NoDangle Idle (ifaceFree env a parts) v (fun _ _ => True) := by
  unfold ifaceFree
  rw [if_neg (by omega)]
  cases hn : parts.name with
  | none =>
    intro b hb
    cases hb
  | some name =>
    have hnone : v.ifaces a = none := by
      rw [hu.idle.ifaces]
      exact h.fresh.ifaces a hu.above
    have hl : AList.lookup name v.ifaceJS ≠ some a := by
      intro hl
      obtain ⟨i, hi, -⟩ := (hu.consistent h).ifaces.found hl
      rw [hnone] at hi
      cases hi
    rw [jsGet_bind, if_neg hl]
    have hput : Function.update v.ifaces a none = v.ifaces := by
      rw [← hnone]
      exact Function.update_eq_self _ _
    by_cases hthrow : (env.warns && !parts.hwaddr) = true
    · rw [if_pos hthrow]
      intro b hb
      cases hb
    rw [if_neg hthrow]
    split
    · exact ⟨{ Idle.refl v with ifaces := hput }, trivial⟩
    · exact ⟨{ Idle.refl v with ifaces := hput }, trivial⟩

theorem ifaceDie_unborn {parts : IfaceParts} {msg : Text} (h : Consistent w live)
    (hu : Unborn w v a) (hc : parts.refcnt = 0) :
    Frames NoDangle Idle (ifaceDie env a parts msg) v (fun r _ => r = none) := by
  unfold ifaceDie
  refine Runs.bind nbErr_idle ?_
  intro _ v₁ hv₁
  refine Runs.bind (ifaceFree_unborn h (hu.later hv₁.1) hc) ?_
  intro _ v₂ hv₂
  exact ⟨hv₁.1.trans hv₂.1, rfl⟩

/-- `iface_free` of a stored iface that is no longer registered. One that is still
referred to stays. -/
theorem ifaceFreeAt_does {i : Iface} (h : Consistent w live) (hi : w.ifaces a = some i)
    (ht : a ∉ w.tracked.map Prod.snd) :
    Frames NoDangle Quiet (ifaceFreeAt env a) w (fun _ v =>
      Consistent v live ∧ v.tracked = w.tracked ∧ ∀ b, b ≠ a → v.ifaces b = w.ifaces b) := by
  unfold ifaceFreeAt ifaceFree
  rw [deref_bind hi]
  by_cases hc : i.refcnt = 0
  · rw [if_neg (by simp [hc]), jsGet_bind, if_pos (h.ifaces.listed hi rfl)]
    obtain ⟨hv, hq⟩ := h.unpublishIface hi hc ht
    have hgone : ∀ b, b ≠ a → Function.update w.ifaces a none b = w.ifaces b :=
      fun b hb => Function.update_of_ne hb _ _
    simp only [Bool.not_true, Bool.and_false, Bool.false_eq_true, if_false]
    have hidle : ∀ fds, Idle { w with
        ifaceJS := w.ifaceJS.erase i.name, ifaces := Function.update w.ifaces a none }
        { w with
          ifaceJS := w.ifaceJS.erase i.name, ifaces := Function.update w.ifaces a none,
          openFds := fds } :=
      fun fds => { Idle.refl _ with next := Nat.le_refl _ }
    split
    · exact ⟨hq.trans ((hidle _).quiet hv.fresh), (hidle _).consistent hv, rfl, hgone⟩
    · exact ⟨hq, hv, rfl, hgone⟩
  · rw [if_pos hc]
    have hidle : ∀ msg, Idle w { w with log := w.log ++ [msg] } :=
      fun msg => { Idle.refl w with next := Nat.le_refl _ }
    exact ⟨(hidle _).quiet h.fresh, (hidle _).consistent h, rfl, fun _ _ => rfl⟩

theorem allCalls_idle {call : M Bool} (h : ∀ w, Frames E Idle call w (fun _ _ => True)) (k : Nat) :
    Frames E Idle (allCalls call k) w (fun _ _ => True) := by
  induction k generalizing w with
  | zero => exact ⟨.refl w, trivial⟩
  | succ k ih =>
    apply (h w).bind
    intro ok v _
    cases ok with
    | false => exact ⟨.refl v, trivial⟩
    | true => exact ih

/-- What `iface_new` promises of its answer. -/
def NewIface (w : World) (live : Multiset Ref) (r : Option Addr) (v : World) : Prop :=
  Quiet w v ∧ Consistent v live ∧
    ∀ a, r = some a → (v.ifaces a).isSome ∧ a ∉ v.tracked.map Prod.snd

theorem NewIface.none (h : Consistent w live) (hi : Idle w v) : NewIface w live none v :=
  ⟨hi.quiet h.fresh, hi.consistent h, fun a ha => by cases ha⟩

theorem ifaceDie_does {parts : IfaceParts} {msg : Text} (h : Consistent w live)
    (hu : Unborn w v a) (hc : parts.refcnt = 0) :
    Runs NoDangle (ifaceDie env a parts msg) v (NewIface w live) := by
  refine Runs.imp (ifaceDie_unborn h hu hc) ?_
  intro r u hr
  rw [hr.2]
  exact .none h (hu.idle.trans hr.1)

/-- `iface_new` from `socket` on -/
theorem ifaceOpen_does (h : Consistent w live) (hu : Unborn w v a)
    (hl : AList.lookup n w.ifaceJS = none) :
    Runs NoDangle (ifaceOpen env a n) v (NewIface w live) := by
  unfold ifaceOpen
  refine Runs.bind syscall_idle ?_
  intro ok v₁ hv₁
  have hu := hu.later hv₁.1
  cases ok with
  | false => exact ifaceDie_does h hu rfl
  | true =>
    simp only [Bool.not_true, Bool.false_eq_true, if_false]
    rw [Runs.bind_iff, Runs.get_iff, Runs.bind_iff, Runs.modify_iff]
    have hopen : Idle v₁ { v₁ with openFds := lowestFd v₁.openFds :: v₁.openFds } :=
      { Idle.refl v₁ with next := Nat.le_refl _ }
    have hu := hu.later hopen
    refine Runs.bind (allCalls_idle (fun _ => syscall_idle) 8) ?_
    intro ok v₂ hv₂
    have hu := hu.later hv₂.1
    cases ok with
    | false => exact ifaceDie_does h hu rfl
    | true =>
      simp only [Bool.not_true, Bool.false_eq_true, if_false]
      refine Runs.bind alloc_idle ?_
      intro ok v₂ hv₂
      have hu := hu.later hv₂.1
      cases ok with
      | false => exact ifaceDie_does h hu rfl
      | true =>
        have hfree : AList.lookup n v₂.ifaceJS = none := by
          rw [hu.idle.ifaceJS]
          exact hl
        obtain ⟨hc, hq⟩ := h.publishIface hu (n := n) (i :=
          { fd := lowestFd v₁.openFds, handler := none, context := none, countIn := 0, countOut := 0,
            countCheckfail := 0, countSockdrop := 0, name := n,
            ipPrn := env.ifAddress n, refcnt := 0 }) rfl rfl rfl hfree
        refine ⟨hq, hc, ?_⟩
        intro b hb
        cases hb
        refine ⟨congrArg Option.isSome (Function.update_self (β := fun _ => Option Iface) ..), ?_⟩
        intro hm
        obtain ⟨x, hx, hxa⟩ := List.mem_map.mp hm
        have hx : x ∈ v₂.tracked := hx
        rw [hu.idle.tracked] at hx
        have hlive := h.tracked.2 x hx
        rw [hxa, h.fresh.ifaces a hu.above] at hlive
        cases hlive

/-- `iface_new` -/
theorem ifaceNew_does (h : Consistent w live) :
    Runs NoDangle (ifaceNew env n) w (NewIface w live) := by
  have herr : ∀ {u : World} {msg : Text}, Idle w u → Idle w { u with log := u.log ++ [msg] } :=
    fun hi => { hi with next := hi.next }
  unfold ifaceNew
  rw [Runs.bind_iff, Runs.get_iff]
  cases hl : AList.lookup n w.ifaceJS with
  | some b =>
    simp only [Option.isSome_some, if_true]
    exact .none h (herr (.refl w))
  | none =>
    simp only [Option.isSome_none, Bool.false_eq_true, if_false]
    refine Runs.bind calloc_idle ?_
    intro ret v hv
    obtain ⟨hi, hu⟩ := hv
    cases ret with
    | none => exact .none h (herr hi)
    | some ret =>
      have hu := hu ret rfl
      refine Runs.bind strAlloc_idle ?_
      intro copied v₁ hv₁
      have hu := hu.later hv₁.1
      cases copied with
      | null | inval => exact ifaceDie_does h hu rfl
      | truncated copy => exact ifaceDie_does h hu rfl
      | copy =>
        refine Runs.bind (allCalls_idle (fun _ => alloc_idle) 3) ?_
        intro ok v₂ hv₂
        have hu := hu.later hv₂.1
        cases ok with
        | false => exact ifaceDie_does h hu rfl
        | true => exact ifaceOpen_does h hu hl

end Ifaces

section Registrations

/-- Other registrations of live ifaces. -/
theorem setTracked (h : Consistent w live) {regs : List (Nat × Addr)}
    (hn : (regs.map Prod.snd).Nodup) (hl : ∀ x ∈ regs, (w.ifaces x.2).isSome) :
    Consistent { w with tracked := regs } live ∧ Quiet w { w with tracked := regs } :=
  have hq : Quiet w { w with tracked := regs } :=
    { Quiet.refl h.fresh with next := Nat.le_refl _ }
  ⟨{ h with
      fresh := { h.fresh with fields := h.fresh.fields }
      ops := h.opsOk hq.toGrows
      routs := h.routsOk hq.toGrows
      tracked := ⟨hn, hl⟩ }, hq⟩

theorem eptkRegister_does {fd : Int} (h : Consistent w live) (ha : (w.ifaces a).isSome)
    (ht : a ∉ w.tracked.map Prod.snd) :
    Frames NoDangle Quiet (eptkRegister fd a) w (fun _ v =>
      Consistent v live ∧ v.ifaces = w.ifaces) := by
  unfold eptkRegister
  refine Runs.bind syscall_idle ?_
  intro ok v hv
  obtain ⟨hi, -⟩ := hv
  have hc := hi.consistent h
  cases ok with
  | false => exact ⟨hi.quiet h.fresh, hc, hi.ifaces⟩
  | true =>
    have hnodup : ((v.tracked ++ [(fd.toNat, a)]).map Prod.snd).Nodup := by
      rw [List.map_append, List.nodup_append]
      refine ⟨hc.tracked.1, List.nodup_singleton _, ?_⟩
      intro x hx y hy he
      rw [List.map_singleton, List.mem_singleton] at hy
      rw [he, hy, hi.tracked] at hx
      exact ht hx
    have hregs := setTracked hc hnodup (by
      intro x hx
      rcases List.mem_append.mp hx with hm | hm
      · exact hc.tracked.2 x hm
      · rw [List.mem_singleton.mp hm, hi.ifaces]
        exact ha)
    exact ⟨(hi.quiet h.fresh).trans hregs.2, hregs.1, hi.ifaces⟩

/-- The destructors of registrations that were dropped. -/
theorem destroyAll_does {regs : List (Nat × Addr)} (h : Consistent w live)
    (hn : (regs.map Prod.snd).Nodup) (hl : ∀ x ∈ regs, (w.ifaces x.2).isSome)
    (ht : ∀ x ∈ regs, x.2 ∉ w.tracked.map Prod.snd) :
    Frames NoDangle Quiet (destroyAll env regs) w (fun _ v => Consistent v live) := by
  induction regs generalizing w with
  | nil => exact ⟨.refl h.fresh, h⟩
  | cons x xs ih =>
    rw [List.map_cons, List.nodup_cons] at hn
    obtain ⟨i, hi⟩ := Option.isSome_iff_exists.mp (hl x (List.mem_cons_self ..))
    apply (ifaceFreeAt_does h hi (ht x (List.mem_cons_self ..))).bind
    intro _ v hv
    obtain ⟨hc, htr, hif⟩ := hv
    apply ih hc hn.2
    · intro y hy
      have hne : y.2 ≠ x.2 := by
        intro he
        exact hn.1 (he ▸ List.mem_map_of_mem hy)
      rw [hif _ hne]
      exact hl y (List.mem_cons_of_mem _ hy)
    · intro y hy
      rw [htr]
      exact ht y (List.mem_cons_of_mem _ hy)

/-- `eptk_remove` -/
theorem eptkRemove_does {fd : Int} (h : Consistent w live) :
    Frames NoDangle Quiet (eptkRemove env fd) w (fun _ v => Consistent v live) := by
  unfold eptkRemove
  rw [Frames.get_bind]
  have hsub : ∀ q : Nat × Addr → Bool, ((w.tracked.filter q).map Prod.snd).Nodup :=
    fun q => h.tracked.1.sublist (List.filter_sublist.map _)
  have hkeep := setTracked h (hsub (fun r => (r.1 : Int) ≠ fd))
    (fun x hx => h.tracked.2 x (List.mem_of_mem_filter hx))
  have hgone : ∀ x ∈ w.tracked.filter (fun r => (r.1 : Int) = fd),
      x.2 ∉ (w.tracked.filter (fun r => (r.1 : Int) ≠ fd)).map Prod.snd := by
    intro x hx hm
    obtain ⟨y, hy, he⟩ := List.mem_map.mp hm
    have hxy : x = y := List.inj_on_of_nodup_map h.tracked.1 (List.mem_of_mem_filter hx)
      (List.mem_of_mem_filter hy) he.symm
    subst hxy
    have hfx := (List.mem_filter.mp hx).2
    have hfy := (List.mem_filter.mp hy).2
    simp only [decide_eq_true_eq] at hfx hfy
    exact hfy hfx
  refine Runs.bind_iff.mpr (Runs.modify_iff.mpr ?_)
  refine Runs.bind (destroyAll_does hkeep.1 (hsub (fun r => (r.1 : Int) = fd))
    (fun x hx => h.tracked.2 x (List.mem_of_mem_filter hx)) hgone) ?_
  intro _ v hv
  exact ⟨hkeep.2.trans hv.1, hv.2⟩

end Registrations

section Processes

/-- The handler of an iface is this process's, as long as the process is stored. -/
theorem handler_of_process (h : Consistent w live) {p : Process} {i : Iface}
    (hp : w.processes a = some p) (hi : w.ifaces p.inIface = some i) :
    i.handler = some .processExec ∧ i.context = jqRoot a p.routSetJQ := by
  have hh := h.handlers _ i hi
  unfold HandlerOk at hh
  cases hih : i.handler with
  | none =>
    rw [hih] at hh
    exact absurd rfl (hh a p hp)
  | some handler =>
    rw [hih] at hh
    obtain ⟨b, q, hb, he, hc⟩ := hh
    have hba := h.process_unique hb hp he
    subst hba
    rw [hb] at hp
    cases hp
    exact ⟨rfl, hc⟩

/-- An iface without a stored process has no handler. -/
theorem handler_none (h : Consistent w live) {i : Iface} (hi : w.ifaces a = some i)
    (hl : AList.lookup i.name w.processJS = none) : i.handler = none := by
  have hh := h.handlers a i hi
  unfold HandlerOk at hh
  cases hih : i.handler with
  | none => rfl
  | some handler =>
    rw [hih] at hh
    obtain ⟨b, q, hb, he, -⟩ := hh
    obtain ⟨j, hj, -, hlj⟩ := h.process_stored hb
    rw [he, hi] at hj
    cases hj
    rw [hl] at hlj
    cases hlj

/-- Freeing a process that was never stored frees its routs. -/
theorem processFree_unborn {rts : List Rout} {sets : List Addr}
    (h : Consistent w (routsRefs rts + live)) (hnone : w.processes a = none) :
    Frames NoDangle Same (processFree a none rts sets) w (fun _ v => Consistent v live) := by
  unfold processFree
  apply (routFreeAll_does h).bind_frame
  intro _ u hs hc
  have hi : Idle u { u with processes := Function.update u.processes a none } :=
    { Idle.refl u with
      processes := by
        rw [hs.processes, ← hnone]
        exact Function.update_eq_self _ _ }
  exact ⟨hi.same hc.fresh, hi.consistent hc⟩

/-- The world with another iface at an address. -/
def World.setIface (w : World) (a : Addr) (i : Iface) : World :=
  { w with ifaces := Function.update w.ifaces a (some i) }

theorem handlerClear_runs {i : Iface} {ctx : Option Addr} (hi : w.ifaces b = some i)
    (hh : i.handler = some .processExec) (hctx : i.context = ctx) :
    Runs E (ifaceHandlerClear b .processExec ctx) w (fun _ v =>
      v = w.setIface b { i with handler := none, context := none }) := by
  unfold ifaceHandlerClear
  rw [deref_run hi, if_neg (by simp [hh, hctx])]
  rfl

theorem handlerRegister_runs {i : Iface} {ctx : Option Addr} (hi : w.ifaces b = some i)
    (hh : i.handler = none) :
    Runs E (ifaceHandlerRegister b .processExec ctx) w (fun r v =>
      r = 0 ∧ v = w.setIface b { i with handler := some .processExec, context := ctx }) := by
  unfold ifaceHandlerRegister
  rw [deref_run hi, if_neg (by simp [hh])]
  exact ⟨rfl, rfl⟩

theorem ifaceRelease_runs {i : Iface} (hi : w.ifaces b = some i) (hpos : 0 < i.refcnt) :
    Runs E (ifaceRelease (some b)) w (fun _ v =>
      v = w.setIface b { i with refcnt := i.refcnt - 1 }) := by
  unfold ifaceRelease
  rw [deref_run hi, if_neg (Nat.ne_of_gt hpos)]
  rfl

/-- `process_free` of a stored process -/
theorem processFreeAt_does {p : Process} (h : Consistent w live) (hp : w.processes a = some p) :
    Frames NoDangle Quiet (processFreeAt a) w (fun _ v =>
      Consistent v live ∧ ∀ x, w.stored x = v.stored x + p.refs.count x) := by
  obtain ⟨i, hi, hpos, hl⟩ := h.process_stored hp
  obtain ⟨hh, hctx⟩ := handler_of_process h hp hi
  obtain ⟨hv, hq⟩ := h.unpublishProcess hp hi rfl
  unfold processFreeAt processFree
  rw [deref_bind hp]
  simp only []
  refine Runs.bind (handlerClear_runs hi hh hctx) ?_
  intro _ w₁ hw₁
  subst hw₁
  refine Runs.bind (ifaceRelease_runs (Function.update_self ..) hpos) ?_
  intro _ w₂ hw₂
  have hw₂ : w₂ = w.setIface p.inIface
      { i with handler := none, context := none, refcnt := i.refcnt - 1 } := by
    rw [hw₂]
    unfold World.setIface
    simp only [Function.update_idem]
  subst hw₂
  rw [deref_run (o := { i with handler := none, context := none, refcnt := i.refcnt - 1 })
    (Function.update_self ..), jsGet_run]
  simp only [World.setIface, hl, if_true]
  -- the process itself goes last, but the release of its routs does not see it
  have hsteady : Steady id (fun ps => Function.update ps a none) (routFreeAll p.routJQ) :=
    Steady.routFreeAll
  have hv : Consistent (World.aside { w.setIface p.inIface
      { i with handler := none, context := none, refcnt := i.refcnt - 1 } with
        processJS := w.processJS.erase i.name }
      id (fun ps => Function.update ps a none) w.log) (routsRefs p.routJQ + live) := hv
  rw [Runs.bind_iff, Runs.modify_iff]
  refine Runs.bind (hsteady.runs ⟨w.log, rfl⟩ (routFreeAll_does hv)) ?_
  intro _ u hu
  obtain ⟨_, u', -, ⟨l, rfl⟩, hs, hcu⟩ := hu
  have hidle : Idle (u.aside id (fun ps => Function.update ps a none) l)
      { u with processes := Function.update u.processes a none } :=
    { Idle.refl _ with next := Nat.le_refl _ }
  have hstored := (hs.trans (hidle.same hcu.fresh)).stored
  refine ⟨hq.trans (hs.toQuiet.trans (hidle.quiet hcu.fresh)), hidle.consistent hcu, ?_⟩
  intro x
  rw [hstored]
  exact h.stored_unpublishProcess hp hi _ x

/-- `process_new` -/
theorem processNew_does {rts : List Rout} (h : Consistent w (routsRefs rts + live))
    (hok : ∀ rt ∈ rts, RoutOk w rt) :
    Runs NoDangle (processNew n rts) w (fun r v =>
      Quiet w v ∧ Consistent v live ∧ match r with
        | none => Same w v
        | some a => AList.lookup n w.processJS = none ∧ ∃ p i, v.processes a = some p ∧
            p.routJQ = rts ∧ v.ifaces p.inIface = some i ∧ i.name = n) := by
  have hfail : ∀ {u : World}, Same w u → Consistent u live →
      Quiet w u ∧ Consistent u live ∧ Same w u :=
    fun hs hu => ⟨hs.toQuiet, hu, hs⟩
  unfold processNew
  refine Runs.bind calloc_idle ?_
  intro ret v hv
  obtain ⟨hi, hu⟩ := hv
  cases ret with
  | none =>
    refine Runs.bind (routFreeAll_does (hi.consistent h)) ?_
    intro _ u hu
    have hi' : Idle u { u with log := u.log ++ ["fail alloc size 24"] } :=
      { Idle.refl u with next := Nat.le_refl _ }
    exact hfail ((hi.same h.fresh).trans (hu.1.trans (hi'.same hu.2.fresh))) (hi'.consistent hu.2)
  | some ret =>
    have hu := hu ret rfl
    have hnone : v.processes ret = none := by
      rw [hi.processes]
      exact h.fresh.processes ret hu.above
    have hdie : ∀ {u : World} {msg : Text}, Same w u → Consistent u (routsRefs rts + live) →
        u.processes ret = none →
        Runs NoDangle (nbErr msg >>= fun _ => processFree ret none rts (rts.map Rout.set) >>=
          fun _ => pure none : M (Option Addr)) u (fun r v =>
            Quiet w v ∧ Consistent v live ∧ match r with
              | none => Same w v
              | some a => AList.lookup n w.processJS = none ∧ ∃ p i, v.processes a = some p ∧
                  p.routJQ = rts ∧ v.ifaces p.inIface = some i ∧ i.name = n) := by
      intro u msg hs hc hn
      refine Runs.bind (keep hc nbErr_idle) ?_
      intro _ u₁ hu₁
      have hn₁ : u₁.processes ret = none := by
        rw [hu₁.1.processes]
        exact hn
      refine Runs.bind (processFree_unborn hu₁.2.1 hn₁) ?_
      intro _ u₂ hu₂
      exact hfail (hs.trans (hu₁.1.trans hu₂.1)) hu₂.2
    have hs := hi.same h.fresh
    have hc := hi.consistent h
    rw [Runs.bind_iff, Runs.get_iff]
    cases hl : AList.lookup n v.processJS with
    | some b =>
      simp only [Option.isSome_some, if_true]
      exact hdie hs hc hnone
    | none =>
      simp only [Option.isSome_none, Bool.false_eq_true, if_false]
      refine Runs.bind (ifaceGet_does hc) ?_
      intro iface u hu'
      obtain ⟨hs', hc', hname⟩ := hu'
      have hn' : u.processes ret = none := by
        rw [hs'.processes]
        exact hnone
      cases iface with
      | none =>
        rw [holdOpt_none_add] at hc'
        exact hdie (hs.trans hs') hc' hn'
      | some iface =>
        obtain ⟨i, hif, hin⟩ := hname iface rfl
        have hl' : AList.lookup i.name u.processJS = none := by
          rw [hin, hs'.processJS]
          exact hl
        refine Runs.bind (handlerRegister_runs hif (handler_none hc' hif hl')) ?_
        intro r t ht
        obtain ⟨rfl, rfl⟩ := ht
        rw [if_neg (by simp), deref_run (Function.update_self ..)]
        have hlt : ret < u.next := Nat.lt_of_lt_of_le hu.below hs'.next
        have hg := hs.toGrows.trans hs'.toGrows
        have hrefs : holdOpt .iface (some iface) + (routsRefs rts + live) =
            Process.refs ⟨iface, rts, rts.map Rout.set⟩ + live := by
          rw [Process.refs, add_assoc]
          rfl
        rw [hrefs] at hc'
        obtain ⟨hv, hq⟩ := hc'.publishProcess hlt hn' hif hl' rfl rfl
          (fun rt hrt => (hok rt hrt).mono hg)
        refine ⟨(hs.toQuiet.trans hs'.toQuiet).trans hq, hv, ?_, _, _,
          Function.update_self .., rfl, Function.update_self .., hin⟩
        rw [← hi.processJS]
        exact hl

/-- When `process_new` answers null: the allocation fails, the iface has a process
already or is unknown. -/
def ProcessRefused (name : Text) (w : World) : Prop :=
  w.oom.headD false = true ∨ (AList.lookup name w.processJS).isSome ∨
    AList.lookup name w.ifaceJS = none

theorem processNew_refused {rts : List Rout} (h : Consistent w live) :
    Runs (fun _ => True) (processNew n rts) w (fun r _ => r = none ↔ ProcessRefused n w) := by
  unfold processNew
  refine Runs.bind (calloc_idle.and (calloc_draw (E := fun _ => True))) ?_
  intro ret v hv
  obtain ⟨⟨hi, -⟩, hret, -⟩ := hv
  cases ret with
  | none => exact answers_none (.inl (hret.mp rfl))
  | some ret =>
    have hfirst : ¬ w.oom.headD false = true := by
      intro hf
      have := hret.mpr hf
      cases this
    have hc := hi.consistent h
    rw [Runs.bind_iff, Runs.get_iff]
    cases hl : AList.lookup n v.processJS with
    | some b =>
      simp only [Option.isSome_some, if_true]
      rw [hi.processJS] at hl
      exact answers_none (.inr (.inl (by rw [hl]; rfl)))
    | none =>
      simp only [Option.isSome_none, Bool.false_eq_true, if_false]
      unfold ifaceGet
      simp only [bind_assoc]
      rw [jsGet_run]
      cases hlf : AList.lookup n v.ifaceJS with
      | none =>
        simp only [pure_bind]
        rw [hi.ifaceJS] at hlf
        exact answers_none (.inr (.inr hlf))
      | some a =>
        obtain ⟨i, hif, hin⟩ := hc.ifaces.found hlf
        simp only [bind_assoc]
        rw [deref_run hif]
        have hh : i.handler = none := by
          apply handler_none hc hif
          rw [Option.some.inj hin]
          exact hl
        refine Runs.bind (R := fun _ u => u = v.setIface a { i with refcnt := i.refcnt + 1 })
          rfl ?_
        intro _ u hu
        subst hu
        simp only [pure_bind]
        refine Runs.bind (handlerRegister_runs (i := { i with refcnt := i.refcnt + 1 })
          (Function.update_self ..) hh) ?_
        intro r t ht
        obtain ⟨rfl, rfl⟩ := ht
        rw [if_neg (by simp), deref_run (Function.update_self ..)]
        refine ⟨fun hc => (by cases hc), fun hc => ?_⟩
        rw [hi.processJS] at hl
        rw [hi.ifaceJS] at hlf
        rcases hc with hc | hc | hc
        · exact absurd hc hfirst
        · rw [hl] at hc
          cases hc
        · rw [hlf] at hc
          cases hc

end Processes

end Xdpacket
