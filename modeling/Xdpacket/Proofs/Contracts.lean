import Xdpacket.Lib.Runs
import Xdpacket.Proofs.Publish

namespace Xdpacket

/-- A fault that is not the use of a freed object. -/
def NoDangle (e : Fault) : Prop := ∀ a, e ≠ .dangling a

instance : IsTrans World Idle := ⟨fun _ _ _ => Idle.trans⟩

instance : IsTrans World Same := ⟨fun _ _ _ => Same.trans⟩

instance : IsTrans World Quiet := ⟨fun _ _ _ => Quiet.trans⟩

variable {E : Fault → Prop} {S : World → World → Prop} {w : World} {live : Multiset Ref}
  {a field : Addr} {n : Text}

section Steps

theorem deref_run {heap : World → Heap α} {k : α → M β} {Q : β → World → Prop} {o : α}
    (ho : heap w a = some o) : Runs E (deref heap a >>= k) w Q ↔ Runs E (k o) w Q := by
  unfold deref
  simp only [Runs.bind_iff, Runs.get_iff, ho, Runs.pure_iff]

theorem deref_bind {heap : World → Heap α} {k : α → M β} {Q : β → World → Prop} {o : α}
    (ho : heap w a = some o) : Frames E S (deref heap a >>= k) w Q ↔ Frames E S (k o) w Q :=
  deref_run ho

theorem jsGet_run {js : World → NameStore Text} {k : Option Addr → M β}
    {Q : β → World → Prop} :
    Runs E (jsGet js (some n) >>= k) w Q ↔ Runs E (k (AList.lookup n (js w))) w Q :=
  Iff.rfl

theorem jsGet_bind {js : World → NameStore Text} {k : Option Addr → M β}
    {Q : β → World → Prop} :
    Frames E S (jsGet js (some n) >>= k) w Q ↔ Frames E S (k (AList.lookup n (js w))) w Q :=
  Iff.rfl

theorem alloc_idle : Frames E Idle alloc w (fun _ _ => True) := by
  unfold Frames alloc
  rw [Runs.modifyGet_iff]
  cases w.oom with
  | nil => exact ⟨.refl w, trivial⟩
  | cons fails rest => exact ⟨{ Idle.refl w with next := Nat.le_refl _ }, trivial⟩

theorem syscall_idle : Frames E Idle syscall w (fun _ _ => True) := by
  unfold Frames syscall
  rw [Runs.modifyGet_iff]
  cases w.sys with
  | nil => exact ⟨.refl w, trivial⟩
  | cons fails rest => exact ⟨{ Idle.refl w with next := Nat.le_refl _ }, trivial⟩

theorem nbErr_idle {msg : Text} : Frames E Idle (nbErr msg) w (fun _ _ => True) :=
  ⟨{ Idle.refl w with next := Nat.le_refl _ }, trivial⟩

theorem calloc_idle :
    Frames E Idle calloc w (fun r v => ∀ a, r = some a → Unborn w v a) := by
  unfold calloc
  refine Runs.bind alloc_idle ?_
  intro ok v hv
  obtain ⟨hi, -⟩ := hv
  cases ok with
  | false => exact ⟨hi, fun a ha => by cases ha⟩
  | true =>
    refine ⟨{ hi with next := Nat.le_succ_of_le hi.next }, ?_⟩
    intro a ha
    cases ha
    exact ⟨{ hi with next := Nat.le_succ_of_le hi.next }, hi.next, Nat.lt_succ_self _⟩

theorem strAlloc_idle {env : Env} {src : Text} {max : Nat} :
    Frames E Idle (env.strAlloc src max) w (fun _ _ => True) := by
  unfold Env.strAlloc
  apply alloc_idle.bind
  intro ok v _
  cases ok with
  | false => exact ⟨.refl v, trivial⟩
  | true => exact ⟨.refl v, trivial⟩

/-- Whether an allocation succeeds is the head of the coming answers. -/
theorem alloc_draw : Runs E alloc w (fun ok v =>
    (ok = false ↔ w.oom.headD false = true) ∧ v = { w with oom := w.oom.tail }) := by
  unfold alloc
  rw [Runs.modifyGet_iff]
  cases ho : w.oom with
  | nil =>
    refine ⟨by simp, ?_⟩
    change w = _
    rw [List.tail_nil, ← ho]
  | cons fails rest => cases fails <;> exact ⟨by simp, rfl⟩

theorem calloc_draw : Runs E calloc w (fun r v =>
    (r = none ↔ w.oom.headD false = true) ∧ v.oom = w.oom.tail) := by
  unfold calloc
  refine Runs.bind alloc_draw ?_
  intro ok v hv
  obtain ⟨hok, rfl⟩ := hv
  cases ok with
  | false => exact ⟨⟨fun _ => hok.mp rfl, fun _ => rfl⟩, rfl⟩
  | true =>
    refine ⟨⟨fun hn => (by cases hn), fun hf => ?_⟩, rfl⟩
    have := hok.mpr hf
    cases this

theorem strAlloc_draw {env : Env} {src : Text} {max : Nat} :
    Runs E (env.strAlloc src max) w (fun r v =>
      (r = .copy ↔ w.oom.headD false = false ∧ env.nstralloc src max = .copy) ∧
        v = { w with oom := w.oom.tail }) := by
  unfold Env.strAlloc
  refine Runs.bind alloc_draw ?_
  intro ok v hv
  obtain ⟨hok, rfl⟩ := hv
  cases ok with
  | false =>
    refine ⟨⟨fun hc => (by cases hc), fun hc => ?_⟩, rfl⟩
    have hf := hok.mp rfl
    rw [hc.1] at hf
    cases hf
  | true =>
    refine ⟨⟨fun hc => ⟨?_, hc⟩, fun hc => hc.2⟩, rfl⟩
    cases hf : w.oom.headD false with
    | false => rfl
    | true =>
      have := hok.mpr hf
      cases this

theorem emitReply_idle {reply : Out} : Frames E Idle (emitReply reply) w (fun _ _ => True) := by
  unfold emitReply
  apply alloc_idle.bind
  intro ok v _
  cases ok with
  | false => exact ⟨.refl v, trivial⟩
  | true => exact ⟨{ Idle.refl v with next := Nat.le_refl _ }, trivial⟩

/-- What changes no object keeps the invariant. -/
theorem keep {m : M α} {Q : α → World → Prop} (h : Consistent w live)
    (hm : Frames E Idle m w Q) : Frames E Same m w (fun r v => Consistent v live ∧ Q r v) :=
  Runs.imp hm (fun _ _ hv => ⟨hv.1.same h.fresh, hv.1.consistent h, hv.2⟩)

/-- Print a message and answer. -/
theorem keep_err {r : α} {msg : Text} {Q : α → World → Prop} (h : Consistent w live)
    (hq : ∀ v, Consistent v live → Idle w v → Q r v) :
    Frames E Same (nbErr msg >>= fun _ => pure r : M α) w Q := by
  have hi : Idle w { w with log := w.log ++ [msg] } := { Idle.refl w with next := Nat.le_refl _ }
  exact ⟨hi.same h.fresh, hq _ (hi.consistent h) hi⟩

end Steps

section Lookups

/-- The use of a freed object is among the faults that may happen. -/
class Tolerant (E : Fault → Prop) : Prop where
  dangling : ∀ a, E (.dangling a)

instance tolerant_any : Tolerant (fun _ => True) := ⟨fun _ => trivial⟩

/-- What is done with an object may rely on its being there. -/
theorem deref_runs [hE : Tolerant E] {heap : World → Heap α} {k : α → M β} {Q : β → World → Prop}
    (h : ∀ o, heap w a = some o → Runs E (k o) w Q) : Runs E (deref heap a >>= k) w Q := by
  unfold deref
  simp only [Runs.bind_iff, Runs.get_iff]
  cases ho : heap w a with
  | none => exact hE.dangling a
  | some o => exact h o ho

namespace Within

variable [Std.Refl S] [IsTrans World S]

instance deref [hE : Tolerant E] {heap : World → Heap α} : Within E S (deref heap a) := by
  refine .step (fun w => ?_)
  cases heap w a with
  | none => exact ⟨fun _ => hE.dangling a⟩
  | some o => exact .pure

instance jsGet {js : World → NameStore Text} : Within E S (jsGet js (some n)) := by
  unfold Xdpacket.jsGet
  infer_instance

end Within

end Lookups

section Counted

/-- `field_release` ends one reference in flight. -/
theorem fieldRelease_does {f : Option Addr} (h : Consistent w (holdOpt .field f + live)) :
    Frames NoDangle Same (fieldRelease f) w (fun _ v => Consistent v live) := by
  cases f with
  | none =>
    rw [holdOpt_none_add] at h
    exact ⟨.refl h.fresh, h⟩
  | some a =>
    rw [holdOpt_some_add] at h
    obtain ⟨f, hf, hpos⟩ := h.field_live (Multiset.mem_cons_self _ _)
    unfold fieldRelease
    rw [deref_bind hf, if_neg (Nat.ne_of_gt hpos)]
    have hc : w.count (.field a) = f.refcnt := by simp [World.count, hf]
    have hb := h.balanced.release_update
    rw [hc] at hb
    exact ⟨.fieldCount h.fresh hf _, h.fieldCount hf hb⟩

/-- `field_get` puts one reference in flight. -/
theorem fieldGet_does (h : Consistent w live) :
    Frames NoDangle Same (fieldGet n) w (fun r v => Consistent v (holdOpt .field r + live)) := by
  unfold fieldGet
  rw [jsGet_bind]
  cases hl : AList.lookup n w.fieldJS with
  | none => exact ⟨.refl h.fresh, by simpa only [holdOpt_none_add] using h⟩
  | some a =>
    obtain ⟨f, hf, -⟩ := h.fields.found hl
    simp only []
    rw [deref_bind hf]
    have hc : w.count (.field a) = f.refcnt := by simp [World.count, hf]
    have hb := h.balanced.take_update (x := .field a)
    rw [hc] at hb
    refine ⟨.fieldCount h.fresh hf _, ?_⟩
    simp only [holdOpt_some_add]
    exact h.fieldCount hf hb

theorem ruleRelease_does {r : Option Addr} (h : Consistent w (holdOpt .rule r + live)) :
    Frames NoDangle Same (ruleRelease r) w (fun _ v => Consistent v live) := by
  cases r with
  | none =>
    rw [holdOpt_none_add] at h
    exact ⟨.refl h.fresh, h⟩
  | some a =>
    rw [holdOpt_some_add] at h
    obtain ⟨r, hr, hpos⟩ := h.rule_live (Multiset.mem_cons_self _ _)
    unfold ruleRelease
    rw [deref_bind hr, if_neg (Nat.ne_of_gt hpos)]
    have hc : w.count (.rule a) = r.refcnt := by simp [World.count, hr]
    have hb := h.balanced.release_update
    rw [hc] at hb
    exact ⟨.ruleCount h.fresh hr _, h.ruleCount hr hb⟩

theorem ruleGet_does (h : Consistent w live) :
    Frames NoDangle Same (ruleGet n) w (fun r v => Consistent v (holdOpt .rule r + live)) := by
  unfold ruleGet
  rw [jsGet_bind]
  cases hl : AList.lookup n w.ruleJS with
  | none => exact ⟨.refl h.fresh, by simpa only [holdOpt_none_add] using h⟩
  | some a =>
    obtain ⟨r, hr, -⟩ := h.rules.found hl
    simp only []
    rw [deref_bind hr]
    have hc : w.count (.rule a) = r.refcnt := by simp [World.count, hr]
    have hb := h.balanced.take_update (x := .rule a)
    rw [hc] at hb
    refine ⟨.ruleCount h.fresh hr _, ?_⟩
    simp only [holdOpt_some_add]
    exact h.ruleCount hr hb

theorem ifaceRelease_does {i : Option Addr} (h : Consistent w (holdOpt .iface i + live)) :
    Frames NoDangle Same (ifaceRelease i) w (fun _ v => Consistent v live) := by
  cases i with
  | none =>
    rw [holdOpt_none_add] at h
    exact ⟨.refl h.fresh, h⟩
  | some a =>
    rw [holdOpt_some_add] at h
    obtain ⟨i, hi, hpos⟩ := h.iface_live (Multiset.mem_cons_self _ _)
    unfold ifaceRelease
    rw [deref_bind hi, if_neg (Nat.ne_of_gt hpos)]
    have hc : w.count (.iface a) = i.refcnt := by simp [World.count, hi]
    have hb := h.balanced.release_update
    rw [hc] at hb
    exact ⟨.ifaceCount h.fresh hi _, h.setIface hi rfl rfl rfl hb⟩

theorem ifaceGet_does (h : Consistent w live) :
    Frames NoDangle Same (ifaceGet n) w (fun r v => Consistent v (holdOpt .iface r + live) ∧
      ∀ a, r = some a → ∃ i, v.ifaces a = some i ∧ i.name = n) := by
  unfold ifaceGet
  rw [jsGet_bind]
  cases hl : AList.lookup n w.ifaceJS with
  | none => exact ⟨.refl h.fresh, by simpa only [holdOpt_none_add] using h, fun a ha => by cases ha⟩
  | some a =>
    obtain ⟨i, hi, hn⟩ := h.ifaces.found hl
    simp only []
    rw [deref_bind hi]
    have hc : w.count (.iface a) = i.refcnt := by simp [World.count, hi]
    have hb := h.balanced.take_update (x := .iface a)
    rw [hc] at hb
    refine ⟨.ifaceCount h.fresh hi _, ?_, ?_⟩
    · simp only [holdOpt_some_add]
      exact h.setIface hi rfl rfl rfl hb
    · intro b hb
      cases hb
      exact ⟨_, Function.update_self .., Option.some.inj hn⟩

theorem routSetFree_does {s : Option Addr} (h : Consistent w (holdOpt .rset s + live)) :
    Frames NoDangle Same (routSetFree s) w (fun _ v => Consistent v live) := by
  cases s with
  | none =>
    rw [holdOpt_none_add] at h
    exact ⟨.refl h.fresh, h⟩
  | some a =>
    rw [holdOpt_some_add] at h
    obtain ⟨s, hs⟩ := h.rset_live (Multiset.mem_cons_self _ _)
    unfold routSetFree
    rw [deref_bind hs]
    exact ⟨.freeRset h.fresh, h.freeRset hs⟩

end Counted

section Memrefs

/-- `memref_release` ends one reference in flight. -/
theorem memrefRelease_does {m : Option Addr} (h : Consistent w (holdOpt .memref m + live)) :
    Frames NoDangle Same (memrefRelease m) w (fun _ v => Consistent v live) := by
  cases m with
  | none =>
    rw [holdOpt_none_add] at h
    exact ⟨.refl h.fresh, h⟩
  | some a =>
    rw [holdOpt_some_add] at h
    obtain ⟨r, hr⟩ := h.memref_live (Multiset.mem_cons_self _ _)
    unfold memrefRelease
    rw [deref_bind hr]
    cases hk : r.kind with
    | value input rendered =>
      have hone : r.count = 1 := by simp [Memref.count, hk]
      have hnone : r.stateName = none := by simp [Memref.stateName, hk]
      exact ⟨.freeMemref h.fresh _, h.freeMemref hr hone (h.states.remove hr hnone)⟩
    | state name refcnt =>
      have hcount : r.count = refcnt := by simp [Memref.count, hk]
      have hname : r.stateName = some name := by simp [Memref.stateName, hk]
      by_cases hlt : 1 < refcnt
      · simp only [if_pos hlt]
        have hc : w.count (.memref a) = refcnt := by simp [World.count, hr, hcount]
        have hb := h.balanced.release_update
        rw [hc] at hb
        have hkey : Memref.key { r with kind := .state name (refcnt - 1) } = r.key := by
          simp [Memref.key, Memref.stateName, hk]
        exact ⟨.setMemref h.fresh hr hkey rfl,
          h.setMemref hr hkey (by simp only [Memref.count]; omega) hb⟩
      · simp only [if_neg hlt]
        have hone : r.count = 1 := by
          have := h.counted a r hr
          omega
        unfold memrefFree
        rw [jsGet_bind, if_pos (h.states.listed hr hname)]
        exact ⟨.freeMemref h.fresh _, h.freeMemref hr hone (h.states.unpublish hr hname)⟩

/-- Every memref that a reference may name is a state. -/
def IsState (w : World) (ref : Option Addr) : Prop :=
  ∀ a r, ref = some a → w.memrefs a = some r → r.stateName.isSome

theorem IsState.mono {v : World} {ref : Option Addr} {set : FieldSet} (h : IsState w ref)
    (hb : Backed w ref set) (hg : Grows w v) : IsState v ref := by
  intro a r' ha hr'
  obtain ⟨r, hr, hk⟩ := hg.memrefs a (hb a ha).1 r' hr'
  have hname : r'.stateName = r.stateName := congrArg Prod.snd hk
  rw [hname]
  exact h a r ha hr

/-- `memref_value_new` makes a value of the length and mask of its field. -/
theorem memrefValueNew_does {env : Env} {value : Text} {f : Field} (h : Consistent w live)
    (hf : w.fields field = some f) :
    Frames NoDangle Same (memrefValueNew env field value) w (fun r v =>
      Consistent v (holdOpt .memref r + live) ∧ Backed v r f.set) := by
  have hfail : ∀ {v : World} {msg : Text}, Idle w v →
      Runs NoDangle (nbErr msg >>= fun _ => pure none : M (Option Addr)) v (fun r u =>
        Same w u ∧ Consistent u (holdOpt .memref r + live) ∧ Backed u r f.set) := by
    intro v msg hi
    have hv : Idle w { v with log := v.log ++ [msg] } := { hi with next := hi.next }
    refine ⟨hv.same h.fresh, ?_, fun a ha => by cases ha⟩
    simp only [holdOpt_none_add]
    exact hv.consistent h
  unfold memrefValueNew
  rw [deref_bind hf]
  refine Runs.bind calloc_idle ?_
  intro ret v hv
  obtain ⟨hi, hu⟩ := hv
  cases ret with
  | none => exact hfail hi
  | some ret =>
    have hu := hu ret rfl
    refine Runs.bind strAlloc_idle ?_
    intro input v₁ hv₁
    obtain ⟨hi₁, -⟩ := hv₁
    have hu := hu.later hi₁
    by_cases hthrow : input = .null ∧ f.set.len ≠ 0
    · simp only [if_pos hthrow]
      intro a ha
      cases ha
    · simp only [if_neg hthrow]
      cases input with
      | inval => exact hfail hu.idle
      | truncated copy => exact hfail hu.idle
      | null | copy =>
        simp only []
        cases env.valueParse value f.set.len.toNat with
        | none => exact hfail hu.idle
        | some parsed =>
          refine Runs.bind alloc_idle ?_
          intro ok v₂ hv₂
          obtain ⟨hi₂, -⟩ := hv₂
          have hu := hu.later hi₂
          cases ok with
          | false => exact hfail hu.idle
          | true =>
            have hnone : v₂.memrefs ret = none := by
              rw [hu.idle.memrefs]
              exact h.fresh.memrefs ret hu.above
            refine ⟨.newMemref h.fresh hu (fun hs => by cases hs) _, ?_, ?_⟩
            · simp only [holdOpt_some_add]
              exact h.newMemref hu rfl (fun hs => by cases hs)
                ((hu.consistent h).states.anonymous hnone rfl)
            · intro a ha
              cases ha
              refine ⟨hu.below, ?_⟩
              intro r hr
              have hr := (Function.update_self ..).symm.trans hr
              cases hr
              exact ⟨rfl, rfl⟩

/-- Freeing a state that was never stored changes nothing. -/
theorem memrefFree_unborn {v : World} {name : Option Text} (h : Consistent w live)
    (hu : Unborn w v a) :
    Frames NoDangle Idle (memrefFree a name) v (fun _ _ => True) := by
  cases name with
  | none =>
    intro b hb
    cases hb
  | some name =>
    have hnone : v.memrefs a = none := by
      rw [hu.idle.memrefs]
      exact h.fresh.memrefs a hu.above
    have hl : AList.lookup name v.stateJS ≠ some a := by
      intro hl
      obtain ⟨r, hr, -⟩ := (hu.consistent h).states.found hl
      rw [hnone] at hr
      cases hr
    unfold memrefFree
    rw [jsGet_bind, if_neg hl]
    refine ⟨{ Idle.refl v with memrefs := ?_ }, trivial⟩
    rw [← hnone]
    exact Function.update_eq_self _ _

/-- `memref_state_get` makes or finds a state of the length and mask of the field. -/
theorem memrefStateGet_does {env : Env} {f : Field} (h : Consistent w live)
    (hf : w.fields field = some f) :
    Frames NoDangle Same (memrefStateGet env field n) w (fun r v =>
      Consistent v (holdOpt .memref r + live) ∧ Backed v r f.set ∧ IsState v r) := by
  have hfail : ∀ {v : World}, Idle w v → Same w v ∧ Consistent v (holdOpt .memref none + live) ∧
      Backed v none f.set ∧ IsState v none := by
    intro v hv
    refine ⟨hv.same h.fresh, ?_, fun a ha => (by cases ha), fun a r ha => (by cases ha)⟩
    rw [holdOpt_none_add]
    exact hv.consistent h
  have herr : ∀ {v : World} {msg : Text}, Idle w v → Idle w { v with log := v.log ++ [msg] } :=
    fun hi => { hi with next := hi.next }
  unfold memrefStateGet
  rw [deref_bind hf, jsGet_bind]
  cases hl : AList.lookup n w.stateJS with
  | some a =>
    obtain ⟨r, hr, hn⟩ := h.states.found hl
    simp only []
    rw [deref_bind hr]
    by_cases heq : memrefStateEq r.set f.set = true
    · rw [if_pos heq]
      simp only [memrefStateEq, Bool.and_eq_true, decide_eq_true_eq] at heq
      cases hk : r.kind with
      | value input rendered => simp [Memref.stateName, hk] at hn
      | state name refcnt =>
        have hc : w.count (.memref a) = refcnt := by simp [World.count, hr, Memref.count, hk]
        have hb := h.balanced.take_update (x := .memref a)
        rw [hc] at hb
        have hkey : Memref.key { r with kind := .state name (refcnt + 1) } = r.key := by
          simp [Memref.key, Memref.stateName, hk]
        refine ⟨.setMemref h.fresh hr hkey rfl, ?_, ?_, ?_⟩
        · simp only [holdOpt_some_add]
          exact h.setMemref hr hkey (Nat.succ_pos _) hb
        · intro b hb
          cases hb
          refine ⟨h.fresh.memrefs.below hr, ?_⟩
          intro r' hr'
          have hr' := (Function.update_self ..).symm.trans hr'
          cases hr'
          exact heq
        · intro b r' hb hr'
          cases hb
          have hr' := (Function.update_self ..).symm.trans hr'
          cases hr'
          rfl
    · rw [if_neg heq]
      exact hfail (herr (.refl w))
  | none =>
    refine Runs.bind calloc_idle ?_
    intro ret v hv
    obtain ⟨hi, hu⟩ := hv
    cases ret with
    | none => exact hfail (herr hi)
    | some ret =>
      have hu := hu ret rfl
      refine Runs.bind strAlloc_idle ?_
      intro copied v₁ hv₁
      obtain ⟨hi₁, -⟩ := hv₁
      have hu := hu.later hi₁
      have hdie : ∀ {msg : Text} {name : Option Text},
          Runs NoDangle (nbErr msg >>= fun _ => memrefFree ret name >>= fun _ => pure none :
            M (Option Addr)) v₁ (fun r u => Same w u ∧ Consistent u (holdOpt .memref r + live) ∧
              Backed u r f.set ∧ IsState u r) := by
        intro msg name
        refine Runs.bind nbErr_idle ?_
        intro _ v₂ hv₂
        have hu := hu.later hv₂.1
        refine Runs.bind (memrefFree_unborn h hu) ?_
        intro _ v₃ hv₃
        exact hfail (hu.idle.trans hv₃.1)
      cases copied with
      | null | inval => exact hdie
      | truncated copy => exact hdie
      | copy =>
        have hnone : v₁.memrefs ret = none := by
          rw [hu.idle.memrefs]
          exact h.fresh.memrefs ret hu.above
        have hfree : AList.lookup n v₁.stateJS = none := by
          rw [hu.idle.stateJS]
          exact hl
        refine ⟨.newMemref h.fresh hu (fun _ => rfl) _, ?_, ?_, ?_⟩
        · simp only [holdOpt_some_add]
          exact h.newMemref hu rfl (fun _ => rfl)
            ((hu.consistent h).states.publish hnone rfl hfree)
        · intro b hb
          cases hb
          refine ⟨hu.below, ?_⟩
          intro r' hr'
          have hr' := (Function.update_self ..).symm.trans hr'
          cases hr'
          exact ⟨rfl, rfl⟩
        · intro b r' hb hr'
          cases hb
          have hr' := (Function.update_self ..).symm.trans hr'
          cases hr'
          rfl

end Memrefs

section Operations

/-- `op_free` ends every reference that the operation holds. -/
theorem opFree_does {op : Op} (h : Consistent w (op.refs + live)) :
    Frames NoDangle Same (opFree op) w (fun _ v => Consistent v live) := by
  rw [Op.refs, add_assoc, add_assoc, add_assoc] at h
  unfold opFree
  apply (fieldRelease_does h).bind
  intro _ _ h
  apply (fieldRelease_does h).bind
  intro _ _ h
  apply (memrefRelease_does h).bind
  intro _ _ h
  exact memrefRelease_does h

theorem opFreeAll_does {ops : List Op} (h : Consistent w (opsRefs ops + live)) :
    Frames NoDangle Same (opFreeAll ops) w (fun _ v => Consistent v live) := by
  induction ops generalizing w with
  | nil =>
    rw [opsRefs_nil, zero_add] at h
    exact ⟨.refl h.fresh, h⟩
  | cons op ops ih =>
    rw [opsRefs_cons, add_assoc] at h
    exact (opFree_does h).bind (fun _ _ h => ih h)

theorem opDie_does {ret : Op} {msg : Text} (h : Consistent w (ret.refs + live)) :
    Frames NoDangle Same (opDie ret msg) w (fun r v => r = none ∧ Consistent v live) := by
  unfold opDie
  apply (keep h nbErr_idle).bind
  intro _ _ h
  apply (opFree_does h.1).bind
  intro _ _ h
  exact ⟨.refl h.fresh, rfl, h⟩

theorem opField_does {name : Option Text} (h : Consistent w live) :
    Frames NoDangle Same (opField name) w (fun r v => match r with
      | none => Consistent v live
      | some f => Consistent v (holdOpt .field f + live) ∧ (f = none ↔ name = none)) := by
  cases name with
  | none => exact ⟨.refl h.fresh, by simpa using h, by simp⟩
  | some n =>
    apply (fieldGet_does h).bind
    intro r v hv
    cases r with
    | none => exact ⟨.refl hv.fresh, by simpa using hv⟩
    | some a => exact ⟨.refl hv.fresh, hv, by simp⟩

theorem opMemrefField_eq {own other : Option Addr} (h : own.or other = some a) :
    opMemrefField own other = pure a := by
  cases own with
  | some b =>
    cases h
    rfl
  | none =>
    cases other with
    | some b =>
      cases h
      rfl
    | none => cases h

theorem opState_does {env : Env} {own other : Option Addr} {name : Option Text} {f : Field}
    (h : Consistent w live) (hs : own.or other = some a) (hf : w.fields a = some f) :
    Frames NoDangle Same (opState env own other name) w (fun r v => match r with
      | none => Consistent v live
      | some ref => Consistent v (holdOpt .memref ref + live) ∧ Backed v ref f.set ∧
          IsState v ref) := by
  cases name with
  | none =>
    refine ⟨.refl h.fresh, ?_, fun b hb => (by cases hb), fun b r hb => (by cases hb)⟩
    simpa only [holdOpt_none_add] using h
  | some n =>
    unfold opState
    simp only [opMemrefField_eq hs, pure_bind]
    apply (memrefStateGet_does h hf).bind
    intro r v hv
    cases r with
    | none => exact ⟨.refl hv.1.fresh, by simpa only [holdOpt_none_add] using hv.1⟩
    | some m => exact ⟨.refl hv.1.fresh, hv⟩

theorem opValue_does {env : Env} {own other : Option Addr} {value : Option Text} {f : Field}
    (h : Consistent w live) (hs : own.or other = some a) (hf : w.fields a = some f) :
    Frames NoDangle Same (opValue env own other value) w (fun r v => match r with
      | none => Consistent v live
      | some ref => Consistent v (holdOpt .memref ref + live) ∧ Backed v ref f.set) := by
  cases value with
  | none =>
    refine ⟨.refl h.fresh, ?_, fun b hb => (by cases hb)⟩
    simpa only [holdOpt_none_add] using h
  | some n =>
    unfold opValue
    simp only [opMemrefField_eq hs, pure_bind]
    apply (memrefValueNew_does h hf).bind
    intro r v hv
    cases r with
    | none => exact ⟨.refl hv.1.fresh, by simpa only [holdOpt_none_add] using hv.1⟩
    | some m => exact ⟨.refl hv.1.fresh, hv⟩

/-- The source of an operation, a state or a value. -/
theorem opSrc_does {env : Env} {own other : Option Addr} {ss sv : Option Text} {f : Field}
    (h : Consistent w live) (hs : own.or other = some a) (hf : w.fields a = some f) :
    Frames NoDangle Same
      (if ss ≠ none then opState env own other ss else opValue env own other sv) w
      (fun r v => match r with
        | none => Consistent v live
        | some ref => Consistent v (holdOpt .memref ref + live) ∧ Backed v ref f.set) := by
  split
  · refine (opState_does h hs hf).imp ?_
    intro r u hu
    cases r with
    | none => exact hu
    | some ref => exact ⟨hu.1, hu.2.1⟩
  · exact opValue_does h hs hf

theorem some_side {own other : Option Addr} (h : ¬ (own = none ∧ other = none)) :
    ∃ a, own.or other = some a := by
  cases own with
  | some a => exact ⟨a, rfl⟩
  | none =>
    cases other with
    | some a => exact ⟨a, rfl⟩
    | none => exact absurd ⟨rfl, rfl⟩ h

theorem Same.field_live {v : World} {f : Field} (h : Same w v) (hf : w.fields a = some f) :
    ∃ f', v.fields a = some f' ∧ f'.name = f.name ∧ f'.set = f.set := by
  obtain ⟨f', hf', hk⟩ := h.fieldKeys.live hf
  exact ⟨f', hf', congrArg Prod.fst hk, congrArg Prod.snd hk⟩

theorem setOf_field {own other : Option Addr} {f : Field} (h : Consistent w live)
    (hs : own.or other = some a) (hf : w.fields a = some f) : SetOf w own other f.set := by
  refine ⟨a, hs, h.fresh.fields.below hf, ?_⟩
  intro f' hf'
  rw [hf] at hf'
  cases hf'
  rfl

/-- The field of a side whose reference is in flight. -/
theorem side_live {own other : Option Addr}
    (h : Consistent w (holdOpt .field own + (holdOpt .field other + live)))
    (hs : own.or other = some a) : ∃ f, w.fields a = some f := by
  have hmem : Ref.field a ∈ holdOpt .field own + (holdOpt .field other + live) := by
    cases own with
    | some b =>
      cases hs
      simp
    | none =>
      cases other with
      | some b =>
        cases hs
        simp
      | none => cases hs
  obtain ⟨f, hf, -⟩ := h.field_live hmem
  exact ⟨f, hf⟩

/-- `op_new` answers an operation that holds what it refers to, or hands back
all it took. -/
theorem opNew_does {env : Env} {df ds sf ss sv : Option Text} (h : Consistent w live) :
    Frames NoDangle Same (opNew env df ds sf ss sv) w (fun r v =>
      Consistent v (r.elim 0 Op.refs + live) ∧ ∀ op, r = some op → OpOk v op) := by
  have hnone : ∀ {v : World}, Consistent v live →
      Consistent v ((none : Option Op).elim 0 Op.refs + live) ∧
        ∀ op, none = some op → OpOk v op := by
    intro v hv
    refine ⟨?_, fun op ho => by cases ho⟩
    rwa [Option.elim_none, zero_add]
  have herr : ∀ {msg : Text}, Frames NoDangle Same
      (nbErr msg >>= fun _ => pure none : M (Option Op)) w (fun r v =>
        Consistent v (r.elim 0 Op.refs + live) ∧ ∀ op, r = some op → OpOk v op) :=
    keep_err h (fun v hv _ => hnone hv)
  have hdie : ∀ {v : World} {ret : Op} {msg : Text}, Consistent v (ret.refs + live) →
      Frames NoDangle Same (opDie ret msg) v (fun r v =>
        Consistent v (r.elim 0 Op.refs + live) ∧ ∀ op, r = some op → OpOk v op) := by
    intro v ret msg hv
    refine (opDie_does hv).imp ?_
    intro r u hu
    rw [hu.1]
    exact hnone hu.2
  unfold opNew
  by_cases hfields : df = none ∧ sf = none
  · rw [if_pos hfields]
    exact herr
  rw [if_neg hfields]
  split
  · exact herr
  split
  · exact herr
  split
  · exact herr
  apply (keep h alloc_idle).bind
  intro ok v hv
  obtain ⟨h, -⟩ := hv
  cases ok with
  | false => exact keep_err h (fun v hv _ => hnone hv)
  | true =>
    simp only [Bool.not_true, Bool.false_eq_true, if_false]
    apply (opField_does h).bind
    intro dstField v hv
    cases dstField with
    | none => exact hdie (by simpa [Op.zero, Op.refs, holdOpt] using hv)
    | some dstField =>
      obtain ⟨h, hdf⟩ := hv
      simp only []
      apply (opField_does h).bind
      intro srcField v hv
      cases srcField with
      | none => exact hdie (by simpa [Op.zero, Op.refs, holdOpt] using hv)
      | some srcField =>
        obtain ⟨h, hsf⟩ := hv
        have hsides : ¬ (dstField = none ∧ srcField = none) := by
          rw [hdf, hsf]
          exact hfields
        obtain ⟨a, hda⟩ := some_side hsides
        obtain ⟨b, hsb⟩ := some_side (fun hc => hsides hc.symm)
        obtain ⟨f, hf⟩ := side_live (by rw [add_left_comm]; exact h) hda
        obtain ⟨g, hg⟩ := side_live h hsb
        apply (opState_does h hda hf).bind_frame
        intro dst v hsame hv
        obtain ⟨f', hf', -, hfs⟩ := hsame.field_live hf
        obtain ⟨g', hg', -, hgs⟩ := hsame.field_live hg
        cases dst with
        | none =>
          exact hdie (by simpa [Op.zero, Op.refs, holdOpt, add_assoc, add_left_comm] using hv)
        | some dst =>
          obtain ⟨h, hbd, hst⟩ := hv
          apply (opSrc_does h hsb hg').bind_frame
          intro src u hsame hu
          obtain ⟨f₁, hf₁, -, hfs₁⟩ := hsame.field_live hf'
          obtain ⟨g₁, hg₁, -, hgs₁⟩ := hsame.field_live hg'
          cases src with
          | none =>
            exact hdie (by simpa [Op.zero, Op.refs, holdOpt, add_assoc, add_left_comm] using hu)
          | some src =>
            obtain ⟨h, hbs⟩ := hu
            simp only [opMemrefField_eq hda, opMemrefField_eq hsb, pure_bind]
            rw [deref_bind hf₁, deref_bind hg₁]
            refine ⟨.refl h.fresh, ?_, ?_⟩
            · simpa [Op.refs, add_assoc, add_left_comm] using h
            · intro op ho
              cases ho
              have hg := hsame.toGrows
              exact
                { to' := rfl
                  from' := rfl
                  dst := by
                    rw [← hfs, ← hfs₁] at hbd
                    exact hbd.mono hg
                  src := by
                    rw [← hgs₁] at hbs
                    exact hbs
                  state := hst.mono hbd hg
                  setTo := setOf_field h hda hf₁
                  setFrom := setOf_field h hsb hg₁ }

end Operations

end Xdpacket
