import Xdpacket.Model.Parse
import Xdpacket.Proofs.Contracts

namespace Xdpacket

variable {w v u : World} {env : Env} {a : Addr}

section Relations

/-- What configuring retains: no rout set counts, no iface gets another name, and no frame is
sent. -/
structure Retains (w v : World) : Prop where
  next : w.next ≤ v.next
  rsets : Evolves w.next id w.rsets v.rsets
  uncounted : ∀ a s, w.next ≤ a → v.rsets a = some s → w.rsets a = some s ∨ s.countMatch = 0
  ifaces : Evolves w.next Iface.name w.ifaces v.ifaces
  sent : v.sent = w.sent

theorem Retains.refl (w : World) : Retains w w :=
  ⟨Nat.le_refl _, .refl _ _ _, fun _ _ _ hs => .inl hs, .refl _ _ _, rfl⟩

theorem Retains.trans (h : Retains w v) (h' : Retains v u) : Retains w u where
  next := Nat.le_trans h.next h'.next
  rsets := h.rsets.trans h.next h'.rsets
  uncounted := by
    intro a s ha hs
    by_cases hv : v.next ≤ a
    · rcases h'.uncounted a s hv hs with hs | hs
      · exact h.uncounted a s ha hs
      · exact .inr hs
    · obtain ⟨t, ht, he⟩ := h'.rsets a (Nat.lt_of_not_le hv) s hs
      cases he
      exact h.uncounted a s ha ht
  ifaces := h.ifaces.trans h.next h'.ifaces
  sent := h'.sent.trans h.sent

/-- No process and no registration is touched. -/
structure Spares (w v : World) : Prop extends Retains w v where
  processes : v.processes = w.processes
  processJS : v.processJS = w.processJS
  tracked : v.tracked = w.tracked

theorem Spares.refl (w : World) : Spares w w := ⟨.refl w, rfl, rfl, rfl⟩

theorem Spares.trans (h : Spares w v) (h' : Spares v u) : Spares w u where
  toRetains := h.toRetains.trans h'.toRetains
  processes := h'.processes.trans h.processes
  processJS := h'.processJS.trans h.processJS
  tracked := h'.tracked.trans h.tracked

instance : Std.Refl Spares := ⟨Spares.refl⟩

instance : IsTrans World Spares := ⟨fun _ _ _ => Spares.trans⟩

/-- An iface made since then. -/
theorem Spares.makeIface {i : Iface} (h : Spares w v) (ha : w.next ≤ a) :
    Spares w { v with ifaces := Function.update v.ifaces a (some i) } := by
  refine { h with ifaces := ?_ }
  intro b hb j hj
  rcases of_updated hj with ⟨rfl, -⟩ | ⟨-, hj⟩
  · exact absurd ha (Nat.not_le_of_lt hb)
  · exact h.ifaces b hb j hj

/-- A rout set made since then, which has counted nothing yet. -/
theorem Spares.makeRset {s : RoutSet} (h : Spares w v) (ha : w.next ≤ a) (hs : s.countMatch = 0) :
    Spares w { v with rsets := Function.update v.rsets a (some s) } where
  next := h.next
  rsets := by
    intro b hb t ht
    rcases of_updated ht with ⟨rfl, -⟩ | ⟨-, ht⟩
    · exact absurd ha (Nat.not_le_of_lt hb)
    · exact h.rsets b hb t ht
  uncounted := by
    intro b t hb ht
    rcases of_updated ht with ⟨rfl, he⟩ | ⟨-, ht⟩
    · cases he
      exact .inr hs
    · exact h.uncounted b t hb ht
  ifaces := h.ifaces
  sent := h.sent
  processes := h.processes
  processJS := h.processJS
  tracked := h.tracked

end Relations

/-- A program that touches no process and no registration. -/
abbrev Sparing (m : M α) : Prop := Within (fun _ => True) Spares m

namespace Sparing

variable {α β σ : Type} {ref own other : Option Addr} {name : Option Text} {n : Text}
  {doc : Document} {mode : ParseMode} {mapping : Pairs doc}

section Steps

instance toFieldJS {g : World → NameStore Text} :
    Sparing (modify fun w => { w with fieldJS := g w } : M PUnit) :=
  ⟨fun w => { Spares.refl w with next := Nat.le_refl _ }⟩

instance toStateJS {g : World → NameStore Text} :
    Sparing (modify fun w => { w with stateJS := g w } : M PUnit) :=
  ⟨fun w => { Spares.refl w with next := Nat.le_refl _ }⟩

instance toRuleJS {g : World → NameStore Text} :
    Sparing (modify fun w => { w with ruleJS := g w } : M PUnit) :=
  ⟨fun w => { Spares.refl w with next := Nat.le_refl _ }⟩

instance toIfaceJS {g : World → NameStore Text} :
    Sparing (modify fun w => { w with ifaceJS := g w } : M PUnit) :=
  ⟨fun w => { Spares.refl w with next := Nat.le_refl _ }⟩

instance toOpenFds {g : World → List Nat} :
    Sparing (modify fun w => { w with openFds := g w } : M PUnit) :=
  ⟨fun w => { Spares.refl w with next := Nat.le_refl _ }⟩

instance toOutlist {g : World → List Out} :
    Sparing (modify fun w => { w with outlist := g w } : M PUnit) :=
  ⟨fun w => { Spares.refl w with next := Nat.le_refl _ }⟩

instance nbErr : Sparing (nbErr n) := ⟨fun w => { Spares.refl w with next := Nat.le_refl _ }⟩

instance putField {o : Option Field} : Sparing (putField a o) :=
  ⟨fun w => { Spares.refl w with next := Nat.le_refl _ }⟩

instance putMemref {o : Option Memref} : Sparing (putMemref a o) :=
  ⟨fun w => { Spares.refl w with next := Nat.le_refl _ }⟩

instance putRule {o : Option Rule} : Sparing (putRule a o) :=
  ⟨fun w => { Spares.refl w with next := Nat.le_refl _ }⟩

instance forgetRset : Sparing (putRset a none) :=
  ⟨fun w => { Spares.refl w with
    rsets := .remove
    uncounted := fun _ _ _ hs => .inl (of_removed hs) }⟩

instance forgetIface : Sparing (putIface a none) :=
  ⟨fun w => { Spares.refl w with ifaces := .remove }⟩

instance newAddr : Sparing newAddr :=
  ⟨fun _ => ⟨⟨Nat.le_succ _, .refl _ _ _, fun _ _ _ hs => .inl hs, .refl _ _ _, rfl⟩, rfl, rfl, rfl⟩⟩

instance alloc : Sparing alloc := by
  refine ⟨fun w => ?_⟩
  unfold Xdpacket.alloc
  rw [Runs.modifyGet_iff]
  cases w.oom with
  | nil => exact .refl w
  | cons fails rest => exact { Spares.refl w with next := Nat.le_refl _ }

instance syscall : Sparing syscall := by
  refine ⟨fun w => ?_⟩
  unfold Xdpacket.syscall
  rw [Runs.modifyGet_iff]
  cases w.sys with
  | nil => exact .refl w
  | cons fails rest => exact { Spares.refl w with next := Nat.le_refl _ }

instance jsGet {js : World → NameStore Text} : Sparing (jsGet js name) := by
  cases name with
  | none => exact ⟨fun _ => trivial⟩
  | some n => infer_instance

instance calloc : Sparing calloc := by
  unfold Xdpacket.calloc
  infer_instance

instance strAlloc {max : Nat} : Sparing (env.strAlloc n max) := by
  unfold Env.strAlloc
  infer_instance

instance allCalls {call : M Bool} [h : Sparing call] {k : Nat} : Sparing (allCalls call k) := by
  induction k with
  | zero => exact Within.pure
  | succ k ih =>
    unfold Xdpacket.allCalls
    infer_instance

instance emitReply {reply : Out} : Sparing (emitReply reply) := by
  unfold Xdpacket.emitReply
  infer_instance

/-- A change of an iface that keeps its name. -/
theorem putIface {i j : Iface} (hi : w.ifaces a = some i) (hn : j.name = i.name) :
    Runs (fun _ => True) (putIface a (some j)) w (fun _ v => Spares w v) :=
  { Spares.refl w with ifaces := .modify hi hn }

/-- What `calloc` answers was not given out before. -/
theorem calloc_fresh : Runs (fun _ => True) Xdpacket.calloc w (fun r v => Spares w v ∧
    ∀ a, r = some a → w.next ≤ a) := by
  unfold Xdpacket.calloc
  refine (alloc.runs w).bind ?_
  intro ok v hv
  cases ok with
  | false => exact ⟨hv, fun a ha => by cases ha⟩
  | true =>
    refine ⟨hv.trans ⟨⟨Nat.le_succ _, .refl _ _ _, fun _ _ _ hs => .inl hs, .refl _ _ _, rfl⟩,
      rfl, rfl, rfl⟩, fun a ha => ?_⟩
    cases ha
    exact hv.next

end Steps

section Objects

instance fieldFree {refcnt : Nat} : Sparing (fieldFree a name refcnt) := by
  unfold Xdpacket.fieldFree
  infer_instance

instance fieldFreeAt : Sparing (fieldFreeAt a) := by
  unfold Xdpacket.fieldFreeAt
  infer_instance

instance fieldNew {offt len mask : Int} : Sparing (fieldNew env name offt len mask) := by
  unfold Xdpacket.fieldNew
  refine Within.step (fun w => ?_)
  split
  · infer_instance
  split
  · infer_instance
  refine Within.step (fun ret => ?_)
  cases ret with
  | none => infer_instance
  | some ret =>
    refine Within.step (fun copied => ?_)
    cases copied with
    | null | inval | truncated copy => infer_instance
    | copy =>
      dsimp only
      split <;> infer_instance

instance fieldRelease : Sparing (fieldRelease ref) := by
  unfold Xdpacket.fieldRelease
  split <;> infer_instance

instance fieldGet : Sparing (fieldGet n) := by
  refine Within.step (fun r => ?_)
  split <;> infer_instance

instance memrefFree : Sparing (memrefFree a name) := by
  unfold Xdpacket.memrefFree
  infer_instance

instance memrefRelease : Sparing (memrefRelease ref) := by
  unfold Xdpacket.memrefRelease
  split
  · infer_instance
  · refine Within.step (fun r => ?_)
    split <;> infer_instance

instance memrefValueNew {field : Addr} {value : Text} : Sparing (memrefValueNew env field value) := by
  refine Within.step (fun f => .step (fun ret => ?_))
  cases ret with
  | none => infer_instance
  | some ret =>
    refine Within.step (fun input => ?_)
    cases env.valueParse value f.set.len.toNat with
    | none => cases input <;> infer_instance
    | some parsed => cases input <;> infer_instance

instance memrefStateGet {field : Addr} : Sparing (memrefStateGet env field n) := by
  refine Within.step (fun f => .step (fun r => ?_))
  cases r with
  | some a =>
    refine Within.step (fun r => ?_)
    split
    · split <;> infer_instance
    · infer_instance
  | none =>
    refine Within.step (fun ret => ?_)
    cases ret with
    | none => infer_instance
    | some ret =>
      refine Within.step (fun copied => ?_)
      cases copied <;> infer_instance

instance opFree {op : Op} : Sparing (opFree op) := by
  unfold Xdpacket.opFree
  infer_instance

instance opDie {ret : Op} : Sparing (opDie ret n) := by
  unfold Xdpacket.opDie
  infer_instance

instance opField : Sparing (opField name) := by
  unfold Xdpacket.opField
  split
  · infer_instance
  · refine Within.step (fun r => ?_)
    cases r <;> infer_instance

instance opMemrefField : Sparing (opMemrefField own other) := by
  unfold Xdpacket.opMemrefField
  split <;> infer_instance

instance opState : Sparing (opState env own other name) := by
  unfold Xdpacket.opState
  split
  · infer_instance
  · refine Within.step (fun field => .step (fun r => ?_))
    cases r <;> infer_instance

instance opValue : Sparing (opValue env own other name) := by
  unfold Xdpacket.opValue
  split
  · infer_instance
  · refine Within.step (fun field => .step (fun r => ?_))
    cases r <;> infer_instance

instance opNew {df ds sf ss sv : Option Text} : Sparing (opNew env df ds sf ss sv) := by
  unfold Xdpacket.opNew
  split
  · infer_instance
  split
  · infer_instance
  split
  · infer_instance
  split
  · infer_instance
  refine Within.step (fun ok => ?_)
  split
  · infer_instance
  refine Within.step (fun dstField => ?_)
  cases dstField with
  | none => infer_instance
  | some dstField =>
    refine Within.step (fun srcField => ?_)
    cases srcField with
    | none => infer_instance
    | some srcField =>
      refine Within.step (fun dst => ?_)
      cases dst with
      | none => infer_instance
      | some dst =>
        refine Within.step (fun src => ?_)
        cases src <;> infer_instance

instance opFreeAll {ops : List Op} : Sparing (opFreeAll ops) := by
  induction ops with
  | nil => exact Within.pure
  | cons op ops ih => exact Within.step (fun _ => ih)

instance ruleReleaseRefs {xs ys : List Op} : Sparing (ruleReleaseRefs xs ys) := by
  unfold Xdpacket.ruleReleaseRefs
  infer_instance

instance ruleFree {refcnt : Nat} {xs ys : List Op} : Sparing (ruleFree a name refcnt xs ys) := by
  unfold Xdpacket.ruleFree
  infer_instance

instance ruleFreeAt : Sparing (ruleFreeAt a) := by
  unfold Xdpacket.ruleFreeAt
  infer_instance

instance ruleNew {xs ys : List Op} : Sparing (ruleNew env n xs ys) := by
  refine Within.step (fun ret => ?_)
  cases ret with
  | none => infer_instance
  | some ret =>
    refine Within.step (fun copied => ?_)
    cases copied <;> infer_instance

instance ruleRelease : Sparing (ruleRelease ref) := by
  unfold Xdpacket.ruleRelease
  split <;> infer_instance

instance ruleGet : Sparing (ruleGet n) := by
  refine Within.step (fun r => ?_)
  split <;> infer_instance

instance ifaceRelease : Sparing (ifaceRelease ref) := by
  unfold Xdpacket.ifaceRelease
  split
  · infer_instance
  · refine ⟨fun w => deref_runs (fun i hi => ?_)⟩
    split
    · exact nbErr.runs w
    · exact putIface hi rfl

instance ifaceGet : Sparing (ifaceGet n) := by
  refine Within.step (fun r => ?_)
  split
  · infer_instance
  · exact ⟨fun w => deref_runs (fun i hi => Runs.bind (putIface hi rfl) (fun _ _ hv => hv))⟩

/-- `rout_set_new`: what it answers was not given out before. -/
theorem routSetNew_fresh {rule output : Addr} :
    Runs (fun _ => True) (routSetNew rule output) w (fun r v => Spares w v ∧
      ∀ a, r = some a → w.next ≤ a) := by
  refine calloc_fresh.bind ?_
  intro ret v hv
  obtain ⟨hv, hfresh⟩ := hv
  cases ret with
  | none => exact (nbErr.runs v).bind (fun _ _ hu => ⟨hv.trans hu, fun a ha => by cases ha⟩)
  | some ret =>
    refine Runs.bind (Within.deref.runs (S := Spares) v) ?_
    intro r u hu
    have hu := hv.trans hu
    have hret := hfresh ret rfl
    refine ⟨hu.makeRset hret rfl, fun a ha => ?_⟩
    cases ha
    exact hret

instance routSetFree : Sparing (routSetFree ref) := by
  unfold Xdpacket.routSetFree
  split <;> infer_instance

instance routFree {rule output set : Option Addr} : Sparing (routFree rule output set) := by
  unfold Xdpacket.routFree
  infer_instance

instance routFreeAll {rts : List Rout} : Sparing (routFreeAll rts) := by
  induction rts with
  | nil => exact Within.pure
  | cons rt rts ih => exact Within.step (fun _ => ih)

/-- `rout_new`: the rout set it makes was not given out before. -/
theorem routNew_fresh {outName : Option Text} :
    Runs (fun _ => True) (routNew name outName) w (fun r v => Spares w v ∧
      ∀ rt, r = some rt → w.next ≤ rt.set) := by
  have hnone : ∀ {m : M PUnit} {v : World}, Sparing m → Spares w v →
      Runs (fun _ => True) (m >>= fun _ => Pure.pure none : M (Option Rout)) v (fun r v =>
        Spares w v ∧ ∀ rt, r = some rt → w.next ≤ rt.set) :=
    fun hm hv => (hm.runs _).bind (fun _ _ hu => ⟨hv.trans hu, fun rt hr => by cases hr⟩)
  unfold Xdpacket.routNew
  split
  · exact hnone nbErr (.refl w)
  · exact hnone nbErr (.refl w)
  · refine (alloc.runs w).bind ?_
    intro ok v hv
    split
    · exact hnone nbErr hv
    refine (ruleGet.runs v).bind ?_
    intro rule v₁ hv₁
    have hv₁ := hv.trans hv₁
    cases rule with
    | none => exact (nbErr.runs v₁).bind (fun _ _ hu => hnone routFree (hv₁.trans hu))
    | some rule =>
      refine (ifaceGet.runs v₁).bind ?_
      intro output v₂ hv₂
      have hv₂ := hv₁.trans hv₂
      cases output with
      | none => exact (nbErr.runs v₂).bind (fun _ _ hu => hnone routFree (hv₂.trans hu))
      | some output =>
        refine routSetNew_fresh.bind ?_
        intro set v₃ hv₃
        have hspares := hv₂.trans hv₃.1
        cases set with
        | none => exact (nbErr.runs v₃).bind (fun _ _ hu => hnone routFree (hspares.trans hu))
        | some set =>
          refine ⟨hspares, fun rt hr => ?_⟩
          cases hr
          exact Nat.le_trans hv₂.next (hv₃.2 set rfl)

instance ifaceHandlerRegister {h : Handler} : Sparing (ifaceHandlerRegister a h ref) := by
  refine ⟨fun w => deref_runs (fun i hi => ?_)⟩
  split
  · exact (inferInstance : Sparing _).runs w
  · exact Runs.bind (putIface hi rfl) (fun _ _ hv => hv)

instance ifaceHandlerClear {h : Handler} : Sparing (ifaceHandlerClear a h ref) := by
  refine ⟨fun w => deref_runs (fun i hi => ?_)⟩
  split
  · exact (inferInstance : Sparing _).runs w
  · exact Runs.bind (putIface hi rfl) (fun _ _ hv => hv)

instance ifaceFree {iface : IfaceParts} : Sparing (ifaceFree env a iface) := by
  unfold Xdpacket.ifaceFree
  split
  · infer_instance
  · refine Within.step (fun r => ?_)
    dsimp only
    split
    · refine Within.step (fun _ => ?_)
      infer_instance
    · infer_instance

instance ifaceFreeAt : Sparing (ifaceFreeAt env a) := by
  unfold Xdpacket.ifaceFreeAt
  infer_instance

instance destroyAll {regs : List (Nat × Addr)} : Sparing (destroyAll env regs) := by
  induction regs with
  | nil => exact Within.pure
  | cons r rs ih => exact Within.step (fun _ => ih)

theorem ifaceDie_spares {iface : IfaceParts} (h : Spares w v) :
    Runs (fun _ => True) (Xdpacket.ifaceDie env a iface n) v (fun r u => Spares w u ∧
      ∀ b, r = some b → w.next ≤ b) := by
  unfold Xdpacket.ifaceDie
  refine (nbErr.runs v).bind (fun _ u hu => (ifaceFree.runs u).bind (fun _ t ht => ?_))
  exact ⟨(h.trans hu).trans ht, fun b hb => by cases hb⟩

theorem ifaceOpen_spares (h : Spares w v) (ha : w.next ≤ a) :
    Runs (fun _ => True) (ifaceOpen env a n) v (fun r u => Spares w u ∧
      ∀ b, r = some b → w.next ≤ b) := by
  refine (syscall.runs v).bind ?_
  intro ok v₁ hv₁
  split
  · exact ifaceDie_spares (h.trans hv₁)
  rw [Runs.bind_iff, Runs.get_iff]
  refine Runs.bind ((toOpenFds (g := fun u => lowestFd v₁.openFds :: u.openFds)).runs v₁) ?_
  intro _ v₂ hv₂
  refine (allCalls.runs v₂).bind ?_
  intro ok v₃ hv₃
  have hv₃ := ((h.trans hv₁).trans hv₂).trans hv₃
  split
  · exact ifaceDie_spares hv₃
  refine (alloc.runs v₃).bind ?_
  intro ok v₄ hv₄
  split
  · exact ifaceDie_spares (hv₃.trans hv₄)
  · refine ((toIfaceJS (g := fun u => u.ifaceJS.insert n a)).runs v₄).bind ?_
    intro _ v₅ hv₅
    refine ⟨((hv₃.trans hv₄).trans hv₅).makeIface ha, fun b hb => ?_⟩
    cases hb
    exact ha

/-- `iface_new`: the iface it makes was not given out before. -/
theorem ifaceNew_fresh : Runs (fun _ => True) (ifaceNew env n) w (fun r v => Spares w v ∧
    ∀ a, r = some a → w.next ≤ a) := by
  unfold ifaceNew
  rw [Runs.bind_iff, Runs.get_iff]
  split
  · exact (nbErr.runs w).bind (fun _ _ hu => ⟨hu, fun a ha => by cases ha⟩)
  refine calloc_fresh.bind ?_
  intro ret v hv
  cases ret with
  | none => exact (nbErr.runs v).bind (fun _ _ hu => ⟨hv.1.trans hu, fun a ha => by cases ha⟩)
  | some ret =>
    refine (strAlloc.runs v).bind ?_
    intro copied v₁ hv₁
    have hv₁ := hv.1.trans hv₁
    cases copied with
    | null | inval | truncated copy => exact ifaceDie_spares hv₁
    | copy =>
      refine (allCalls.runs v₁).bind ?_
      intro ok v₂ hv₂
      split
      · exact ifaceDie_spares (hv₁.trans hv₂)
      · exact ifaceOpen_spares (hv₁.trans hv₂) (hv.2 ret rfl)

end Objects

section Emitters

variable {emit : Addr → M Nat}

instance emitEach [h : ∀ a, Sparing (emit a)] {as : List Addr} : Sparing (emitEach emit as) := by
  induction as with
  | nil => exact Within.pure
  | cons a as ih =>
    unfold Xdpacket.emitEach
    infer_instance

instance fieldEmit : Sparing (fieldEmit a) := by
  unfold Xdpacket.fieldEmit
  infer_instance

instance memrefEmit : Sparing (memrefEmit ref) := by
  unfold Xdpacket.memrefEmit
  split
  · infer_instance
  · refine Within.step (fun r => ?_)
    split <;> infer_instance

instance opEmitField : Sparing (opEmitField ref) := by
  unfold Xdpacket.opEmitField
  split <;> infer_instance

instance opEmit {op : Op} : Sparing (opEmit op) := by
  unfold Xdpacket.opEmit
  infer_instance

instance opEmitAll {ops : List Op} : Sparing (opEmitAll ops) := by
  induction ops with
  | nil => exact Within.pure
  | cons op ops ih =>
    unfold Xdpacket.opEmitAll
    infer_instance

instance ruleEmit : Sparing (ruleEmit a) := by
  unfold Xdpacket.ruleEmit
  infer_instance

instance routEmit {rt : Rout} : Sparing (routEmit rt) := by
  unfold Xdpacket.routEmit
  infer_instance

instance routEmitAll {rts : List Rout} : Sparing (routEmitAll rts) := by
  induction rts with
  | nil => exact Within.pure
  | cons rt rts ih =>
    unfold Xdpacket.routEmitAll
    infer_instance

instance processEmit : Sparing (processEmit a) := by
  unfold Xdpacket.processEmit
  infer_instance

instance ifaceEmit : Sparing (ifaceEmit a) := by
  unfold Xdpacket.ifaceEmit
  infer_instance

instance fieldEmitAll : Sparing fieldEmitAll := by
  unfold Xdpacket.fieldEmitAll
  infer_instance

instance ruleEmitAll : Sparing ruleEmitAll := by
  unfold Xdpacket.ruleEmitAll
  infer_instance

instance processEmitAll : Sparing processEmitAll := by
  unfold Xdpacket.processEmitAll
  infer_instance

instance ifaceEmitAll : Sparing ifaceEmitAll := by
  unfold Xdpacket.ifaceEmitAll
  infer_instance

instance emitAll : Sparing emitAll := by
  unfold Xdpacket.emitAll
  infer_instance

instance parseDie {errCnt : Nat} : Sparing (parseDie errCnt n) := by
  unfold Xdpacket.parseDie
  infer_instance

instance parseEmit {errCnt : Nat} {emit : M Nat} [Sparing emit] : Sparing (parseEmit errCnt emit) := by
  unfold Xdpacket.parseEmit
  infer_instance

end Emitters

section Parsers

instance scalarValue {node : Node doc.size} : Sparing (scalarValue node) := by
  unfold Xdpacket.scalarValue
  split <;> infer_instance

instance needText : Sparing (needText name) := by
  unfold Xdpacket.needText
  split <;> infer_instance

instance yForMap {statements : Text → Node doc.size → σ → M (Step σ)} {s : σ}
    [h : ∀ key val s, Sparing (statements key val s)] : Sparing (yForMap doc statements mapping s) := by
  induction mapping generalizing s with
  | nil => exact Within.pure
  | cons pair pairs ih =>
    obtain ⟨k, v⟩ := pair
    refine Within.step (fun keyname => .step (fun r => ?_))
    cases r with
    | go s => exact ih
    | die s => exact Within.pure

instance yForSeq {statements : Node doc.size → σ → M (Step σ)} {s : σ}
    {items : List (Fin doc.size)} [h : ∀ item s, Sparing (statements item s)] :
    Sparing (yForSeq doc statements items s) := by
  induction items generalizing s with
  | nil => exact Within.pure
  | cons item items ih =>
    refine Within.step (fun r => ?_)
    cases r with
    | go s => exact ih
    | die s => exact Within.pure

instance fieldParseKey {val : Node doc.size} {s : FieldArgs} : Sparing (fieldParseKey n val s) := by
  unfold Xdpacket.fieldParseKey fieldParseNumber
  infer_instance

instance fieldParseMode {s : FieldArgs} : Sparing (fieldParseMode env mode s) := by
  cases mode with
  | invalid => exact parseDie
  | add =>
    refine Within.step (fun r => ?_)
    cases r <;> infer_instance
  | del =>
    refine Within.step (fun name => .step (fun r => ?_))
    cases r <;> infer_instance
  | prn =>
    refine Within.step (fun name => ?_)
    split
    · infer_instance
    · refine Within.step (fun r => ?_)
      cases r <;> infer_instance

instance fieldParse : Sparing (fieldParse env mode doc mapping) := by
  refine Within.step (fun r => ?_)
  cases r <;> infer_instance

instance opParseDst {val : Node doc.size} {s : OpArgs} : Sparing (opParseDst n val s) := by
  unfold Xdpacket.opParseDst
  infer_instance

instance opParseSrc {val : Node doc.size} {s : OpArgs} : Sparing (opParseSrc n val s) := by
  unfold Xdpacket.opParseSrc
  infer_instance

instance opParseKey {val : Node doc.size} {s : OpArgs} : Sparing (opParseKey doc n val s) := by
  unfold Xdpacket.opParseKey
  split
  · split <;> infer_instance
  split
  · split <;> infer_instance
  · infer_instance

instance opParseNew : Sparing (opParseNew env doc mapping) := by
  refine Within.step (fun r => ?_)
  cases r <;> infer_instance

instance ruleParseItem {item : Node doc.size} {s : Nat × List Op} :
    Sparing (ruleParseItem env doc item s) := by
  unfold Xdpacket.ruleParseItem
  split
  · refine Within.step (fun r => ?_)
    cases r <;> infer_instance
  · infer_instance

instance ruleParseKey {val : Node doc.size} {s : RuleArgs} :
    Sparing (ruleParseKey env mode doc n val s) := by
  unfold Xdpacket.ruleParseKey
  split <;> infer_instance

instance ruleParseMode {s : RuleArgs} : Sparing (ruleParseMode env mode s) := by
  cases mode with
  | invalid => exact parseDie
  | add | del =>
    refine Within.step (fun r => ?_)
    cases r <;> infer_instance
  | prn =>
    simp only [Xdpacket.ruleParseMode]
    split
    · infer_instance
    · refine Within.step (fun r => ?_)
      cases r <;> infer_instance

instance ruleParse : Sparing (ruleParse env mode doc mapping) := by
  refine Within.step (fun r => ?_)
  cases r <;> infer_instance

end Parsers

end Sparing

end Xdpacket
