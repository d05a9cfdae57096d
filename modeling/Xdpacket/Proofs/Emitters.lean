import Xdpacket.Model.Parse
import Xdpacket.Proofs.Contracts

namespace Xdpacket

variable {E : Fault → Prop} {w v : World} {live : Multiset Ref} {a : Addr}

/-- `JS_LOOP` visits addresses that the store lists. -/
theorem mem_jsAddrs {s : NameStore Text} (ha : a ∈ jsAddrs s) : ∃ n, AList.lookup n s = some a := by
  unfold jsAddrs at ha
  obtain ⟨x, hx, hxa⟩ := List.mem_map.mp ha
  rw [List.mem_insertionSort] at hx
  obtain ⟨e, he, hex⟩ := List.mem_map.mp hx
  refine ⟨e.1, ?_⟩
  rw [NameStore.lookup_of_mem he, ← hxa, ← hex]

theorem emitEach_idle {emit : Addr → M Nat} {as : List Addr}
    (h : ∀ a ∈ as, ∀ v, Idle w v → Frames NoDangle Idle (emit a) v (fun _ _ => True)) :
    Frames NoDangle Idle (emitEach emit as) w (fun _ _ => True) := by
  induction as generalizing w with
  | nil => exact ⟨.refl w, trivial⟩
  | cons a as ih =>
    unfold emitEach
    apply (h a (List.mem_cons_self ..) w (.refl w)).bind_frame
    intro r v hi _
    split
    · exact ⟨{ Idle.refl v with next := Nat.le_refl _ }, trivial⟩
    · apply ih
      intro b hb u hu
      exact h b (List.mem_cons_of_mem _ hb) u (hi.trans hu)

/-- The `_emit_all` of a store whose every entry can be emitted. -/
theorem emitStore_idle (js : World → NameStore Text) {emit : Addr → M Nat}
    (h : Consistent w live)
    (he : ∀ n a v, AList.lookup n (js w) = some a → Idle w v → Consistent v live →
      Frames NoDangle Idle (emit a) v (fun _ _ => True)) :
    Frames NoDangle Idle (do let w ← get; emitEach emit (jsAddrs (js w))) w
      (fun _ _ => True) := by
  rw [Frames.get_bind]
  apply emitEach_idle
  intro a ha v hv
  obtain ⟨n, hn⟩ := mem_jsAddrs ha
  exact he n a v hn hv (hv.consistent h)

theorem fieldEmit_idle {f : Field} (hf : w.fields a = some f) :
    Frames E Idle (fieldEmit a) w (fun _ _ => True) := by
  unfold fieldEmit
  rw [deref_bind hf]
  exact emitReply_idle

theorem fieldEmitAll_idle (h : Consistent w live) :
    Frames NoDangle Idle fieldEmitAll w (fun _ _ => True) := by
  refine emitStore_idle World.fieldJS h ?_
  intro n a v hn hv _
  obtain ⟨f, hf, -⟩ := h.fields.found hn
  rw [← hv.fields] at hf
  exact fieldEmit_idle hf

theorem ifaceEmit_idle {i : Iface} (hi : w.ifaces a = some i) :
    Frames NoDangle Idle (ifaceEmit a) w (fun _ _ => True) := by
  unfold ifaceEmit
  rw [deref_bind hi]
  exact emitReply_idle

theorem ifaceEmitAll_idle (h : Consistent w live) :
    Frames NoDangle Idle ifaceEmitAll w (fun _ _ => True) := by
  refine emitStore_idle World.ifaceJS h ?_
  intro n a v hn hv _
  obtain ⟨i, hi, -⟩ := h.ifaces.found hn
  rw [← hv.ifaces] at hi
  exact ifaceEmit_idle hi

theorem opEmitField_idle {f : Option Addr} (hc : ∀ x ∈ holdOpt .field f, 0 < w.count x) :
    Frames NoDangle Idle (opEmitField f) w (fun _ _ => True) := by
  cases f with
  | none => exact ⟨.refl w, trivial⟩
  | some a =>
    obtain ⟨f, hf, -⟩ := field_of_count (hc (.field a) (by simp [holdOpt]))
    unfold opEmitField
    rw [deref_bind hf]
    exact ⟨.refl w, trivial⟩

theorem memrefEmit_idle {m : Option Addr} (hc : ∀ x ∈ holdOpt .memref m, 0 < w.count x) :
    Frames NoDangle Idle (memrefEmit m) w (fun _ _ => True) := by
  cases m with
  | none => exact ⟨.refl w, trivial⟩
  | some a =>
    obtain ⟨r, hr⟩ := memref_of_count (hc (.memref a) (by simp [holdOpt]))
    unfold memrefEmit
    rw [deref_bind hr]
    split
    · exact ⟨.refl w, trivial⟩
    · intro b hb
      cases hb
    · exact ⟨.refl w, trivial⟩

theorem opEmit_idle {op : Op} (hc : ∀ x ∈ op.refs, 0 < w.count x) :
    Frames NoDangle Idle (opEmit op) w (fun _ _ => True) := by
  simp only [Op.refs, Multiset.mem_add] at hc
  unfold opEmit
  apply (opEmitField_idle (fun x hx => hc x (.inl (.inl (.inl hx))))).bind_frame
  intro _ v₁ hi₁ _
  rw [← hi₁.count] at hc
  apply (memrefEmit_idle (fun x hx => hc x (.inl (.inr hx)))).bind_frame
  intro _ v₂ hi₂ _
  rw [← hi₂.count] at hc
  apply (opEmitField_idle (fun x hx => hc x (.inl (.inl (.inr hx))))).bind_frame
  intro _ v₃ hi₃ _
  rw [← hi₃.count] at hc
  apply (memrefEmit_idle (fun x hx => hc x (.inr hx))).bind
  intro _ v₄ _
  exact ⟨.refl v₄, trivial⟩

theorem opEmitAll_idle {ops : List Op} (hc : ∀ x ∈ opsRefs ops, 0 < w.count x) :
    Frames NoDangle Idle (opEmitAll ops) w (fun _ _ => True) := by
  induction ops generalizing w with
  | nil => exact ⟨.refl w, trivial⟩
  | cons op ops ih =>
    simp only [opsRefs_cons, Multiset.mem_add] at hc
    apply (opEmit_idle (fun x hx => hc x (.inl hx))).bind_frame
    intro _ v hi _
    rw [← hi.count] at hc
    apply (ih (fun x hx => hc x (.inr hx))).bind
    intro _ u _
    exact ⟨.refl u, trivial⟩

theorem ruleEmit_idle {r : Rule} (h : Consistent w live) (hr : w.rules a = some r) :
    Frames NoDangle Idle (ruleEmit a) w (fun _ _ => True) := by
  have hc : ∀ x ∈ opsRefs r.matchJQ + opsRefs r.writeJQ, 0 < w.count x :=
    fun x hx => h.rule_counted hr hx
  simp only [Multiset.mem_add] at hc
  unfold ruleEmit
  rw [deref_bind hr]
  apply (opEmitAll_idle (fun x hx => hc x (.inl hx))).bind_frame
  intro _ v hi _
  rw [← hi.count] at hc
  apply (opEmitAll_idle (fun x hx => hc x (.inr hx))).bind
  intro _ u _
  exact emitReply_idle

theorem ruleEmitAll_idle (h : Consistent w live) :
    Frames NoDangle Idle ruleEmitAll w (fun _ _ => True) := by
  refine emitStore_idle World.ruleJS h ?_
  intro n a v hn hv hc
  obtain ⟨r, hr, -⟩ := h.rules.found hn
  rw [← hv.rules] at hr
  exact ruleEmit_idle hc hr

theorem routEmit_idle {rt : Rout} (hc : ∀ x ∈ rt.refs, 0 < w.count x) :
    Frames NoDangle Idle (routEmit rt) w (fun _ _ => True) := by
  obtain ⟨r, hr, -⟩ := rule_of_count (hc (.rule rt.rule) (by simp [Rout.refs]))
  obtain ⟨i, hi, -⟩ := iface_of_count (hc (.iface rt.output) (by simp [Rout.refs]))
  obtain ⟨s, hs⟩ := rset_of_count (hc (.rset rt.set) (by simp [Rout.refs]))
  unfold routEmit
  rw [deref_bind hr, deref_bind hi, deref_bind hs]
  exact ⟨.refl w, trivial⟩

theorem routEmitAll_idle {rts : List Rout} (hc : ∀ x ∈ routsRefs rts, 0 < w.count x) :
    Frames NoDangle Idle (routEmitAll rts) w (fun _ _ => True) := by
  induction rts generalizing w with
  | nil => exact ⟨.refl w, trivial⟩
  | cons rt rts ih =>
    simp only [routsRefs_cons, Multiset.mem_add] at hc
    apply (routEmit_idle (fun x hx => hc x (.inl hx))).bind_frame
    intro _ v hi _
    rw [← hi.count] at hc
    apply (ih (fun x hx => hc x (.inr hx))).bind
    intro _ u _
    exact ⟨.refl u, trivial⟩

theorem processEmit_idle {p : Process} (h : Consistent w live) (hp : w.processes a = some p) :
    Frames NoDangle Idle (processEmit a) w (fun _ _ => True) := by
  have hc : ∀ x ∈ routsRefs p.routJQ, 0 < w.count x := by
    intro x hx
    apply h.process_counted hp
    unfold Process.refs
    exact Multiset.mem_add.mpr (.inr hx)
  obtain ⟨i, hi⟩ := Option.isSome_iff_exists.mp (h.inputs a p hp)
  unfold processEmit
  rw [deref_bind hp]
  apply (routEmitAll_idle hc).bind_frame
  intro _ v hv _
  rw [← hv.ifaces] at hi
  rw [deref_bind hi]
  exact emitReply_idle

theorem processEmitAll_idle (h : Consistent w live) :
    Frames NoDangle Idle processEmitAll w (fun _ _ => True) := by
  refine emitStore_idle World.processJS h ?_
  intro n a v hn hv hc
  obtain ⟨p, hp, -⟩ := h.processes.found hn
  rw [← hv.processes] at hp
  exact processEmit_idle hc hp

/-- The reply to a print of everything. -/
theorem emitAll_idle (h : Consistent w live) :
    Frames NoDangle Idle emitAll w (fun _ _ => True) := by
  unfold emitAll
  apply (ifaceEmitAll_idle h).bind_frame
  intro _ v₁ hi₁ _
  have h₁ := hi₁.consistent h
  apply (fieldEmitAll_idle h₁).bind_frame
  intro _ v₂ hi₂ _
  have h₂ := hi₂.consistent h₁
  apply (ruleEmitAll_idle h₂).bind_frame
  intro _ v₃ hi₃ _
  apply (processEmitAll_idle (hi₃.consistent h₂)).bind
  intro _ v₄ _
  exact ⟨.refl v₄, trivial⟩

theorem parseDie_idle {errCnt : Nat} {msg : Text} :
    Frames E Idle (parseDie errCnt msg) w (fun r _ => r = errCnt + 1) :=
  ⟨{ Idle.refl w with next := Nat.le_refl _ }, rfl⟩

theorem parseEmit_idle {errCnt : Nat} {emit : M Nat}
    (h : Frames E Idle emit w (fun _ _ => True)) :
    Frames E Idle (parseEmit errCnt emit) w (fun r _ => r = errCnt ∨ r = errCnt + 1) := by
  unfold parseEmit
  apply h.bind
  intro r v _
  split
  · exact parseDie_idle.imp (fun _ _ hr => .inr hr)
  · exact ⟨.refl v, .inl rfl⟩

end Xdpacket
