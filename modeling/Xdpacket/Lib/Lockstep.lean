import Xdpacket.Lib.Runs

/-- Two outcomes are related: the same fault, or related results and states. -/
def Alike (R : σ → τ → Prop) (A : α → β → Prop) :
    Except ε (α × σ) → Except ε (β × τ) → Prop
  | .ok p, .ok q => A p.1 q.1 ∧ R p.2 q.2
  | .error e, .error e' => e = e'
  | _, _ => False

/-- From related states the two programs have related outcomes. -/
def Lockstep (R : σ → τ → Prop) (A : α → β → Prop) (m : StateT σ (Except ε) α)
    (m' : StateT τ (Except ε) β) : Prop :=
  ∀ s t, R s t → Alike R A (m s) (m' t)

namespace Lockstep

variable {σ τ ε α β α' β' : Type} {R : σ → τ → Prop} {A : α → β → Prop} {A' : α' → β' → Prop}
  {m : StateT σ (Except ε) α} {m' : StateT τ (Except ε) β}
  {k : α → StateT σ (Except ε) α'} {k' : β → StateT τ (Except ε) β'}

theorem pure {a : α} {b : β} (h : A a b) :
    Lockstep R A (Pure.pure a : StateT σ (Except ε) α) (Pure.pure b) :=
  fun _ _ hr => ⟨h, hr⟩

theorem throw {e : ε} :
    Lockstep R A (MonadExcept.throw e : StateT σ (Except ε) α) (MonadExcept.throw e) :=
  fun _ _ _ => rfl

theorem change {f : σ → σ} {g : τ → τ} (h : ∀ s t, R s t → R (f s) (g t)) :
    Lockstep R Eq (modify f : StateT σ (Except ε) PUnit) (modify g) :=
  fun s t hr => ⟨rfl, h s t hr⟩

theorem changeGet {f : σ → α × σ} {g : τ → β × τ}
    (h : ∀ s t, R s t → A (f s).1 (g t).1 ∧ R (f s).2 (g t).2) :
    Lockstep R A (modifyGet f : StateT σ (Except ε) α) (modifyGet g) :=
  h

theorem bind (h : Lockstep R A m m') (hk : ∀ a b, A a b → Lockstep R A' (k a) (k' b)) :
    Lockstep R A' (m >>= k) (m' >>= k') := by
  intro s t hr
  have hs := h s t hr
  have hb : (m >>= k) s = (m s).bind (fun p => k p.1 p.2) := rfl
  have hb' : (m' >>= k') t = (m' t).bind (fun p => k' p.1 p.2) := rfl
  rw [hb, hb']
  cases hm : m s with
  | error e =>
    cases hm' : m' t with
    | error e' => rwa [hm, hm'] at hs
    | ok q => rw [hm, hm'] at hs; exact False.elim hs
  | ok p =>
    cases hm' : m' t with
    | error e' => rw [hm, hm'] at hs; exact False.elim hs
    | ok q =>
      rw [hm, hm'] at hs
      exact hk p.1 q.1 hs.1 p.2 q.2 hs.2

/-- Both sides read their state; what follows may depend on all of it. -/
theorem get_bind {l : σ → StateT σ (Except ε) α'} {l' : τ → StateT τ (Except ε) β'}
    (h : ∀ s t, R s t → Alike R A' (l s s) (l' t t)) : Lockstep R A' (get >>= l) (get >>= l') :=
  h

/-- A specification of one side holds of the other, through the relation. -/
theorem runs {E : ε → Prop} {Q : β → τ → Prop} {s : σ} {t : τ} (h : Lockstep R A m m')
    (hr : R s t) (hq : Runs E m' t Q) :
    Runs E m s (fun a s' => ∃ b t', A a b ∧ R s' t' ∧ Q b t') := by
  have hs := h s t hr
  unfold Runs at hq ⊢
  cases hm : m s with
  | error e =>
    cases hm' : m' t with
    | error e' =>
      rw [hm, hm'] at hs
      rw [hm'] at hq
      exact hs ▸ hq
    | ok q => rw [hm, hm'] at hs; exact False.elim hs
  | ok p =>
    cases hm' : m' t with
    | error e' => rw [hm, hm'] at hs; exact False.elim hs
    | ok q =>
      rw [hm, hm'] at hs
      rw [hm'] at hq
      exact ⟨q.1, q.2, hs.1, hs.2, hq⟩

/-- Whatever the second side ends in, the first side ends in the like. -/
theorem shadow {s : σ} {t : τ} (h : Lockstep R A m m') (hr : R s t) :
    Runs (fun _ => True) m' t (fun b t' => ∃ a s', m s = .ok (a, s') ∧ A a b ∧ R s' t') := by
  have hs := h s t hr
  unfold Runs
  cases hm' : m' t with
  | error e' => trivial
  | ok q =>
    cases hm : m s with
    | error e => rw [hm, hm'] at hs; exact False.elim hs
    | ok p => rw [hm, hm'] at hs; exact ⟨p.1, p.2, rfl, hs⟩

end Lockstep
