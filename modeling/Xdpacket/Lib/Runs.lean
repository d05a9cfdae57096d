import Mathlib.Data.Multiset.Count
import Mathlib.Order.Defs.Unbundled

/-- From `s` the program ends in a result and a state that `Q` accepts, or in
a fault that `E` accepts. -/
def Runs (E : ε → Prop) (m : StateT σ (Except ε) α) (s : σ) (Q : α → σ → Prop) : Prop :=
  match m s with
  | .ok (a, t) => Q a t
  | .error e => E e

namespace Runs

variable {σ ε α β : Type} {E E' : ε → Prop} {m : StateT σ (Except ε) α}
  {k : α → StateT σ (Except ε) β} {s t : σ}

@[simp] theorem pure_iff {a : α} {Q : α → σ → Prop} :
    Runs E (pure a : StateT σ (Except ε) α) s Q ↔ Q a s :=
  Iff.rfl

@[simp] theorem bind_iff {Q : β → σ → Prop} :
    Runs E (m >>= k) s Q ↔ Runs E m s (fun a t => Runs E (k a) t Q) := by
  have hb : (m >>= k) s = (m s).bind (fun p => k p.1 p.2) := rfl
  unfold Runs
  rw [hb]
  cases m s <;> rfl

@[simp] theorem map_iff {f : α → β} {Q : β → σ → Prop} :
    Runs E (f <$> m) s Q ↔ Runs E m s (fun a t => Q (f a) t) := by
  rw [← bind_pure_comp, bind_iff]
  rfl

@[simp] theorem get_iff {Q : σ → σ → Prop} :
    Runs E (get : StateT σ (Except ε) σ) s Q ↔ Q s s :=
  Iff.rfl

@[simp] theorem set_iff {Q : PUnit → σ → Prop} :
    Runs E (set t : StateT σ (Except ε) PUnit) s Q ↔ Q ⟨⟩ t :=
  Iff.rfl

@[simp] theorem modify_iff {f : σ → σ} {Q : PUnit → σ → Prop} :
    Runs E (modify f : StateT σ (Except ε) PUnit) s Q ↔ Q ⟨⟩ (f s) :=
  Iff.rfl

@[simp] theorem modifyGet_iff {f : σ → α × σ} {Q : α → σ → Prop} :
    Runs E (modifyGet f : StateT σ (Except ε) α) s Q ↔ Q (f s).1 (f s).2 :=
  Iff.rfl

@[simp] theorem throw_iff {e : ε} {Q : α → σ → Prop} :
    Runs E (throw e : StateT σ (Except ε) α) s Q ↔ E e :=
  Iff.rfl

/-- The rule of consequence. -/
theorem mono {Q Q' : α → σ → Prop} (h : Runs E m s Q) (he : ∀ e, E e → E' e)
    (hq : ∀ a t, Q a t → Q' a t) : Runs E' m s Q' := by
  unfold Runs at h ⊢
  cases hm : m s with
  | error e => rw [hm] at h; exact he e h
  | ok p => rw [hm] at h; exact hq p.1 p.2 h

theorem imp {Q Q' : α → σ → Prop} (h : Runs E m s Q) (hq : ∀ a t, Q a t → Q' a t) :
    Runs E m s Q' :=
  h.mono (fun _ he => he) hq

/-- The sequencing rule, with the middle assertion supplied by a
specification of the first program. -/
theorem bind {R : α → σ → Prop} {Q : β → σ → Prop} (h : Runs E m s R)
    (hk : ∀ a t, R a t → Runs E (k a) t Q) : Runs E (m >>= k) s Q :=
  bind_iff.mpr (h.imp hk)

/-- Two specifications of one run; the first one speaks of its faults. -/
theorem and {Q R : α → σ → Prop} (hq : Runs E m s Q) (hr : Runs E' m s R) :
    Runs E m s (fun a t => Q a t ∧ R a t) := by
  unfold Runs at hq hr ⊢
  cases hm : m s with
  | error e => rw [hm] at hq; exact hq
  | ok p => rw [hm] at hq hr; exact ⟨hq, hr⟩

/-- What a specification says of a run that ended normally. -/
theorem ok {Q : α → σ → Prop} (h : Runs E m s Q) {a : α} (hm : m s = .ok (a, t)) : Q a t := by
  unfold Runs at h
  rw [hm] at h
  exact h

/-- What a specification says of a run that ended in a fault. -/
theorem fault {Q : α → σ → Prop} (h : Runs E m s Q) {e : ε} (hm : m s = .error e) : E e := by
  unfold Runs at h
  rw [hm] at h
  exact h

/-- A run without faults has an outcome. -/
theorem exists_ok {Q : α → σ → Prop} (h : Runs (fun _ => False) m s Q) :
    ∃ a t, m s = .ok (a, t) ∧ Q a t := by
  unfold Runs at h
  cases hm : m s with
  | error e => rw [hm] at h; exact h.elim
  | ok p => rw [hm] at h; exact ⟨p.1, p.2, rfl, h⟩

/-- Two specifications of one run that no fault meets. -/
theorem ends {Q R : α → σ → Prop} (hq : Runs E m s Q) (hr : Runs E' m s R)
    (h : ∀ e, E e → ¬ E' e) : ∃ a t, m s = .ok (a, t) ∧ Q a t ∧ R a t := by
  unfold Runs at hq hr
  cases hm : m s with
  | error e =>
    rw [hm] at hq hr
    exact absurd hr (h e hq)
  | ok p =>
    rw [hm] at hq hr
    exact ⟨p.1, p.2, rfl, hq, hr⟩

/-- What a run ends in is its outcome. -/
theorem outcome {Q : α → σ → Prop} (h : Runs E m s Q) :
    Runs E m s (fun a t => Q a t ∧ m s = .ok (a, t)) := by
  unfold Runs at h ⊢
  cases hm : m s with
  | error e => rw [hm] at h; exact h
  | ok p => rw [hm] at h; exact ⟨h, rfl⟩

theorem any : Runs (fun _ => True) m s (fun _ _ => True) := by
  unfold Runs
  split <;> trivial

/-- A specification of one run can be tested. -/
instance decidable {Q : α → σ → Prop} [∀ e, Decidable (E e)] [∀ a t, Decidable (Q a t)] :
    Decidable (Runs E m s Q) :=
  match hm : m s with
  | .ok (a, t) => decidable_of_iff (Q a t) (by unfold Runs; rw [hm])
  | .error e => decidable_of_iff (E e) (by unfold Runs; rw [hm])

/-- A specification read off a known outcome. -/
theorem of_ok {Q : α → σ → Prop} {a : α} (hm : m s = .ok (a, t)) (h : Q a t) : Runs E m s Q := by
  unfold Runs
  rw [hm]
  exact h

/-- A sequence whose first part has a known outcome. -/
theorem bind_ok_iff {a : α} {Q : β → σ → Prop} (hm : m s = .ok (a, t)) :
    Runs E (m >>= k) s Q ↔ Runs E (k a) t Q := by
  rw [bind_iff]
  constructor
  · intro h
    exact h.ok hm
  · intro h
    exact of_ok hm h

theorem bind_of_ok {a : α} {Q : β → σ → Prop} (hm : m s = .ok (a, t)) (h : Runs E (k a) t Q) :
    Runs E (m >>= k) s Q :=
  (bind_ok_iff hm).mpr h

/-- Two programs that come to the same meet the same specifications. -/
theorem of_run_eq {m' : StateT σ (Except ε) α} {Q : α → σ → Prop} (hm : m s = m' t) :
    Runs E m s Q ↔ Runs E m' t Q := by
  unfold Runs
  rw [hm]

end Runs

/-- A specification that also says how the last state relates to the first. -/
def Frames (E : ε → Prop) (S : σ → σ → Prop) (m : StateT σ (Except ε) α) (s : σ)
    (Q : α → σ → Prop) : Prop :=
  Runs E m s (fun a t => S s t ∧ Q a t)

namespace Frames

variable {σ ε α β : Type} {E : ε → Prop} {S S' : σ → σ → Prop} {m : StateT σ (Except ε) α}
  {k : α → StateT σ (Except ε) β} {s t : σ} {Q : α → σ → Prop}

/-- The frames of the parts of a sequence compose. -/
theorem bind_frame [ht : IsTrans σ S] {R : β → σ → Prop} (h : Frames E S m s Q)
    (hk : ∀ a t, S s t → Q a t → Frames E S (k a) t R) : Frames E S (m >>= k) s R := by
  refine Runs.bind h ?_
  intro a t hq
  refine (hk a t hq.1 hq.2).imp ?_
  intro b u hr
  exact ⟨ht.trans _ _ _ hq.1 hr.1, hr.2⟩

theorem bind [IsTrans σ S] {R : β → σ → Prop} (h : Frames E S m s Q)
    (hk : ∀ a t, Q a t → Frames E S (k a) t R) : Frames E S (m >>= k) s R :=
  h.bind_frame (fun a t _ hq => hk a t hq)

theorem get_bind {l : σ → StateT σ (Except ε) α} :
    Frames E S (get >>= l) s Q ↔ Frames E S (l s) s Q := by
  unfold Frames
  rw [Runs.bind_iff, Runs.get_iff]

theorem imp {Q' : α → σ → Prop} (h : Frames E S m s Q) (hq : ∀ a t, Q a t → Q' a t) :
    Frames E S m s Q' :=
  Runs.imp h (fun a t hsq => ⟨hsq.1, hq a t hsq.2⟩)

/-- What a specification promises, together with the run itself. -/
theorem outcome (h : Frames E S m s Q) : Frames E S m s (fun a t => Q a t ∧ m s = .ok (a, t)) := by
  unfold Frames Runs at h ⊢
  cases hm : m s with
  | error e => rw [hm] at h; exact h
  | ok p => rw [hm] at h; exact ⟨h.1, h.2, rfl⟩

/-- A wider frame relation. -/
theorem weaken (h : Frames E S m s Q) (hs : ∀ t, S s t → S' s t) : Frames E S' m s Q :=
  Runs.imp h (fun _ t hsq => ⟨hs t hsq.1, hsq.2⟩)

end Frames

/-- From `s` the program ends normally exactly under `P`, and then in `Q`;
otherwise it ends in a bad fault. -/
def Needs (bad : ε → Prop) (P : Prop) (m : StateT σ (Except ε) α) (s : σ) (Q : α → σ → Prop) :
    Prop :=
  Runs (fun e => bad e ∧ ¬ P) m s (fun a t => P ∧ Q a t)

namespace Needs

variable {σ ε α β : Type} {bad : ε → Prop} {A B P : Prop} {m : StateT σ (Except ε) α}
  {k : α → StateT σ (Except ε) β} {s t : σ} {Q : α → σ → Prop}

theorem pure {a : α} (hp : P) (h : Q a s) : Needs bad P (Pure.pure a : StateT σ (Except ε) α) s Q :=
  ⟨hp, h⟩

theorem get_bind {l : σ → StateT σ (Except ε) α} :
    Needs bad P (get >>= l) s Q ↔ Needs bad P (l s) s Q := by
  unfold Needs
  rw [Runs.bind_iff, Runs.get_iff]

theorem congr (h : Needs bad A m s Q) (hp : A ↔ P) : Needs bad P m s Q := by
  rw [propext hp] at h
  exact h

theorem imp {Q' : α → σ → Prop} (h : Needs bad P m s Q) (hq : ∀ a t, P → Q a t → Q' a t) :
    Needs bad P m s Q' :=
  Runs.imp h (fun a t hpq => ⟨hpq.1, hq a t hpq.1 hpq.2⟩)

/-- A sequence needs what its parts need. -/
theorem bind {R : β → σ → Prop} (h : Needs bad A m s Q)
    (hk : ∀ a t, A → Q a t → Needs bad B (k a) t R) (hp : A ∧ B ↔ P) :
    Needs bad P (m >>= k) s R := by
  refine Runs.bind (Runs.mono h (fun e he => ⟨he.1, fun h => he.2 (hp.mpr h).1⟩)
    (fun _ _ hq => hq)) ?_
  rintro a t ⟨ha, hq⟩
  exact (hk a t ha hq).mono (fun e he => ⟨he.1, fun h => he.2 (hp.mpr h).2⟩)
    (fun _ _ hr => ⟨hp.mp ⟨ha, hr.1⟩, hr.2⟩)

/-- A first part whose needs are met asks for nothing. -/
theorem bind_met {R : β → σ → Prop} (h : Needs bad A m s Q) (ha : A)
    (hk : ∀ a t, Q a t → Needs bad P (k a) t R) : Needs bad P (m >>= k) s R :=
  h.bind (fun a t _ hq => hk a t hq) (and_iff_right ha)

/-- A last step that only answers needs nothing more. -/
theorem bind_pure {f : α → β} {R : β → σ → Prop} (h : Needs bad P m s Q)
    (hq : ∀ a t, P → Q a t → R (f a) t) :
    Needs bad P (m >>= fun a => Pure.pure (f a)) s R :=
  h.bind (fun a t hp hqa => Needs.pure trivial (hq a t hp hqa)) (and_iff_left trivial)

theorem runs (h : Needs bad P m s Q) (hp : P) : Runs (fun _ => False) m s Q :=
  h.mono (fun _ he => he.2 hp) (fun _ _ hq => hq.2)

/-- No bad fault happens exactly under `P`. -/
theorem not_bad_iff (h : Needs bad P m s Q) : Runs (fun e => ¬ bad e) m s (fun _ _ => True) ↔ P := by
  unfold Needs Runs at h
  unfold Runs
  cases hm : m s with
  | error e =>
    rw [hm] at h
    exact ⟨fun hn => False.elim (hn h.1), fun hp => False.elim (h.2 hp)⟩
  | ok p =>
    rw [hm] at h
    exact ⟨fun _ => h.1, fun _ => trivial⟩

end Needs

/-- From `s` the program ends normally only under `P`, and then in `Q`; a bad fault
happens only where `P` fails. Other faults may always happen. -/
def Asks (other bad : ε → Prop) (P : Prop) (m : StateT σ (Except ε) α) (s : σ)
    (Q : α → σ → Prop) : Prop :=
  Runs (fun e => other e ∨ bad e ∧ ¬ P) m s (fun a t => P ∧ Q a t)

namespace Asks

variable {σ ε α β : Type} {other bad : ε → Prop} {A B P : Prop} {m : StateT σ (Except ε) α}
  {k : α → StateT σ (Except ε) β} {s t : σ} {Q : α → σ → Prop}

/-- A program without bad faults asks for nothing. -/
theorem of_runs (h : Runs other m s Q) (hp : P) : Asks other bad P m s Q :=
  h.mono (fun _ he => .inl he) (fun _ _ hq => ⟨hp, hq⟩)

theorem pure {a : α} (hp : P) (h : Q a s) :
    Asks other bad P (Pure.pure a : StateT σ (Except ε) α) s Q :=
  ⟨hp, h⟩

theorem throw {e : ε} (hb : bad e) (hp : ¬ P) :
    Asks other bad P (MonadExcept.throw e : StateT σ (Except ε) α) s Q :=
  .inr ⟨hb, hp⟩

theorem imp {Q' : α → σ → Prop} (h : Asks other bad P m s Q) (hq : ∀ a t, Q a t → Q' a t) :
    Asks other bad P m s Q' :=
  Runs.imp h (fun a t hpq => ⟨hpq.1, hq a t hpq.2⟩)

/-- What a sequence asks for: what its first part does, and what its second part does
after any answer that the first may give. -/
theorem bind {R : β → σ → Prop} (h : Asks other bad A m s Q) (ha : P → A)
    (hk : ∀ a t, A → Q a t → Asks other bad P (k a) t R) : Asks other bad P (m >>= k) s R := by
  refine Runs.bind (Runs.mono h (fun e he => he.imp_right (fun hb => ⟨hb.1, fun hp => hb.2 (ha hp)⟩))
    (fun _ _ hq => hq)) ?_
  intro a t hq
  exact hk a t hq.1 hq.2

theorem met (h : Asks other bad P m s Q) (hp : P) : Runs other m s Q :=
  h.mono (fun _ he => he.resolve_right (fun hb => hb.2 hp)) (fun _ _ hq => hq.2)

/-- Where no other fault happens, a run without a bad fault shows that `P` holds. -/
theorem needed (h : Asks (fun _ => False) bad P m s Q)
    (hn : Runs (fun e => ¬ bad e) m s (fun _ _ => True)) : P := by
  unfold Asks Runs at h
  unfold Runs at hn
  cases hm : m s with
  | error e =>
    rw [hm] at h hn
    exact absurd (h.resolve_left id).1 hn
  | ok p =>
    rw [hm] at h
    exact h.1

end Asks

/-- The program keeps `I`, and what it answers is in `Q`; it may end in a fault of `E`. -/
def Keeps (E : ε → Prop) (I : σ → Prop) (m : StateT σ (Except ε) α) (Q : α → Prop) : Prop :=
  ∀ s, I s → Runs E m s (fun a t => I t ∧ Q a)

namespace Keeps

variable {σ ε α β : Type} {E : ε → Prop} {I : σ → Prop} {m : StateT σ (Except ε) α}
  {k : α → StateT σ (Except ε) β} {Q : α → Prop} {R : β → Prop}

theorem pure {a : α} (h : Q a) : Keeps E I (Pure.pure a : StateT σ (Except ε) α) Q :=
  fun _ hs => ⟨hs, h⟩

theorem throw {e : ε} (h : E e) : Keeps E I (MonadExcept.throw e : StateT σ (Except ε) α) Q :=
  fun _ _ => h

theorem modify {f : σ → σ} (h : ∀ s, I s → I (f s)) :
    Keeps E I (modify f : StateT σ (Except ε) PUnit) (fun _ => True) :=
  fun s hs => ⟨h s hs, trivial⟩

theorem modifyGet {f : σ → α × σ} (h : ∀ s, I s → I (f s).2) :
    Keeps E I (modifyGet f : StateT σ (Except ε) α) (fun _ => True) :=
  fun s hs => ⟨h s hs, trivial⟩

theorem bind (h : Keeps E I m Q) (hk : ∀ a, Q a → Keeps E I (k a) R) : Keeps E I (m >>= k) R := by
  intro s hs
  refine (h s hs).bind ?_
  intro a t ha
  exact hk a ha.2 t ha.1

theorem imp {Q' : α → Prop} (h : Keeps E I m Q) (hq : ∀ a, Q a → Q' a) : Keeps E I m Q' :=
  fun s hs => (h s hs).imp (fun a _ ha => ⟨ha.1, hq a ha.2⟩)

/-- What is kept from here on follows from what is kept and answered. -/
theorem runs (h : Keeps E I m Q) {s : σ} (hs : I s) : Runs E m s (fun _ t => I t) :=
  (h s hs).imp (fun _ _ ha => ha.1)

end Keeps

/-- From every state the program ends in one that `S` relates to it, or in a fault of `E`. -/
class Within (E : ε → Prop) (S : σ → σ → Prop) (m : StateT σ (Except ε) α) : Prop where
  runs : ∀ s, Runs E m s (fun _ t => S s t)

namespace Within

variable {σ ε α β : Type} {E : ε → Prop} {S S' : σ → σ → Prop} {m m' : StateT σ (Except ε) α}
  {k : α → StateT σ (Except ε) β}

theorem weaken (h : Within E S m) (hs : ∀ s t, S s t → S' s t) : Within E S' m :=
  ⟨fun s => (h.runs s).imp (fun _ _ ht => hs _ _ ht)⟩

theorem step [ht : IsTrans σ S] [hm : Within E S m] (h : ∀ a, Within E S (k a)) :
    Within E S (m >>= k) := by
  refine ⟨fun s => (hm.runs s).bind ?_⟩
  intro a t hst
  exact ((h a).runs t).imp (fun _ _ hu => ht.trans _ _ _ hst hu)

instance bind [IsTrans σ S] [Within E S m] [h : ∀ a, Within E S (k a)] : Within E S (m >>= k) :=
  step h

instance pure [hr : Std.Refl S] {a : α} : Within E S (Pure.pure a : StateT σ (Except ε) α) :=
  ⟨fun s => hr.refl s⟩

instance get [hr : Std.Refl S] : Within E S (MonadState.get : StateT σ (Except ε) σ) :=
  ⟨fun s => hr.refl s⟩

instance throw {e : ε} : Within (fun _ => True) S (MonadExcept.throw e : StateT σ (Except ε) α) :=
  ⟨fun _ => trivial⟩

instance ite {c : Prop} [Decidable c] [h : Within E S m] [h' : Within E S m'] :
    Within E S (if c then m else m') := by
  split
  · exact h
  · exact h'

end Within

section Outcomes

variable {σ ε α β : Type} {m : StateT σ (Except ε) α} {k : α → StateT σ (Except ε) β} {s t : σ}

theorem bind_run {a : α} (hm : m s = .ok (a, t)) : (m >>= k) s = k a t := by
  change (m s).bind _ = _
  rw [hm]
  rfl

/-- A sequence ends normally when both of its parts do. -/
theorem bind_eq_ok {b : β} :
    (m >>= k) s = .ok (b, t) ↔ ∃ a u, m s = .ok (a, u) ∧ k a u = .ok (b, t) := by
  have hb : (m >>= k) s = (m s).bind (fun p => k p.1 p.2) := rfl
  rw [hb]
  cases m s with
  | error e => simp [Except.bind]
  | ok p =>
    obtain ⟨a, u⟩ := p
    simp [Except.bind]

theorem pure_eq_ok {a b : α} :
    (pure a : StateT σ (Except ε) α) s = .ok (b, t) ↔ b = a ∧ t = s := by
  have hp : (pure a : StateT σ (Except ε) α) s = .ok (a, s) := rfl
  rw [hp]
  simp only [Except.ok.injEq, Prod.mk.injEq]
  constructor <;> rintro ⟨rfl, rfl⟩ <;> exact ⟨rfl, rfl⟩

/-- The program only looks at its state. -/
def Looks (m : StateT σ (Except ε) α) : Prop := ∀ s a t, m s = .ok (a, t) → t = s

theorem Looks.pure (a : α) : Looks (Pure.pure a : StateT σ (Except ε) α) :=
  fun _ _ _ h => (pure_eq_ok.mp h).2

theorem Looks.bind (hm : Looks m) (hk : ∀ a, Looks (k a)) : Looks (m >>= k) := by
  intro s b t h
  obtain ⟨a, u, hu, ht⟩ := bind_eq_ok.mp h
  exact (hk a u b t ht).trans (hm s a u hu)

end Outcomes
