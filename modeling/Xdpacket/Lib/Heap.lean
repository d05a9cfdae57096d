import Mathlib.Logic.Function.Basic

/-- Objects by address; `none` is an address that holds no live object. -/
abbrev Heap (α : Type) := Nat → Option α

/-- Below `n`, every object that is live was live before, with the same key. -/
def Evolves (n : Nat) (key : α → β) (h h' : Heap α) : Prop :=
  ∀ a, a < n → ∀ o', h' a = some o' → ∃ o, h a = some o ∧ key o' = key o

/-- The same addresses are live, with the same keys. -/
def SameKeys (key : α → β) (h h' : Heap α) : Prop := ∀ a, (h' a).map key = (h a).map key

/-- No address from `n` on is live. -/
def FreshFrom (n : Nat) (h : Heap α) : Prop := ∀ a, n ≤ a → h a = none

/-- What is live after a change was put there or was there before. -/
theorem of_updated {h : Heap α} {a b : Nat} {op : Option α} {o : α}
    (ho : Function.update h a op b = some o) : b = a ∧ op = some o ∨ b ≠ a ∧ h b = some o := by
  by_cases hb : b = a
  · rw [hb, Function.update_self] at ho
    exact .inl ⟨hb, ho⟩
  · rw [Function.update_of_ne hb] at ho
    exact .inr ⟨hb, ho⟩

/-- What is left after a removal was there before. -/
theorem of_removed {h : Heap α} {a b : Nat} {o : α} (ho : Function.update h a none b = some o) :
    h b = some o := by
  rcases of_updated ho with ⟨-, hp⟩ | ⟨-, hb⟩
  · cases hp
  · exact hb

/-- What holds of every live object and of one that is put there. -/
theorem live_update {h : Heap α} {P : α → Prop} {a : Nat} {op : Option α}
    (hl : ∀ b o, h b = some o → P o) (hp : ∀ o, op = some o → P o) :
    ∀ b o, Function.update h a op b = some o → P o := by
  intro b o ho
  rcases of_updated ho with ⟨-, ho⟩ | ⟨-, ho⟩
  · exact hp o ho
  · exact hl b o ho

namespace FreshFrom

variable {α : Type} {n n' a : Nat} {h : Heap α} {o : α}

theorem below (hf : FreshFrom n h) (ho : h a = some o) : a < n := by
  rcases Nat.lt_or_ge a n with hlt | hge
  · exact hlt
  · rw [hf a hge] at ho
    cases ho

theorem mono (hf : FreshFrom n h) (hn : n ≤ n') : FreshFrom n' h :=
  fun a ha => hf a (Nat.le_trans hn ha)

theorem update (hf : FreshFrom n h) (ha : a < n) (op : Option α) :
    FreshFrom n (Function.update h a op) := by
  intro b hb
  rw [Function.update_of_ne (by omega)]
  exact hf b hb

end FreshFrom

namespace Evolves

variable {α β : Type} {n n' a : Nat} {key : α → β} {h h' h'' : Heap α} {o p : α}

theorem refl (n : Nat) (key : α → β) (h : Heap α) : Evolves n key h h :=
  fun _ _ o ho => ⟨o, ho, rfl⟩

theorem trans (he : Evolves n key h h') (hn : n ≤ n') (he' : Evolves n' key h' h'') :
    Evolves n key h h'' := by
  intro a ha o ho
  obtain ⟨p, hp, hk⟩ := he' a (Nat.lt_of_lt_of_le ha hn) o ho
  obtain ⟨q, hq, hk'⟩ := he a ha p hp
  exact ⟨q, hq, hk.trans hk'⟩

/-- Changing an object without changing its key. -/
theorem modify (ho : h a = some o) (hk : key p = key o) :
    Evolves n key h (Function.update h a (some p)) := by
  intro b _ q hq
  rcases of_updated hq with ⟨rfl, hp⟩ | ⟨-, hq⟩
  · cases hp
    exact ⟨o, ho, hk⟩
  · exact ⟨q, hq, rfl⟩

theorem remove : Evolves n key h (Function.update h a none) := by
  intro b _ q hq
  exact ⟨q, of_removed hq, rfl⟩

/-- Adding an object at an address not yet given out. -/
theorem add (ha : n ≤ a) (op : Option α) : Evolves n key h (Function.update h a op) := by
  intro b hb q hq
  rw [Function.update_of_ne (by omega)] at hq
  exact ⟨q, hq, rfl⟩

/-- What is live before and after has the same key. -/
theorem same (he : Evolves n key h h') (hf : FreshFrom n h) (ho : h a = some o)
    (hp : h' a = some p) : key p = key o := by
  obtain ⟨q, hq, hk⟩ := he a (hf.below ho) p hp
  rw [ho] at hq
  cases hq
  exact hk

end Evolves

namespace SameKeys

variable {α β : Type} {a : Nat} {key : α → β} {h h' h'' : Heap α} {o p : α}

theorem refl (key : α → β) (h : Heap α) : SameKeys key h h := fun _ => rfl

theorem trans (he : SameKeys key h h') (he' : SameKeys key h' h'') : SameKeys key h h'' :=
  fun a => (he' a).trans (he a)

theorem modify (ho : h a = some o) (hk : key p = key o) :
    SameKeys key h (Function.update h a (some p)) := by
  intro b
  by_cases hb : b = a
  · subst hb
    simp [ho, hk]
  · rw [Function.update_of_ne hb]

/-- An object that was live still is. -/
theorem live (he : SameKeys key h h') (ho : h a = some o) : ∃ p, h' a = some p ∧ key p = key o := by
  have ha := he a
  rw [ho] at ha
  cases hp : h' a with
  | none => rw [hp] at ha; cases ha
  | some p => rw [hp] at ha; exact ⟨p, rfl, Option.some.inj ha⟩

theorem evolves (he : SameKeys key h h') (n : Nat) : Evolves n key h h' := by
  intro a _ o ho
  have ha := he a
  rw [ho] at ha
  cases hb : h a with
  | none => rw [hb] at ha; cases ha
  | some p => rw [hb] at ha; exact ⟨p, rfl, Option.some.inj ha⟩

theorem isSome (he : SameKeys key h h') (a : Nat) : (h' a).isSome = (h a).isSome := by
  have := congrArg Option.isSome (he a)
  rwa [Option.isSome_map, Option.isSome_map] at this

/-- What depends on the key only is the same. -/
theorem congr {γ : Type} {f : Option α → γ} (he : SameKeys key h h')
    (hf : ∀ o p, key o = key p → f (some o) = f (some p)) (a : Nat) : f (h' a) = f (h a) := by
  cases ho : h a with
  | none =>
    have hnone := he a
    rw [ho] at hnone
    rw [Option.map_eq_none_iff.mp hnone]
  | some o =>
    obtain ⟨p, hp, hk⟩ := he.live ho
    rw [hp, hf p o hk]

/-- A heap is the same when its keys are and a measure that tells apart what the
key does not. -/
theorem eq_of_measure {measure : α → Nat} (he : SameKeys key h h')
    (hm : ∀ a, (h' a).elim 0 measure = (h a).elim 0 measure)
    (hinj : ∀ o p, key o = key p → measure o = measure p → o = p) : h' = h := by
  funext a
  have hka := he a
  have hma := hm a
  cases ho : h a with
  | none =>
    rw [ho] at hka
    exact Option.map_eq_none_iff.mp hka
  | some o =>
    obtain ⟨p, hp, hkp⟩ := he.live ho
    rw [ho, hp] at hma
    rw [hp, hinj p o hkp hma]

theorem fresh {n : Nat} (he : SameKeys key h h') (hf : FreshFrom n h) : FreshFrom n h' := by
  intro a ha
  have := he a
  rw [hf a ha] at this
  exact Option.map_eq_none_iff.mp this

end SameKeys
