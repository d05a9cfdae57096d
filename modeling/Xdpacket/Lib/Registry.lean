import Mathlib.Data.List.AList
import Xdpacket.Lib.Heap
import Mathlib.Algebra.BigOperators.Group.List.Basic
import Mathlib.Algebra.Ring.Nat

/-- Addresses by name. -/
abbrev NameStore (κ : Type) := AList (fun _ : κ => Nat)

namespace NameStore

variable {κ : Type} [DecidableEq κ] {s : NameStore κ} {n : κ} {a : Nat} {f g : Nat → Nat}

/-- The sum of `f` over every address the store holds. -/
def total (s : NameStore κ) (f : Nat → Nat) : Nat :=
  (s.entries.map (fun e => f e.2)).sum

theorem total_insert (h : AList.lookup n s = none) : total (s.insert n a) f = f a + total s f := by
  unfold total
  rw [AList.entries_insert_of_notMem (AList.lookup_eq_none.mp h)]
  simp

theorem total_erase (h : AList.lookup n s = some a) : total s f = f a + total (s.erase n) f := by
  have hm : n ∈ s.entries.keys := by
    apply AList.lookup_isSome.mp
    rw [h]
    rfl
  obtain ⟨b, l₁, l₂, hn, he, hk⟩ := List.exists_of_kerase hm
  have hb : b = a := by
    have hd : s.entries.dlookup n = some a := h
    rw [he, List.dlookup_append, List.dlookup_eq_none.mpr hn] at hd
    simpa using hd
  have hr : (AList.erase n s).entries = l₁ ++ l₂ := hk
  unfold total
  rw [hr, he, hb]
  simp only [List.map_append, List.map_cons, List.sum_append, List.sum_cons]
  omega

theorem lookup_of_mem {e : Sigma (fun _ : κ => Nat)} (h : e ∈ s.entries) :
    AList.lookup e.1 s = some e.2 :=
  List.mem_dlookup s.nodupKeys h

theorem total_congr (h : ∀ n a, AList.lookup n s = some a → f a = g a) : total s f = total s g := by
  unfold total
  congr 1
  apply List.map_congr_left
  intro e he
  exact h e.1 e.2 (lookup_of_mem he)

theorem le_total (h : AList.lookup n s = some a) : f a ≤ total s f := by
  rw [total_erase h]
  omega

end NameStore

/-- The store lists exactly the live objects that carry a name, each under its
own name. -/
def Registered [DecidableEq κ] (s : NameStore κ) (h : Heap α) (name : α → Option κ) : Prop :=
  ∀ n a, s.lookup n = some a ↔ ∃ o, h a = some o ∧ name o = some n

namespace Registered

variable {κ α : Type} [DecidableEq κ] {s : NameStore κ} {h : Heap α} {name : α → Option κ}
  {n : κ} {a b : Nat} {o p : α}

theorem empty : Registered (∅ : NameStore κ) (fun _ => (none : Option α)) name := by
  intro n a
  simp

theorem found (r : Registered s h name) (hl : s.lookup n = some a) :
    ∃ o, h a = some o ∧ name o = some n :=
  (r n a).mp hl

theorem listed (r : Registered s h name) (ho : h a = some o) (hn : name o = some n) :
    s.lookup n = some a :=
  (r n a).mpr ⟨o, ho, hn⟩

/-- Two names never lead to one object. -/
theorem found_ne {m : κ} (r : Registered s h name) (hl : s.lookup n = some a)
    (hm : s.lookup m = some b) (hne : m ≠ n) : b ≠ a := by
  intro he
  obtain ⟨o, ho, hn⟩ := r.found hl
  obtain ⟨p, hp, hn'⟩ := r.found hm
  rw [he, ho] at hp
  cases hp
  rw [hn] at hn'
  cases hn'
  exact hne rfl

/-- Two live objects never share a name. -/
theorem unique (r : Registered s h name) (ho : h a = some o) (hp : h b = some p)
    (hn : name o = some n) (hm : name p = some n) : a = b :=
  Option.some.inj ((r.listed ho hn).symm.trans (r.listed hp hm))

/-- Inserting a fresh object under a free name. -/
theorem publish (r : Registered s h name) (hf : h a = none) (hn : name o = some n)
    (hl : s.lookup n = none) : Registered (s.insert n a) (Function.update h a (some o)) name := by
  intro m b
  by_cases hb : b = a
  · subst hb
    by_cases hm : m = n
    · subst hm
      simp [hn]
    · have hne : s.lookup m ≠ some b := by
        intro hc
        obtain ⟨q, hq, _⟩ := r.found hc
        rw [hf] at hq
        cases hq
      simp [AList.lookup_insert_ne hm, hne, hn, Ne.symm hm]
  · by_cases hm : m = n
    · subst hm
      have hne : ¬ ∃ q, h b = some q ∧ name q = some m := by
        rintro ⟨q, hq, hqn⟩
        have hc := r.listed hq hqn
        rw [hl] at hc
        cases hc
      simp only [AList.lookup_insert, Option.some.injEq, Function.update_of_ne hb]
      exact ⟨fun hc => False.elim (hb hc.symm), fun hc => False.elim (hne hc)⟩
    · simp only [AList.lookup_insert_ne hm, Function.update_of_ne hb]
      exact r m b

/-- The registry only depends on the names of live objects. -/
theorem congr {h' : Heap α} {name' : α → Option κ} (r : Registered s h name)
    (hn : ∀ a, (h' a).bind name' = (h a).bind name) : Registered s h' name' := by
  have hb : ∀ (g : Heap α) (nm : α → Option κ) a n,
      (∃ o, g a = some o ∧ nm o = some n) ↔ (g a).bind nm = some n := by
    intro g nm a n
    rw [Option.bind_eq_some_iff]
  intro n a
  rw [hb, hn a, ← hb]
  exact r n a

/-- An object may give way to another of the same name, or to none where neither has one. -/
theorem replace {q : Option α} (r : Registered s h name) (hn : q.bind name = (h a).bind name) :
    Registered s (Function.update h a q) name := by
  apply r.congr
  intro b
  by_cases hb : b = a
  · subst hb
    simp [hn]
  · simp [Function.update_of_ne hb]

/-- A fresh object without a name needs no entry. -/
theorem anonymous (r : Registered s h name) (hf : h a = none) (hn : name o = none) :
    Registered s (Function.update h a (some o)) name :=
  r.replace (by simp [hf, hn])

/-- Removing an object together with its entry. -/
theorem unpublish (r : Registered s h name) (ho : h a = some o) (hn : name o = some n) :
    Registered (s.erase n) (Function.update h a none) name := by
  have hl := r.listed ho hn
  intro m b
  by_cases hm : m = n
  · subst hm
    simp only [AList.lookup_erase, reduceCtorEq, false_iff]
    rintro ⟨q, hq, hqn⟩
    by_cases hb : b = a
    · subst hb
      simp at hq
    · rw [Function.update_of_ne hb] at hq
      exact hb (r.unique hq ho hqn hn)
  · rw [AList.lookup_erase_ne hm]
    by_cases hb : b = a
    · subst hb
      simp only [Function.update_self, reduceCtorEq, false_and, exists_false, iff_false]
      intro hc
      obtain ⟨q, hq, hqn⟩ := r.found hc
      rw [ho, Option.some.injEq] at hq
      subst hq
      exact hm (Option.some.inj (hqn.symm.trans hn))
    · simp only [Function.update_of_ne hb]
      exact r m b

/-- Removing an object without a name. -/
theorem remove (r : Registered s h name) (ho : h a = some o) (hn : name o = none) :
    Registered s (Function.update h a none) name :=
  r.replace (by simp [ho, hn])

/-- Changing an object without changing its name. -/
theorem modify (r : Registered s h name) (ho : h a = some o) (hn : name p = name o) :
    Registered s (Function.update h a (some p)) name :=
  r.replace (by simp [ho, hn])

/-- The sum over a store grows by what a published object is worth. -/
theorem total_publish (r : Registered s h name) (hf : h a = none) (hl : s.lookup n = none)
    (worth : α → Nat) :
    NameStore.total (s.insert n a) (fun b => (Function.update h a (some o) b).elim 0 worth) =
      worth o + NameStore.total s (fun b => (h b).elim 0 worth) := by
  rw [NameStore.total_insert hl, Function.update_self, Option.elim_some]
  congr 1
  apply NameStore.total_congr
  intro m b hb
  obtain ⟨p, hp, _⟩ := r.found hb
  have hne : b ≠ a := by
    intro he
    rw [he, hf] at hp
    cases hp
  rw [Function.update_of_ne hne]

theorem total_unpublish (r : Registered s h name) (ho : h a = some o) (hn : name o = some n)
    (worth : α → Nat) :
    NameStore.total s (fun b => (h b).elim 0 worth) =
      worth o +
        NameStore.total (s.erase n) (fun b => (Function.update h a none b).elim 0 worth) := by
  have hl := r.listed ho hn
  rw [NameStore.total_erase hl, ho, Option.elim_some]
  congr 1
  apply NameStore.total_congr
  intro m b hb
  have hne : b ≠ a := by
    intro he
    obtain ⟨p, hp, _⟩ := (r.unpublish ho hn).found hb
    rw [he, Function.update_self] at hp
    cases hp
  rw [Function.update_of_ne hne]

/-- Changing an object to one of the same worth keeps the sum. -/
theorem total_modify (ho : h a = some o) (worth : α → Nat) (hw : worth p = worth o) :
    NameStore.total s (fun b => (Function.update h a (some p) b).elim 0 worth) =
      NameStore.total s (fun b => (h b).elim 0 worth) := by
  apply NameStore.total_congr
  intro m b _
  by_cases hb : b = a
  · subst hb
    simp [ho, hw]
  · rw [Function.update_of_ne hb]

end Registered
