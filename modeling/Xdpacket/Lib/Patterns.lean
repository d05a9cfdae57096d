import Mathlib.Computability.RegularExpressions
import Mathlib.Data.Bool.AllAny

namespace RegularExpression

variable {α : Type}

/-- `[abc]` -/
def oneOf (symbols : List α) : RegularExpression α :=
  symbols.foldr (fun a r => char a + r) 0

/-- `r?` -/
def opt (r : RegularExpression α) : RegularExpression α := 1 + r

/-- `r+` -/
def many1 (r : RegularExpression α) : RegularExpression α := r * r.star

/-- `r{m,m+n}` -/
def between (r : RegularExpression α) (m n : Nat) : RegularExpression α := r ^ m * opt r ^ n

section Matches

variable {r s : RegularExpression α} {as xs : List α}

theorem matches_mul :
    xs ∈ (r * s).matches' ↔ ∃ ys ∈ r.matches', ∃ zs ∈ s.matches', ys ++ zs = xs := by
  rw [matches'_mul, Language.mem_mul]

theorem matches_add : xs ∈ (r + s).matches' ↔ xs ∈ r.matches' ∨ xs ∈ s.matches' := by
  rw [matches'_add, Language.mem_add]

theorem matches_char {a : α} : xs ∈ (char a).matches' ↔ xs = [a] := by
  rw [matches'_char]
  rfl

theorem matches_oneOf : xs ∈ (oneOf as).matches' ↔ ∃ a ∈ as, xs = [a] := by
  induction as with
  | nil => simp [oneOf]
  | cons a as ih =>
    have hcons : oneOf (a :: as) = char a + oneOf as := rfl
    rw [hcons, matches_add, matches_char, ih]
    simp

theorem matches_opt : xs ∈ (opt r).matches' ↔ xs = [] ∨ xs ∈ r.matches' := by
  rw [opt, matches_add, matches'_epsilon, Language.mem_one]

theorem matches_pow_zero : xs ∈ (r ^ 0).matches' ↔ xs = [] := by
  rw [matches'_pow, pow_zero, Language.mem_one]

theorem matches_pow_succ {n : Nat} :
    xs ∈ (r ^ (n + 1)).matches' ↔ ∃ ys ∈ r.matches', ∃ zs ∈ (r ^ n).matches', ys ++ zs = xs := by
  rw [matches'_pow, pow_succ', Language.mem_mul, matches'_pow]

theorem matches_pow_add {m n : Nat} : xs ∈ (r ^ (m + n)).matches' ↔
    ∃ ys ∈ (r ^ m).matches', ∃ zs ∈ (r ^ n).matches', ys ++ zs = xs := by
  rw [matches'_pow, pow_add, Language.mem_mul, matches'_pow, matches'_pow]

theorem matches_star_oneOf : xs ∈ (oneOf as).star.matches' ↔ ∀ x ∈ xs, x ∈ as := by
  rw [matches'_star, Language.mem_kstar]
  constructor
  · intro ⟨words, hx, hw⟩ x hm
    rw [hx] at hm
    obtain ⟨word, hword, hm⟩ := List.mem_flatten.mp hm
    obtain ⟨a, ha, rfl⟩ := matches_oneOf.mp (hw word hword)
    rw [List.mem_singleton] at hm
    rwa [hm]
  · intro h
    refine ⟨xs.map (fun x => [x]), by simp [← List.flatMap_def], ?_⟩
    intro word hm
    obtain ⟨x, hx, rfl⟩ := List.mem_map.mp hm
    exact matches_oneOf.mpr ⟨x, h x hx, rfl⟩

theorem matches_many1_oneOf :
    xs ∈ (many1 (oneOf as)).matches' ↔ xs ≠ [] ∧ ∀ x ∈ xs, x ∈ as := by
  rw [many1, matches_mul]
  constructor
  · intro ⟨ys, hy, zs, hz, hx⟩
    obtain ⟨a, ha, rfl⟩ := matches_oneOf.mp hy
    subst hx
    simpa [ha] using matches_star_oneOf.mp hz
  · intro ⟨hne, hall⟩
    cases xs with
    | nil => exact absurd rfl hne
    | cons x xs =>
      exact ⟨[x], matches_oneOf.mpr ⟨x, hall x (by simp), rfl⟩, xs,
        matches_star_oneOf.mpr (fun y hy => hall y (by simp [hy])), rfl⟩

theorem matches_pow_oneOf {n : Nat} :
    xs ∈ (oneOf as ^ n).matches' ↔ xs.length = n ∧ ∀ x ∈ xs, x ∈ as := by
  induction n generalizing xs with
  | zero =>
    rw [matches_pow_zero]
    constructor
    · intro h
      simp [h]
    · intro h
      exact List.length_eq_zero_iff.mp h.1
  | succ n ih =>
    rw [matches_pow_succ]
    constructor
    · intro ⟨ys, hy, zs, hz, hx⟩
      obtain ⟨a, ha, rfl⟩ := matches_oneOf.mp hy
      obtain ⟨hlen, hall⟩ := ih.mp hz
      subst hx
      simpa [ha, hlen] using hall
    · intro ⟨hlen, hall⟩
      cases xs with
      | nil => cases hlen
      | cons x xs =>
        exact ⟨[x], matches_oneOf.mpr ⟨x, hall x (by simp), rfl⟩, xs,
          ih.mpr ⟨by simpa using hlen, fun y hy => hall y (by simp [hy])⟩, rfl⟩

/-- Optional repetitions are some number of repetitions. -/
theorem matches_opt_pow {n : Nat} :
    xs ∈ (opt r ^ n).matches' ↔ ∃ k ≤ n, xs ∈ (r ^ k).matches' := by
  induction n generalizing xs with
  | zero =>
    rw [matches_pow_zero]
    constructor
    · intro h
      exact ⟨0, Nat.le_refl _, matches_pow_zero.mpr h⟩
    · intro ⟨k, hk, h⟩
      obtain rfl : k = 0 := by omega
      exact matches_pow_zero.mp h
  | succ n ih =>
    rw [matches_pow_succ]
    constructor
    · intro ⟨ys, hy, zs, hz, hx⟩
      obtain ⟨k, hk, hz⟩ := ih.mp hz
      rcases matches_opt.mp hy with rfl | hy
      · exact ⟨k, by omega, hx ▸ hz⟩
      · exact ⟨k + 1, by omega, matches_pow_succ.mpr ⟨ys, hy, zs, hz, hx⟩⟩
    · intro ⟨k, hk, h⟩
      by_cases hkn : k ≤ n
      · exact ⟨[], matches_opt.mpr (.inl rfl), xs, ih.mpr ⟨k, hkn, h⟩, rfl⟩
      · obtain rfl : k = n + 1 := by omega
        obtain ⟨ys, hy, zs, hz, hx⟩ := matches_pow_succ.mp h
        exact ⟨ys, matches_opt.mpr (.inr hy), zs, ih.mpr ⟨n, Nat.le_refl _, hz⟩, hx⟩

theorem matches_between {m n : Nat} :
    xs ∈ (between r m n).matches' ↔ ∃ k, m ≤ k ∧ k ≤ m + n ∧ xs ∈ (r ^ k).matches' := by
  rw [between, matches_mul]
  constructor
  · intro ⟨ys, hy, zs, hz, hx⟩
    obtain ⟨k, hk, hz⟩ := matches_opt_pow.mp hz
    exact ⟨m + k, by omega, by omega, matches_pow_add.mpr ⟨ys, hy, zs, hz, hx⟩⟩
  · intro ⟨k, hm, hk, h⟩
    rw [show k = m + (k - m) by omega] at h
    obtain ⟨ys, hy, zs, hz, hx⟩ := matches_pow_add.mp h
    exact ⟨ys, hy, zs, matches_opt_pow.mpr ⟨k - m, by omega, hz⟩, hx⟩

theorem matches_between_oneOf {m n : Nat} : xs ∈ (between (oneOf as) m n).matches' ↔
    m ≤ xs.length ∧ xs.length ≤ m + n ∧ ∀ x ∈ xs, x ∈ as := by
  rw [matches_between]
  constructor
  · intro ⟨k, hm, hk, h⟩
    obtain ⟨hlen, hall⟩ := matches_pow_oneOf.mp h
    exact ⟨by omega, by omega, hall⟩
  · intro ⟨hm, hk, hall⟩
    exact ⟨xs.length, hm, hk, matches_pow_oneOf.mpr ⟨rfl, hall⟩⟩

end Matches

/-- Every match is made of symbols with `p`. -/
def Over (p : α → Prop) (r : RegularExpression α) : Prop := ∀ xs ∈ r.matches', ∀ x ∈ xs, p x

namespace Over

variable {p : α → Prop} {r s : RegularExpression α} {as : List α}

theorem char {a : α} (h : p a) : Over p (char a) := by
  intro xs hx x hm
  rw [matches_char.mp hx, List.mem_singleton] at hm
  rwa [hm]

theorem oneOf [DecidablePred p] (h : as.all (fun a => p a)) : Over p (oneOf as) := by
  intro xs hx x hm
  obtain ⟨a, ha, rfl⟩ := matches_oneOf.mp hx
  rw [List.mem_singleton.mp hm]
  exact List.all_iff_forall_prop.mp h a ha

theorem add (hr : Over p r) (hs : Over p s) : Over p (r + s) := by
  intro xs hx
  rcases matches_add.mp hx with hx | hx
  · exact hr xs hx
  · exact hs xs hx

theorem mul (hr : Over p r) (hs : Over p s) : Over p (r * s) := by
  intro xs hx x hm
  obtain ⟨ys, hy, zs, hz, rfl⟩ := matches_mul.mp hx
  rcases List.mem_append.mp hm with hm | hm
  · exact hr ys hy x hm
  · exact hs zs hz x hm

theorem pow {n : Nat} (h : Over p r) : Over p (r ^ n) := by
  induction n with
  | zero =>
    intro xs hx
    rw [matches_pow_zero.mp hx]
    simp
  | succ n ih =>
    intro xs hx x hm
    obtain ⟨ys, hy, zs, hz, rfl⟩ := matches_pow_succ.mp hx
    rcases List.mem_append.mp hm with hm | hm
    · exact h ys hy x hm
    · exact ih zs hz x hm

theorem opt (hr : Over p r) : Over p (opt r) := by
  intro xs hx
  rcases matches_opt.mp hx with rfl | hx
  · simp
  · exact hr xs hx

theorem between {m n : Nat} (h : Over p r) : Over p (between r m n) := h.pow.mul h.opt.pow

theorem star_oneOf [DecidablePred p] (h : as.all (fun a => p a)) :
    Over p (RegularExpression.oneOf as).star :=
  fun _ hx x hm => List.all_iff_forall_prop.mp h x (matches_star_oneOf.mp hx x hm)

theorem many1_oneOf [DecidablePred p] (h : as.all (fun a => p a)) :
    Over p (many1 (RegularExpression.oneOf as)) :=
  mul (oneOf h) (star_oneOf h)

end Over

/-- Every match contains `a`. -/
def Has (a : α) (r : RegularExpression α) : Prop := ∀ xs ∈ r.matches', a ∈ xs

namespace Has

variable {a : α} {r s : RegularExpression α}

theorem char : Has a (char a) := by
  intro xs hx
  rw [matches_char.mp hx]
  exact List.mem_singleton_self a

theorem add (hr : Has a r) (hs : Has a s) : Has a (r + s) := by
  intro xs hx
  rcases matches_add.mp hx with hx | hx
  · exact hr xs hx
  · exact hs xs hx

theorem left (h : Has a r) : Has a (r * s) := by
  intro xs hx
  obtain ⟨ys, hy, zs, _, rfl⟩ := matches_mul.mp hx
  exact List.mem_append_left _ (h ys hy)

theorem right (h : Has a s) : Has a (r * s) := by
  intro xs hx
  obtain ⟨ys, _, zs, hz, rfl⟩ := matches_mul.mp hx
  exact List.mem_append_right _ (h zs hz)

theorem pow {n : Nat} (h : Has a r) : Has a (r ^ (n + 1)) := by
  intro xs hx
  obtain ⟨ys, hy, zs, _, rfl⟩ := matches_pow_succ.mp hx
  exact List.mem_append_left _ (h ys hy)

theorem between {m n : Nat} (h : Has a r) : Has a (between r (m + 1) n) := by
  intro xs hx
  obtain ⟨k, hk, -, hx⟩ := matches_between.mp hx
  obtain ⟨j, rfl⟩ : ∃ j, k = j + 1 := ⟨k - 1, by omega⟩
  exact h.pow xs hx

end Has

end RegularExpression
