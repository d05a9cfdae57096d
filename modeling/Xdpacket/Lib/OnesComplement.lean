import Mathlib.Algebra.BigOperators.Group.List.Basic
import Mathlib.Data.Nat.ModEq

/-- The 16-bit words of a byte string, by a way to make a word of two bytes. An
odd last byte is padded with zero. -/
def wordsOf (word : UInt8 → UInt8 → Nat) : List UInt8 → List Nat
  | [] => []
  | [a] => [word a 0]
  | a :: b :: rest => word a b :: wordsOf word rest

def bigWord (a b : UInt8) : Nat := 256 * a.toNat + b.toNat

def littleWord (a b : UInt8) : Nat := a.toNat + 256 * b.toNat

/-- Addition of 16-bit words with end-around carry. -/
def onesAdd (a b : Nat) : Nat := (a + b) / 65536 + (a + b) % 65536

/-- The ones-complement sum of a byte string in network order. -/
def onesComplementSum (bs : List UInt8) : Nat := (wordsOf bigWord bs).foldl onesAdd 0

theorem bigWord_lt (a b : UInt8) : bigWord a b < 65536 := by
  have := a.toNat_lt
  have := b.toNat_lt
  unfold bigWord
  omega

section Words

variable {word : UInt8 → UInt8 → Nat}

theorem wordsOf_append {xs ys : List UInt8} (h : xs.length % 2 = 0) :
    wordsOf word (xs ++ ys) = wordsOf word xs ++ wordsOf word ys := by
  induction xs using wordsOf.induct with
  | case1 => rfl
  | case2 a => simp at h
  | case3 a b rest ih =>
    have hr : rest.length % 2 = 0 := by
      simp only [List.length_cons] at h
      omega
    simp only [List.cons_append, wordsOf, ih hr]

theorem wordsOf_lt (hw : ∀ a b, word a b < 65536) (bs : List UInt8) :
    ∀ x ∈ wordsOf word bs, x < 65536 := by
  induction bs using wordsOf.induct with
  | case1 => simp [wordsOf]
  | case2 a => simp [wordsOf, hw]
  | case3 a b rest ih => simpa [wordsOf, hw] using ih

theorem sum_wordsOf_le (hw : ∀ a b, word a b < 65536) (bs : List UInt8) :
    (wordsOf word bs).sum ≤ 65535 * ((bs.length + 1) / 2) := by
  induction bs using wordsOf.induct with
  | case1 => simp [wordsOf]
  | case2 a =>
    have := hw a 0
    simp [wordsOf]
    omega
  | case3 a b rest ih =>
    have := hw a b
    simp only [wordsOf, List.sum_cons, List.length_cons]
    omega

/-- A word sum is zero only for zero bytes. -/
theorem sum_wordsOf_eq_zero (hw : ∀ a b, word a b = 0 ↔ a = 0 ∧ b = 0) (bs : List UInt8) :
    (wordsOf word bs).sum = 0 ↔ ∀ b ∈ bs, b = 0 := by
  induction bs using wordsOf.induct with
  | case1 => simp [wordsOf]
  | case2 a => simp [wordsOf, hw]
  | case3 a b rest ih => simp [wordsOf, hw, ih, and_assoc]

end Words

theorem bigWord_eq_zero (a b : UInt8) : bigWord a b = 0 ↔ a = 0 ∧ b = 0 := by
  unfold bigWord
  rw [← UInt8.toNat_inj, ← UInt8.toNat_inj]
  change _ ↔ a.toNat = 0 ∧ b.toNat = 0
  omega

theorem littleWord_eq_zero (a b : UInt8) : littleWord a b = 0 ↔ a = 0 ∧ b = 0 := by
  unfold littleWord
  rw [← UInt8.toNat_inj, ← UInt8.toNat_inj]
  change _ ↔ a.toNat = 0 ∧ b.toNat = 0
  omega

/-- Swapping the bytes of every word multiplies the sum by 256, modulo 65535. -/
theorem sum_bigWord_modEq (bs : List UInt8) :
    (wordsOf bigWord bs).sum ≡ 256 * (wordsOf littleWord bs).sum [MOD 65535] := by
  have hw : ∀ a b, bigWord a b ≡ 256 * littleWord a b [MOD 65535] := by
    intro a b
    unfold bigWord littleWord Nat.ModEq
    omega
  induction bs using wordsOf.induct with
  | case1 => rfl
  | case2 a => simpa [wordsOf] using hw a 0
  | case3 a b rest ih =>
    simp only [wordsOf, List.sum_cons, Nat.mul_add]
    exact (hw a b).add ih

theorem onesAdd_le {a b : Nat} (ha : a ≤ 65535) (hb : b ≤ 65535) : onesAdd a b ≤ 65535 := by
  unfold onesAdd
  omega

theorem onesAdd_modEq (a b : Nat) : onesAdd a b ≡ a + b [MOD 65535] := by
  unfold onesAdd Nat.ModEq
  omega

theorem onesAdd_eq_zero (a b : Nat) : onesAdd a b = 0 ↔ a + b = 0 := by
  unfold onesAdd
  omega

/-- Folding with end-around carry keeps the sum modulo 65535, and its being zero. -/
theorem foldl_onesAdd (ws : List Nat) (hw : ∀ x ∈ ws, x < 65536) (acc : Nat) (ha : acc ≤ 65535) :
    ws.foldl onesAdd acc ≤ 65535 ∧ ws.foldl onesAdd acc ≡ acc + ws.sum [MOD 65535] ∧
      (ws.foldl onesAdd acc = 0 ↔ acc + ws.sum = 0) := by
  induction ws generalizing acc with
  | nil => exact ⟨ha, rfl, Iff.rfl⟩
  | cons x ws ih =>
    have hx : x < 65536 := hw x (by simp)
    obtain ⟨hle, hmod, hz⟩ := ih (fun y hy => hw y (by simp [hy])) (onesAdd acc x)
      (onesAdd_le ha (by omega))
    have hstep := onesAdd_modEq acc x
    have hzero := onesAdd_eq_zero acc x
    simp only [List.foldl_cons, List.sum_cons]
    refine ⟨hle, hmod.trans ?_, ?_⟩
    · rw [← Nat.add_assoc]
      exact hstep.add_right _
    · omega

/-- A sum with its carries added back in until none is left. -/
def endAround (s : Nat) : Nat :=
  if s < 65536 then s else endAround (s / 65536 + s % 65536)
termination_by s
decreasing_by omega

theorem endAround_of_lt {s : Nat} (h : s < 65536) : endAround s = s := by
  simp [endAround, h]

/-- Carrying once does not change what is left in the end. -/
theorem endAround_carry (s : Nat) : endAround (s / 65536 + s % 65536) = endAround s := by
  by_cases h : s < 65536
  · rw [show s / 65536 + s % 65536 = s by omega]
  · rw [endAround.eq_1 s, if_neg h]

theorem endAround_lt (s : Nat) : endAround s < 65536 := by
  fun_induction endAround s with
  | case1 s h => exact h
  | case2 s h ih => exact ih

theorem endAround_modEq (s : Nat) : endAround s ≡ s [MOD 65535] := by
  fun_induction endAround s with
  | case1 s h => rfl
  | case2 s h ih =>
    refine ih.trans ?_
    unfold Nat.ModEq
    omega

theorem endAround_eq_zero (s : Nat) : endAround s = 0 ↔ s = 0 := by
  fun_induction endAround s with
  | case1 s h => rfl
  | case2 s h ih => omega

/-- The order of carries does not matter: adding word by word comes to the folded sum. -/
theorem foldl_onesAdd_eq {ws : List Nat} (hw : ∀ x ∈ ws, x < 65536) :
    ws.foldl onesAdd 0 = endAround ws.sum := by
  obtain ⟨hle, hmod, hz⟩ := foldl_onesAdd ws hw 0 (by omega)
  have hlt := endAround_lt ws.sum
  have hz' := endAround_eq_zero ws.sum
  have hmod' := endAround_modEq ws.sum
  rw [Nat.zero_add] at hmod hz
  unfold Nat.ModEq at hmod hmod'
  omega

/-- A string verifies exactly when its word sum is a positive multiple of 65535. -/
theorem onesComplementSum_verifies (bs : List UInt8) :
    onesComplementSum bs = 0xffff ↔
      (wordsOf bigWord bs).sum ≡ 0 [MOD 65535] ∧ 0 < (wordsOf bigWord bs).sum := by
  obtain ⟨hle, hmod, hz⟩ := foldl_onesAdd _ (wordsOf_lt bigWord_lt bs) 0 (by omega)
  unfold onesComplementSum
  unfold Nat.ModEq at hmod ⊢
  omega

/-- The same, read off words in little-endian order. -/
theorem verifies_of_little (bs : List UInt8)
    (hm : (wordsOf littleWord bs).sum ≡ 0 [MOD 65535]) (hp : 0 < (wordsOf littleWord bs).sum) :
    onesComplementSum bs = 0xffff := by
  refine (onesComplementSum_verifies bs).mpr ⟨?_, ?_⟩
  · exact (sum_bigWord_modEq bs).trans (hm.mul_left 256)
  · apply Nat.pos_of_ne_zero
    intro hz
    have hb := (sum_wordsOf_eq_zero bigWord_eq_zero bs).mp hz
    have := (sum_wordsOf_eq_zero littleWord_eq_zero bs).mpr hb
    omega
