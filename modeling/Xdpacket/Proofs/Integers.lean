import Xdpacket.Proofs.Recognisers

namespace Xdpacket

open RegularExpression

/-- The number that bytes in network order denote. -/
def beNat (bs : Bytes) : Nat := bs.foldl (fun n b => n * 256 + b.toNat) 0

theorem beNat_concat (bs : Bytes) (b : UInt8) : beNat (bs ++ [b]) = beNat bs * 256 + b.toNat := by
  simp [beNat]

@[simp] theorem length_toBe (n : Nat) (v : Int) : (toBe n v).length = n := by
  induction n generalizing v with
  | zero => rfl
  | succ n ih => simp [toBe, ih]

/-- The bytes of a number denote it in two's complement. -/
theorem beNat_toBe (n : Nat) (v : Int) : (beNat (toBe n v) : Int) = v % 2 ^ (8 * n) := by
  induction n generalizing v with
  | zero => exact (Int.emod_one v).symm
  | succ n ih =>
    have hlo : 0 ≤ v % 256 ∧ v % 256 < 256 := ⟨by omega, by omega⟩
    have hbyte : ((UInt8.ofNat (v % 256).toNat).toNat : Int) = v % 256 := by
      rw [UInt8.toNat_ofNat', Nat.mod_eq_of_lt (by omega)]
      omega
    have hpow : (2 : Int) ^ (8 * (n + 1)) = 256 * 2 ^ (8 * n) := by
      rw [Nat.mul_succ, Int.pow_add]
      omega
    have hsplit : v % (256 * 2 ^ (8 * n)) = v % 256 + 256 * (v / 256 % 2 ^ (8 * n)) := by
      have hq := Int.emod_add_mul_ediv v (256 * 2 ^ (8 * n))
      have h1 := Int.emod_add_mul_ediv v 256
      have h2 := Int.emod_add_mul_ediv (v / 256) (2 ^ (8 * n))
      have h3 : v / (256 * 2 ^ (8 * n)) = v / 256 / 2 ^ (8 * n) :=
        (Int.ediv_ediv_of_nonneg (by omega)).symm
      rw [h3] at hq
      have h4 : (256 : Int) * 2 ^ (8 * n) * (v / 256 / 2 ^ (8 * n)) =
          256 * (2 ^ (8 * n) * (v / 256 / 2 ^ (8 * n))) := Int.mul_assoc ..
      rw [h4] at hq
      omega
    rw [toBe, beNat_concat]
    push_cast
    rw [ih, hbyte, hpow, hsplit]
    omega

/-- The numbers that fit `len` bytes, signed or unsigned. -/
def InRange (len : Nat) (v : Int) : Prop := -2 ^ (8 * len - 1) ≤ v ∧ v ≤ 2 ^ (8 * len) - 1

instance (len : Nat) (v : Int) : Decidable (InRange len v) := by
  unfold InRange
  infer_instance

/-- The numbers that the branch for `len` stores. -/
def FitsBranch (len : Nat) (v : Int) : Prop :=
  if len = 8 then 0 ≤ v ∧ v < 2 ^ 63 else InRange len v

instance (len : Nat) (v : Int) : Decidable (FitsBranch len v) := by
  unfold FitsBranch
  infer_instance

/-- The lengths with an integer type. -/
def IntLen (len : Nat) : Prop := len = 1 ∨ len = 2 ∨ len = 4 ∨ len = 8

theorem FitsBranch.long {len : Nat} {v : Int} (hlen : IntLen len) (h : FitsBranch len v) :
    -9223372036854775808 ≤ v ∧ v ≤ 9223372036854775807 := by
  unfold FitsBranch InRange at h
  rcases hlen with rfl | rfl | rfl | rfl
  · rw [if_neg (by decide)] at h
    omega
  · rw [if_neg (by decide)] at h
    omega
  · rw [if_neg (by decide)] at h
    omega
  · rw [if_pos rfl] at h
    omega

/-- Each length and sign has a type, which holds what is accepted. -/
theorem outType_holds {len : Nat} (hlen : IntLen len) (tt : Int) :
    ∃ out, outType len tt = some out ∧ (out.holds tt = true ↔ FitsBranch len tt) := by
  have hsigned : ∀ size, IntType.holds ⟨true, size⟩ tt = true ↔
      -2 ^ (8 * size - 1) ≤ tt ∧ tt < 2 ^ (8 * size - 1) := by simp [IntType.holds]
  have hunsigned : ∀ size, IntType.holds ⟨false, size⟩ tt = true ↔
      0 ≤ tt ∧ tt < 2 ^ (8 * size) := by simp [IntType.holds]
  unfold FitsBranch InRange
  rcases hlen with rfl | rfl | rfl | rfl
  all_goals by_cases h0 : 0 ≤ tt
  · refine ⟨⟨false, 1⟩, by simp [outType, h0], ?_⟩
    rw [hunsigned, if_neg (by decide)]
    omega
  · refine ⟨⟨true, 1⟩, by simp [outType, h0], ?_⟩
    rw [hsigned, if_neg (by decide)]
    omega
  · refine ⟨⟨false, 2⟩, by simp [outType, h0], ?_⟩
    rw [hunsigned, if_neg (by decide)]
    omega
  · refine ⟨⟨true, 2⟩, by simp [outType, h0], ?_⟩
    rw [hsigned, if_neg (by decide)]
    omega
  · refine ⟨⟨false, 4⟩, by simp [outType, h0], ?_⟩
    rw [hunsigned, if_neg (by decide)]
    omega
  · refine ⟨⟨true, 4⟩, by simp [outType, h0], ?_⟩
    rw [hsigned, if_neg (by decide)]
    omega
  · refine ⟨⟨true, 8⟩, by simp [outType, h0], ?_⟩
    rw [hsigned, if_pos rfl]
    omega
  · refine ⟨⟨false, 8⟩, by simp [outType, h0], ?_⟩
    rw [hunsigned, if_pos rfl]
    omega

theorem valueParseInt_eq {value : Text} {len : Nat} {v : Int} (hlen : IntLen len)
    (h : strtol value = clampLong v) :
    valueParseInt value len = if FitsBranch len v then some (toBe len v) else none := by
  unfold valueParseInt
  rw [h]
  by_cases hlong : -9223372036854775808 ≤ v ∧ v ≤ 9223372036854775807
  · obtain ⟨out, hout, hholds⟩ := outType_holds hlen v
    have hv : clampLong v = (v, false) := by
      rw [clampLong, if_neg (by omega), if_neg (by omega)]
    simp only [hv, hout, hholds, Bool.false_eq_true, if_false]
  · have hv : (clampLong v).2 = true := by
      unfold clampLong
      split
      · rfl
      · rw [if_pos (by omega)]
    rw [if_neg (fun ha => hlong (ha.long hlen))]
    simp only [hv, if_true]

/-- White space, then a text of the grammar `P`. -/
def Spaced (P : List Char → Int → Prop) (value : Text) (v : Int) : Prop :=
  ∃ sp cs, value.toList = sp ++ cs ∧ (∀ c ∈ sp, isSpace c = true) ∧ P cs v

theorem strtol_spaced {value : Text} {v : Int}
    (h : Spaced Literal value v ∨ Spaced Misliteral value v) : strtol value = clampLong v := by
  rcases h with ⟨sp, cs, ht, hsp, h⟩ | ⟨sp, cs, ht, hsp, h⟩
  · exact strtol_literal ht hsp h
  · exact strtol_misliteral ht hsp h

theorem digits_cases {ds : List Char} (hne : ds ≠ []) (h : ∀ d ∈ ds, digitValue d < 10) :
    (∃ n, Numeral ds n) ∨ ∃ n, Misnumeral ds n := by
  cases ds with
  | nil => exact absurd rfl hne
  | cons c ds =>
    by_cases hc : c = '0'
    · subst hc
      by_cases hall : ∀ d ∈ ds, digitValue d < 8
      · exact .inl ⟨_, .octal ds hall⟩
      · push Not at hall
        exact .inr ⟨_, .mk ds (fun d hd => h d (by simp [hd])) hall⟩
    · exact .inl ⟨_, .decimal c ds hc h⟩

/-- A text that the expression matches is a literal or is misread as one. -/
theorem txtInt_cases {value : Text} (h : value.toList ∈ txtInt.matches') :
    (∃ v, Spaced Literal value v) ∨ ∃ v, Spaced Misliteral value v := by
  obtain ⟨front, hf, body, hb, ht⟩ := matches_mul.mp h
  obtain ⟨sp, hsp, sign, hs, rfl⟩ := matches_mul.mp hf
  have hspace : ∀ c ∈ sp, isSpace c = true :=
    fun c hc => isSpace_of_mem (matches_star_oneOf.mp hsp c hc)
  have hbody : (∃ n, Numeral body n) ∨ ∃ n, Misnumeral body n := by
    rcases matches_add.mp hb with hb | hb
    · obtain ⟨hne, hall⟩ := matches_many1_oneOf.mp hb
      exact digits_cases hne (fun d hd => (mem_decDigits d).mp (hall d hd))
    · obtain ⟨pre, hp, ds, hd, rfl⟩ := matches_mul.mp hb
      obtain ⟨z, hz, x, hx, rfl⟩ := matches_mul.mp hp
      obtain ⟨m, hm, rfl⟩ := matches_oneOf.mp hx
      obtain ⟨hne, hall⟩ := matches_many1_oneOf.mp hd
      rw [matches_char.mp hz]
      exact .inl ⟨_, .hex m ds (by simpa using hm) hne
        (fun d hd => (mem_hexDigits d).mp (hall d hd))⟩
  have hsigned : ∀ {P : List Char → Nat → Prop} {n : Nat}, P body n →
      ∃ v, Spaced (Signed P) value v := by
    intro P n hp
    rcases matches_opt.mp hs with rfl | hs
    · exact ⟨n, sp, body, by simpa using ht.symm, hspace, .plain hp⟩
    · obtain ⟨c, hc, rfl⟩ := matches_oneOf.mp hs
      simp only [List.mem_cons, List.not_mem_nil, or_false] at hc
      rcases hc with rfl | rfl
      · exact ⟨n, sp, '+' :: body, by simpa using ht.symm, hspace, .plus hp⟩
      · exact ⟨-n, sp, '-' :: body, by simpa using ht.symm, hspace, .minus hp⟩
  rcases hbody with ⟨n, hn⟩ | ⟨n, hn⟩
  · exact .inl (hsigned hn)
  · exact .inr (hsigned hn)

theorem Spaced.not_misliteral {value : Text} {v w : Int} (h : Spaced Literal value v) :
    ¬ Spaced Misliteral value w := by
  obtain ⟨sp, cs, ht, hsp, h⟩ := h
  intro ⟨sp', cs', ht', hsp', h'⟩
  have hnum := fun cs n (h : Numeral cs n) => h.startsDigit
  have hmis := fun cs n (h : Misnumeral cs n) => h.startsDigit
  have hcs : cs = cs' := by
    rw [← h.dropSpaces hnum hsp, ← ht, ht', h'.dropSpaces hmis hsp']
  subst hcs
  obtain ⟨n, hn⟩ := h.unsigned hnum
  obtain ⟨m, hm⟩ := h'.unsigned hmis
  exact hm.not_numeral hn

section ValueParse

variable {hx2bBE : Text → (len : Nat) → Option { bs : Bytes // bs.length = len }} {value : Text}
  {len : Nat}

/-- An error, and zeros. -/
def Rejected (r : Nat × Bytes) (len : Nat) : Prop := r.1 ≠ 0 ∧ r.2 = List.replicate len 0

/-- No error, and the bytes of the number in two's complement. -/
def Stored (r : Nat × Bytes) (len : Nat) (v : Int) : Prop :=
  r.1 = 0 ∧ r.2.length = len ∧ (beNat r.2 : Int) = v % 2 ^ (8 * len)

/-- What is expected of a text that the integer expression matches. -/
structure IntegerOutcome (value : Text) (len : Nat) (r : Nat × Bytes) : Prop where
  fits : ∀ v, Spaced Literal value v → InRange len v → Stored r len v
  overflows : ∀ v, Spaced Literal value v → ¬ InRange len v → Rejected r len
  invalid : (∀ v, ¬ Spaced Literal value v) → Rejected r len

/-- Negative numbers and those of the upper half do not go into eight bytes,
and the number that a misread text is taken for must not be accepted. -/
structure IntegerCondition (value : Text) (len : Nat) : Prop where
  eight : ∀ v, Spaced Literal value v → len = 8 → InRange 8 v → 0 ≤ v ∧ v < 2 ^ 63
  misread : ∀ v, Spaced Misliteral value v → ¬ FitsBranch len v

theorem valueParse_int (hm : value.toList ∈ txtInt.matches') (hlen : IntLen len) {v : Int}
    (h : strtol value = clampLong v) : valueParse hx2bBE value len =
      if FitsBranch len v then (0, toBe len v) else (1, List.replicate len 0) := by
  have hbounds : 1 ≤ len ∧ len ≤ 8 := by
    unfold IntLen at hlen
    omega
  rw [valueParse, valueParseBytes_int hm hbounds.1 hbounds.2, valueParseInt_eq hlen h]
  by_cases ha : FitsBranch len v
  · rw [if_pos ha, if_pos ha]
  · rw [if_neg ha, if_neg ha]

theorem stored_toBe (len : Nat) (v : Int) : Stored (0, toBe len v) len v :=
  ⟨rfl, length_toBe len v, beNat_toBe len v⟩

theorem rejected_zero (len : Nat) : Rejected (1, List.replicate len 0) len :=
  ⟨Nat.one_ne_zero, rfl⟩

/-- The integer branch does what is expected of it exactly under the condition. -/
theorem integer_iff (hm : value.toList ∈ txtInt.matches') (hlen : IntLen len) :
    IntegerOutcome value len (valueParse hx2bBE value len) ↔ IntegerCondition value len := by
  have heq : ∀ v, Spaced Literal value v ∨ Spaced Misliteral value v →
      valueParse hx2bBE value len =
        if FitsBranch len v then (0, toBe len v) else (1, List.replicate len 0) :=
    fun v h => valueParse_int hm hlen (strtol_spaced h)
  constructor
  · intro h
    refine ⟨fun v hv h8 hr => ?_, fun v hv ha => ?_⟩
    · subst h8
      have hs := h.fits v hv hr
      rw [heq v (.inl hv)] at hs
      by_contra hn
      rw [if_neg (by simpa [FitsBranch] using hn)] at hs
      exact absurd hs.1 Nat.one_ne_zero
    · have hr := h.invalid (fun w hw => hw.not_misliteral hv)
      rw [heq v (.inr hv), if_pos ha] at hr
      exact hr.1 rfl
  · intro h
    refine ⟨fun v hv hr => ?_, fun v hv hr => ?_, fun hno => ?_⟩
    · rw [heq v (.inl hv), if_pos]
      · exact stored_toBe len v
      · unfold FitsBranch
        split
        · rename_i h8
          exact h.eight v hv h8 (h8 ▸ hr)
        · exact hr
    · rw [heq v (.inl hv), if_neg]
      · exact rejected_zero len
      · intro ha
        unfold FitsBranch at ha
        split at ha
        · rename_i h8
          subst h8
          apply hr
          unfold InRange
          omega
        · exact hr ha
    · rcases txtInt_cases hm with ⟨v, hv⟩ | ⟨v, hv⟩
      · exact absurd hv (hno v)
      · rw [heq v (.inr hv), if_neg (h.misread v hv)]
        exact rejected_zero len

/-- Minus one. -/
def minusOne : Text := "-1"

theorem minusOne_literal : Spaced Literal minusOne (-1) :=
  ⟨[], ['-', '1'], rfl, by simp, .minus (.decimal '1' [] (by decide) (by simp [digitValue]))⟩

theorem minusOne_matches : minusOne.toList ∈ txtInt.matches' := by
  decide

theorem integer_minusOne :
    IntegerOutcome minusOne 2 (valueParse (fun _ _ => none) minusOne 2) ↔
      IntegerCondition minusOne 2 :=
  integer_iff minusOne_matches (.inr (.inl rfl))

/-- Eight bytes do not take a negative number. -/
theorem eight_bytes_negative :
    ¬ ∀ (hx2bBE : Text → (len : Nat) → Option { bs : Bytes // bs.length = len }) (value : Text)
      (len : Nat), value.toList ∈ txtInt.matches' → IntLen len →
      IntegerOutcome value len (valueParse hx2bBE value len) := by
  intro h
  have hlen : IntLen 8 := .inr (.inr (.inr rfl))
  have hone := (h (fun _ _ => none) minusOne 8 minusOne_matches hlen).fits (-1) minusOne_literal
    (by decide)
  rw [valueParse_int minusOne_matches hlen (strtol_spaced (.inl minusOne_literal)),
    if_neg (by decide)] at hone
  exact absurd hone.1 Nat.one_ne_zero

end ValueParse

end Xdpacket
