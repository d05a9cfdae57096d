import Mathlib.Data.List.TakeWhile
import Xdpacket.Proofs.Numerals

namespace Xdpacket

/-- The number that digits denote in a base. -/
def digitsValue (base : Nat) (ds : List Char) : Nat :=
  ds.foldl (fun n c => n * base + digitValue c) 0

/-- Reading stops at the first character that is no digit. -/
theorem takeDigits_eq (base : Nat) (cs : List Char) (n : Nat) : takeDigits base cs n =
    (cs.takeWhile (fun c => digitValue c < base)).foldl (fun n c => n * base + digitValue c) n := by
  induction cs generalizing n with
  | nil => rfl
  | cons c cs ih =>
    rw [takeDigits]
    split
    · rename_i hc
      rw [ih, List.takeWhile_cons_of_pos (by simpa using hc), List.foldl_cons]
    · rename_i hc
      rw [List.takeWhile_cons_of_neg (by simpa using hc), List.foldl_nil]

theorem takeDigits_all {base : Nat} {ds : List Char} (h : ∀ c ∈ ds, digitValue c < base) :
    takeDigits base ds 0 = digitsValue base ds := by
  rw [takeDigits_eq, List.takeWhile_eq_self_iff.mpr (by simpa using h)]
  rfl

/-- An integer literal of C without its sign, and what it denotes. -/
inductive Numeral : List Char → Nat → Prop where
  | decimal (c cs) (nonzero : c ≠ '0') (digits : ∀ d ∈ c :: cs, digitValue d < 10) :
      Numeral (c :: cs) (digitsValue 10 (c :: cs))
  | octal (cs) (digits : ∀ d ∈ cs, digitValue d < 8) : Numeral ('0' :: cs) (digitsValue 8 cs)
  | hex (x cs) (mark : x = 'x' ∨ x = 'X') (some : cs ≠ []) (digits : ∀ d ∈ cs, digitValue d < 16) :
      Numeral ('0' :: x :: cs) (digitsValue 16 cs)

/-- A sequence of digits with a leading zero that is no octal literal, and the
number its octal beginning denotes. -/
inductive Misnumeral : List Char → Nat → Prop where
  | mk (ds) (digits : ∀ d ∈ ds, digitValue d < 10) (stray : ∃ d ∈ ds, 8 ≤ digitValue d) :
      Misnumeral ('0' :: ds) (digitsValue 8 (ds.takeWhile (fun d => digitValue d < 8)))

/-- With an optional sign. -/
inductive Signed (P : List Char → Nat → Prop) : List Char → Int → Prop where
  | plain {cs n} (h : P cs n) : Signed P cs n
  | plus {cs n} (h : P cs n) : Signed P ('+' :: cs) n
  | minus {cs n} (h : P cs n) : Signed P ('-' :: cs) (-n)

/-- An integer literal of C: sign, then decimal, octal or hex digits. -/
abbrev Literal : List Char → Int → Prop := Signed Numeral

/-- What is read as the value of its beginning. -/
abbrev Misliteral : List Char → Int → Prop := Signed Misnumeral

/-- `strtol` keeps the value inside of `long`. -/
def clampLong (v : Int) : Int × Bool :=
  if v < -9223372036854775808 then (-9223372036854775808, true)
  else if 9223372036854775807 < v then (9223372036854775807, true)
  else (v, false)

theorem signedValue_eq {cs : List Char} {n : Nat} (negative : Bool)
    (h : takeDigits (detectBase cs).1 (detectBase cs).2 0 = n) :
    signedValue negative cs = clampLong (if negative then -n else n) := by
  unfold signedValue clampLong
  rw [h]

/-- Starts with a decimal digit. -/
def StartsDigit (cs : List Char) : Prop := ∃ c rest, cs = c :: rest ∧ digitValue c < 10

theorem Numeral.startsDigit {cs : List Char} {n : Nat} (h : Numeral cs n) : StartsDigit cs := by
  cases h with
  | decimal c cs _ digits => exact ⟨c, cs, rfl, digits c (by simp)⟩
  | octal cs _ => exact ⟨'0', cs, rfl, by decide⟩
  | hex x cs _ _ _ => exact ⟨'0', x :: cs, rfl, by decide⟩

theorem Misnumeral.startsDigit {cs : List Char} {n : Nat} (h : Misnumeral cs n) :
    StartsDigit cs := by
  cases h with
  | mk ds _ _ => exact ⟨'0', ds, rfl, by decide⟩

theorem detectBase_octal {ds : List Char} (h : ∀ d ∈ ds, digitValue d < 10) :
    detectBase ('0' :: ds) = (8, '0' :: ds) := by
  match ds with
  | [] => rfl
  | [d] => rfl
  | x :: d :: rest =>
    have hx : ¬ (x = 'x' ∨ x = 'X') := by
      intro hx
      have := h x (by simp)
      rcases hx with rfl | rfl <;> exact absurd this (by decide)
    simp [detectBase, hx]

theorem Numeral.detected {cs : List Char} {n : Nat} (h : Numeral cs n) :
    takeDigits (detectBase cs).1 (detectBase cs).2 0 = n := by
  cases h with
  | decimal c cs nonzero digits =>
    have hbase : detectBase (c :: cs) = (10, c :: cs) := by
      unfold detectBase
      split
      · rename_i hc
        exact absurd (List.cons.inj hc).1 nonzero
      · rename_i hc
        exact absurd (List.cons.inj hc).1 nonzero
      · rfl
    rw [hbase]
    exact takeDigits_all digits
  | octal cs digits =>
    have hten : ∀ d ∈ cs, digitValue d < 10 := by
      intro d hd
      have := digits d hd
      omega
    rw [detectBase_octal hten]
    simp only [takeDigits, show digitValue '0' = 0 by decide]
    exact takeDigits_all digits
  | hex x cs mark hne digits =>
    cases cs with
    | nil => exact absurd rfl hne
    | cons d rest =>
      have hbase : detectBase ('0' :: x :: d :: rest) = (16, d :: rest) := by
        simp [detectBase, mark, digits d (by simp)]
      rw [hbase]
      exact takeDigits_all digits

theorem Misnumeral.detected {cs : List Char} {n : Nat} (h : Misnumeral cs n) :
    takeDigits (detectBase cs).1 (detectBase cs).2 0 = n := by
  cases h with
  | mk ds digits _ =>
    rw [detectBase_octal digits]
    exact takeDigits_eq 8 ds 0

theorem digitChar_of_digit {c : Char} (h : digitValue c < 10) : ∃ d < 10, c = Nat.digitChar d := by
  have hrange : '0' ≤ c ∧ c ≤ '9' := by
    by_contra hn
    rw [digitValue, if_neg hn] at h
    split at h
    · omega
    · split at h <;> omega
  have hlo : 48 ≤ c.toNat := hrange.1
  have hhi : c.toNat ≤ 57 := hrange.2
  have hall : ∀ n < 10, Char.ofNat (n + 48) = Nat.digitChar n := by decide
  refine ⟨c.toNat - 48, by omega, ?_⟩
  rw [← hall _ (by omega), show c.toNat - 48 + 48 = c.toNat by omega, Char.ofNat_toNat]

theorem digit_plain {c : Char} (h : digitValue c < 10) :
    isSpace c = false ∧ c ≠ '-' ∧ c ≠ '+' := by
  obtain ⟨d, hd, rfl⟩ := digitChar_of_digit h
  exact digitChar_plain hd

theorem takeSign_plain {cs : List Char} (h : StartsDigit cs) : takeSign cs = (false, cs) := by
  obtain ⟨c, rest, rfl, hc⟩ := h
  obtain ⟨d, hd, rfl⟩ := digitChar_of_digit hc
  exact takeSign_digit hd

section Signed

variable {P : List Char → Nat → Prop} {cs sp : List Char} {v : Int} {txt : Text}

/-- A signed text does not begin with white space. -/
theorem Signed.dropSpaces (hstart : ∀ cs n, P cs n → StartsDigit cs) (h : Signed P cs v)
    (hsp : ∀ c ∈ sp, isSpace c = true) : (sp ++ cs).dropWhile isSpace = cs := by
  have hhead : ∃ c rest, cs = c :: rest ∧ isSpace c = false := by
    cases h with
    | plain h =>
      obtain ⟨c, rest, rfl, hc⟩ := hstart _ _ h
      exact ⟨c, rest, rfl, (digit_plain hc).1⟩
    | plus h => exact ⟨_, _, rfl, by decide⟩
    | minus h => exact ⟨_, _, rfl, by decide⟩
  obtain ⟨c, rest, rfl, hc⟩ := hhead
  rw [List.dropWhile_append_of_pos hsp, List.dropWhile_cons_of_neg (by simp [hc])]

theorem Signed.unsigned (hstart : ∀ cs n, P cs n → StartsDigit cs) (h : Signed P cs v) :
    ∃ n, P (takeSign cs).2 n := by
  cases h with
  | plain h =>
    rw [takeSign_plain (hstart _ _ h)]
    exact ⟨_, h⟩
  | plus h => exact ⟨_, h⟩
  | minus h => exact ⟨_, h⟩

/-- White space and a sign in front do not keep `strtol` from the digits. -/
theorem strtol_signed (hstart : ∀ cs n, P cs n → StartsDigit cs)
    (hvalue : ∀ cs n, P cs n → takeDigits (detectBase cs).1 (detectBase cs).2 0 = n)
    (ht : txt.toList = sp ++ cs) (hsp : ∀ c ∈ sp, isSpace c = true) (h : Signed P cs v) :
    strtol txt = clampLong v := by
  rw [strtol_eq, ht, h.dropSpaces hstart hsp]
  cases h with
  | plain h =>
    rw [takeSign_plain (hstart _ _ h), signedValue_eq false (hvalue _ _ h)]
    rfl
  | plus h => exact signedValue_eq false (hvalue _ _ h)
  | minus h => exact signedValue_eq true (hvalue _ _ h)

end Signed

theorem strtol_literal {txt : Text} {sp cs : List Char} {v : Int} (ht : txt.toList = sp ++ cs)
    (hsp : ∀ c ∈ sp, isSpace c = true) (h : Literal cs v) : strtol txt = clampLong v :=
  strtol_signed (fun _ _ => Numeral.startsDigit) (fun _ _ => Numeral.detected) ht hsp h

theorem strtol_misliteral {txt : Text} {sp cs : List Char} {v : Int} (ht : txt.toList = sp ++ cs)
    (hsp : ∀ c ∈ sp, isSpace c = true) (h : Misliteral cs v) : strtol txt = clampLong v :=
  strtol_signed (fun _ _ => Misnumeral.startsDigit) (fun _ _ => Misnumeral.detected) ht hsp h

/-- No text is both. -/
theorem Misnumeral.not_numeral {cs : List Char} {m n : Nat} (h : Misnumeral cs m) :
    ¬ Numeral cs n := by
  cases h with
  | mk ds digits stray =>
    intro hn
    obtain ⟨d, hd, h8⟩ := stray
    generalize hcs : '0' :: ds = cs at hn
    cases hn with
    | decimal c cs nonzero _ => exact nonzero (List.cons.inj hcs).1.symm
    | octal cs octal =>
      obtain ⟨-, rfl⟩ := List.cons.inj hcs
      have := octal d hd
      omega
    | hex x cs mark _ _ =>
      obtain ⟨-, rfl⟩ := List.cons.inj hcs
      have := digits x (by simp)
      rcases mark with rfl | rfl
      · exact absurd this (by decide)
      · exact absurd this (by decide)

end Xdpacket
