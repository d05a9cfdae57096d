import Xdpacket.Model.Parse

namespace Xdpacket

variable {b n d : Nat} {cs ds : List Char}

section Digits

theorem digitValue_digitChar (h : d < 16) : digitValue (Nat.digitChar d) = d := by
  have hall : ∀ d < 16, digitValue (Nat.digitChar d) = d := by decide
  exact hall d h

theorem takeDigits_append (h : ∀ c ∈ ds, digitValue c < b) :
    takeDigits b (ds ++ cs) n = takeDigits b cs (takeDigits b ds n) := by
  induction ds generalizing n with
  | nil => rfl
  | cons c ds ih =>
    have hc := h c (List.mem_cons_self ..)
    rw [List.cons_append]
    simp only [takeDigits, if_pos hc]
    exact ih (fun c hm => h c (List.mem_cons_of_mem _ hm))

theorem toDigits_below (hb : 1 < b) (hb' : b ≤ 16) :
    ∀ c ∈ Nat.toDigits b n, digitValue c < b := by
  induction n using Nat.strong_induction_on with
  | _ n ih =>
    rw [Nat.toDigits_eq_if hb]
    intro c hc
    split at hc
    · rw [List.mem_singleton.mp hc, digitValue_digitChar (by omega)]
      assumption
    · rcases List.mem_append.mp hc with hc | hc
      · exact ih (n / b) (Nat.div_lt_self (by omega) hb) c hc
      · have hlt : n % b < b := Nat.mod_lt _ (by omega)
        rw [List.mem_singleton.mp hc, digitValue_digitChar (by omega)]
        exact hlt

/-- Reading the digits that were printed. -/
theorem takeDigits_toDigits (hb : 1 < b) (hb' : b ≤ 16) :
    takeDigits b (Nat.toDigits b n) 0 = n := by
  induction n using Nat.strong_induction_on with
  | _ n ih =>
    rw [Nat.toDigits_eq_if hb]
    split
    · rename_i hlt
      simp only [takeDigits, digitValue_digitChar (show n < 16 by omega), if_pos hlt]
      omega
    · have hlt : n % b < b := Nat.mod_lt _ (by omega)
      rw [takeDigits_append (toDigits_below hb hb'),
        ih (n / b) (Nat.div_lt_self (by omega) hb)]
      simp only [takeDigits, digitValue_digitChar (show n % b < 16 by omega), if_pos hlt]
      exact Nat.div_add_mod' n b

/-- The first digit is not a zero, but for zero itself. -/
theorem toDigits_head (hb : 1 < b) : ∃ d rest, Nat.toDigits b n = Nat.digitChar d :: rest ∧
    d < b ∧ (n ≠ 0 → d ≠ 0) := by
  induction n using Nat.strong_induction_on with
  | _ n ih =>
    rw [Nat.toDigits_eq_if hb]
    split
    · rename_i hlt
      exact ⟨n, [], rfl, hlt, id⟩
    · obtain ⟨d, rest, he, hlt, hz⟩ := ih (n / b) (Nat.div_lt_self (by omega) hb)
      refine ⟨d, rest ++ [Nat.digitChar (n % b)], by rw [he, List.cons_append], hlt, ?_⟩
      intro _
      exact hz (Nat.ne_of_gt (Nat.div_pos (by omega) (by omega)))

end Digits

section Literals

/-- The characters of a digit are neither space nor sign. -/
theorem digitChar_plain (h : d < 10) : isSpace (Nat.digitChar d) = false ∧
    Nat.digitChar d ≠ '-' ∧ Nat.digitChar d ≠ '+' := by
  have hall : ∀ d < 10, isSpace (Nat.digitChar d) = false ∧ Nat.digitChar d ≠ '-' ∧
      Nat.digitChar d ≠ '+' := by
    decide
  exact hall d h

/-- A decimal literal is read as one: it has no leading zero. -/
theorem decimal_detected : takeDigits (detectBase (Nat.toDigits 10 n)).1
    (detectBase (Nat.toDigits 10 n)).2 0 = n := by
  by_cases hn : n = 0
  · subst hn
    rw [Nat.toDigits_zero]
    rfl
  · obtain ⟨d, rest, he, -, hd⟩ := toDigits_head (b := 10) (n := n) (by decide)
    have hzero : Nat.digitChar d ≠ '0' := fun hc => hd hn (Nat.digitChar_eq_zero.mp hc)
    have hbase : detectBase (Nat.toDigits 10 n) = (10, Nat.toDigits 10 n) := by
      rw [he]
      unfold detectBase
      split
      · rename_i hc
        exact absurd (List.cons.inj hc).1 hzero
      · rename_i hc
        exact absurd (List.cons.inj hc).1 hzero
      · rfl
    rw [hbase]
    exact takeDigits_toDigits (b := 10) (by decide) (by decide)

theorem hex_detected : takeDigits (detectBase ('0' :: 'x' :: Nat.toDigits 16 n)).1
    (detectBase ('0' :: 'x' :: Nat.toDigits 16 n)).2 0 = n := by
  obtain ⟨d, rest, he, hd, -⟩ := toDigits_head (b := 16) (n := n) (by decide)
  have hbase : detectBase ('0' :: 'x' :: Nat.toDigits 16 n) = (16, Nat.toDigits 16 n) := by
    rw [he]
    unfold detectBase
    simp only [true_or, digitValue_digitChar hd, hd, and_self, if_true]
  rw [hbase]
  exact takeDigits_toDigits (b := 16) (by decide) (by decide)

/-- The sign of a literal, and what follows it. -/
def takeSign (cs : List Char) : Bool × List Char :=
  match cs with
  | '-' :: rest => (true, rest)
  | '+' :: rest => (false, rest)
  | _ => (false, cs)

/-- The value of a literal whose sign was taken. -/
def signedValue (negative : Bool) (cs : List Char) : Int × Bool :=
  let n : Int := takeDigits (detectBase cs).1 (detectBase cs).2 0
  let n := if negative then -n else n
  if n < -9223372036854775808 then (-9223372036854775808, true)
  else if 9223372036854775807 < n then (9223372036854775807, true)
  else (n, false)

theorem strtol_eq (txt : Text) : strtol txt =
    signedValue (takeSign (txt.toList.dropWhile isSpace)).1
      (takeSign (txt.toList.dropWhile isSpace)).2 :=
  rfl

theorem takeSign_digit (h : d < 10) :
    takeSign (Nat.digitChar d :: cs) = (false, Nat.digitChar d :: cs) := by
  obtain ⟨-, hminus, hplus⟩ := digitChar_plain h
  unfold takeSign
  split
  · rename_i hc
    exact absurd (List.cons.inj hc).1 hminus
  · rename_i hc
    exact absurd (List.cons.inj hc).1 hplus
  · rfl

theorem strtol_digits (hd : d < 10) (hv : takeDigits (detectBase (Nat.digitChar d :: cs)).1
      (detectBase (Nat.digitChar d :: cs)).2 0 = n) (hn : n ≤ 9223372036854775807) :
    strtol (String.ofList (Nat.digitChar d :: cs)) = ((n : Int), false) := by
  have hspace := (digitChar_plain hd).1
  rw [strtol_eq, String.toList_ofList, List.dropWhile_cons_of_neg (by rw [hspace]; decide),
    takeSign_digit hd]
  simp only [signedValue, hv, Bool.false_eq_true, if_false]
  rw [if_neg (by omega), if_neg (by omega)]

theorem strtol_minus (hv : takeDigits (detectBase cs).1 (detectBase cs).2 0 = n)
    (hn : n ≤ 9223372036854775808) : strtol (String.ofList ('-' :: cs)) = (-(n : Int), false) := by
  rw [strtol_eq, String.toList_ofList, List.dropWhile_cons_of_neg (by decide)]
  simp only [takeSign, signedValue, hv, if_true]
  rw [if_neg (by omega), if_neg (by omega)]

/-- `%u` is read back. -/
theorem strtol_nat (hn : n ≤ 9223372036854775807) : strtol (toString n) = ((n : Int), false) := by
  obtain ⟨d, rest, he, hd, -⟩ := toDigits_head (b := 10) (n := n) (by decide)
  have hv := decimal_detected (n := n)
  rw [he] at hv
  change strtol (String.ofList (Nat.toDigits 10 n)) = _
  rw [he]
  exact strtol_digits hd hv hn

/-- `%d` is read back. -/
theorem strtol_int {i : Int} (hlo : -9223372036854775808 ≤ i) (hhi : i ≤ 9223372036854775807) :
    strtol (toString i) = (i, false) := by
  cases i with
  | ofNat m => exact strtol_nat (Int.ofNat_le.mp hhi)
  | negSucc m =>
    have hs : toString (Int.negSucc m) = String.ofList ('-' :: Nat.toDigits 10 (m + 1)) := by
      rw [← List.singleton_append, String.ofList_append]
      rfl
    rw [hs, strtol_minus decimal_detected (by omega)]
    rfl

/-- `0x%x` is read back. -/
theorem strtol_hex (hn : n ≤ 9223372036854775807) : strtol (hexOf n) = ((n : Int), false) := by
  have hs : hexOf n = String.ofList ([Nat.digitChar 0, 'x'] ++ Nat.toDigits 16 n) := by
    rw [String.ofList_append]
    rfl
  rw [hs]
  exact strtol_digits (by decide) hex_detected hn

end Literals

end Xdpacket
