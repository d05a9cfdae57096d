import Xdpacket.Model.Objects
import Xdpacket.Proofs.Integers

namespace Xdpacket

open RegularExpression

/-- The two digits of a byte. -/
def hexOfByte (b : UInt8) : List Char :=
  [Nat.digitChar (b.toNat / 16), Nat.digitChar (b.toNat % 16)]

theorem valueRender_toList {bs : Bytes} (h : bs ≠ []) :
    (valueRender bs).toList = '0' :: 'x' :: bs.flatMap hexOfByte := by
  have hne : bs.isEmpty = false := by simpa using h
  unfold valueRender
  rw [hne, if_neg Bool.false_ne_true, String.toList_append, String.toList_join]
  simp only [List.flatMap_map, String.toList_ofList]
  rfl

theorem hexOfByte_digits (b : UInt8) : ∀ c ∈ hexOfByte b, digitValue c < 16 := by
  have hb := b.toNat_lt
  simp [hexOfByte, digitValue_digitChar (show b.toNat / 16 < 16 by omega),
    digitValue_digitChar (show b.toNat % 16 < 16 by omega)]
  omega

theorem rendered_digits (bs : Bytes) : ∀ c ∈ bs.flatMap hexOfByte, digitValue c < 16 := by
  intro c hc
  obtain ⟨b, -, hc⟩ := List.mem_flatMap.mp hc
  exact hexOfByte_digits b c hc

theorem foldl_hexOfByte (bs : Bytes) (n : Nat) :
    (bs.flatMap hexOfByte).foldl (fun n c => n * 16 + digitValue c) n =
      bs.foldl (fun n b => n * 256 + b.toNat) n := by
  induction bs generalizing n with
  | nil => rfl
  | cons b bs ih =>
    have hb := b.toNat_lt
    rw [List.flatMap_cons, List.foldl_append, List.foldl_cons, ← ih]
    congr 1
    simp only [hexOfByte, List.foldl_cons, List.foldl_nil,
      digitValue_digitChar (show b.toNat / 16 < 16 by omega),
      digitValue_digitChar (show b.toNat % 16 < 16 by omega)]
    omega

theorem digitsValue_rendered (bs : Bytes) : digitsValue 16 (bs.flatMap hexOfByte) = beNat bs :=
  foldl_hexOfByte bs 0

theorem rendered_ne_nil {bs : Bytes} (h : bs ≠ []) : bs.flatMap hexOfByte ≠ [] := by
  cases bs with
  | nil => exact absurd rfl h
  | cons b bs => simp [hexOfByte]

theorem rendered_literal {bs : Bytes} (h : bs ≠ []) :
    Spaced Literal (valueRender bs) (beNat bs) := by
  refine ⟨[], _, valueRender_toList h, by simp, .plain ?_⟩
  rw [← digitsValue_rendered]
  exact .hex 'x' _ (.inl rfl) (rendered_ne_nil h) (rendered_digits bs)

theorem rendered_many {bs : Bytes} (h : bs ≠ []) :
    bs.flatMap hexOfByte ∈ (many1 (oneOf hexDigits)).matches' :=
  matches_many1_oneOf.mpr ⟨rendered_ne_nil h,
    fun c hc => (mem_hexDigits c).mpr (rendered_digits bs c hc)⟩

theorem mark_matches : ['x'] ∈ (oneOf ['x', 'X']).matches' :=
  matches_oneOf.mpr ⟨'x', by simp, rfl⟩

theorem rendered_int {bs : Bytes} (h : bs ≠ []) : (valueRender bs).toList ∈ txtInt.matches' := by
  rw [valueRender_toList h]
  have hfront : [] ∈ ((oneOf spaces).star * opt (oneOf ['+', '-'])).matches' :=
    matches_mul.mpr ⟨[], matches_star_oneOf.mpr (by simp), [], matches_opt.mpr (.inl rfl), rfl⟩
  refine matches_mul.mpr ⟨[], hfront, _, matches_add.mpr (.inr ?_), rfl⟩
  exact matches_mul.mpr ⟨['0', 'x'], matches_mul.mpr ⟨['0'], matches_char.mpr rfl, ['x'],
    mark_matches, rfl⟩, _, rendered_many h, rfl⟩

theorem rendered_hex {bs : Bytes} (h : bs ≠ []) : (valueRender bs).toList ∈ txtHex.matches' := by
  rw [valueRender_toList h]
  have hfront : ['0'] ∈ ((oneOf spaces).star * RegularExpression.char '0').matches' :=
    matches_mul.mpr ⟨[], matches_star_oneOf.mpr (by simp), ['0'], matches_char.mpr rfl, rfl⟩
  exact matches_mul.mpr ⟨['0', 'x'], matches_mul.mpr ⟨['0'], hfront, ['x'], mark_matches, rfl⟩, _,
    rendered_many h, rfl⟩

theorem beNat_cons (b : UInt8) (bs : Bytes) :
    beNat (b :: bs) = b.toNat * 256 ^ bs.length + beNat bs := by
  induction bs using List.reverseRecOn with
  | nil => simp [beNat]
  | append_singleton bs c ih =>
    rw [← List.cons_append, beNat_concat, beNat_concat, ih, List.length_append,
      List.length_singleton, Nat.pow_succ, Nat.add_mul, Nat.mul_assoc, Nat.add_assoc]

theorem beNat_lt (bs : Bytes) : beNat bs < 256 ^ bs.length := by
  induction bs using List.reverseRecOn with
  | nil => simp [beNat]
  | append_singleton bs c ih =>
    have hc := c.toNat_lt
    rw [beNat_concat, List.length_append, List.length_singleton, Nat.pow_succ]
    omega

/-- Bytes are those of the number that they denote. -/
theorem toBe_beNat (bs : Bytes) : toBe bs.length (beNat bs) = bs := by
  induction bs using List.reverseRecOn with
  | nil => rfl
  | append_singleton bs c ih =>
    have hc := c.toNat_lt
    have hdiv : ((beNat (bs ++ [c]) : Nat) : Int) / 256 = (beNat bs : Nat) := by
      rw [beNat_concat]
      omega
    have hmod : (((beNat (bs ++ [c]) : Nat) : Int) % 256).toNat = c.toNat := by
      rw [beNat_concat]
      omega
    rw [List.length_append, List.length_singleton, toBe, hdiv, hmod, ih, UInt8.ofNat_toNat]

section RoundTrip

variable {hx2bBE : Text → (len : Nat) → Option { bs : Bytes // bs.length = len }} {bs : Bytes}

/-- The library's decoder undoes its encoder. -/
structure DecodesHex (hx2bBE : Text → (len : Nat) → Option { bs : Bytes // bs.length = len }) :
    Prop where
  decodes : ∀ bs : Bytes, bs ≠ [] → hx2bBE (valueRender bs) bs.length = some ⟨bs, rfl⟩

/-- Up to eight bytes, the printed text is taken for an integer. -/
theorem valueParse_rendered_int (h : bs ≠ []) (hlen : IntLen bs.length) :
    valueParse hx2bBE (valueRender bs) bs.length =
      if FitsBranch bs.length (beNat bs) then (0, bs) else (1, List.replicate bs.length 0) := by
  rw [valueParse_int (rendered_int h) hlen (strtol_spaced (.inl (rendered_literal h))), toBe_beNat]

theorem valueParse_rendered_odd (h : bs ≠ []) (h8 : bs.length ≤ 8) (hlen : ¬ IntLen bs.length) :
    (valueParse hx2bBE (valueRender bs) bs.length).1 = 1 := by
  have hout : ∀ tt, outType bs.length tt = none := by
    intro tt
    unfold IntLen at hlen
    unfold outType
    simp only [not_or] at hlen
    simp [hlen]
  have hnone : valueParseInt (valueRender bs) bs.length = none := by
    unfold valueParseInt
    simp only [hout]
    split <;> rfl
  rw [valueParse, valueParseBytes_int (rendered_int h) (List.length_pos_of_ne_nil h) h8, hnone]

/-- Longer ones reach the hex branch. -/
theorem valueParse_rendered_long (hd : DecodesHex hx2bBE) (h8 : 8 < bs.length) :
    valueParse hx2bBE (valueRender bs) bs.length = (0, bs) := by
  have hne : bs ≠ [] := List.ne_nil_of_length_pos (by omega)
  have h6 : regexec txtIpv6 (valueRender bs) = false := by
    rw [regexec_eq_false]
    exact fun h => (txtInt_plain _ (rendered_int hne) ':' (txtIpv6_colon _ h)).2 rfl
  have hx : regexec txtHex (valueRender bs) = true := (regexec_iff _ _).mpr (rendered_hex hne)
  have hbytes : valueParseBytes hx2bBE (valueRender bs) bs.length = some bs := by
    rw [valueParseBytes, if_neg (by omega), if_neg (by omega), if_neg (by omega),
      if_neg (by omega), h6, hx, hd.decodes bs hne]
    simp
  rw [valueParse, hbytes]

theorem fitsBranch_rendered (h : bs ≠ []) (hlen : IntLen bs.length) :
    FitsBranch bs.length (beNat bs) ↔ (bs.length = 8 → ∀ b ∈ bs.head?, b.toNat < 128) := by
  have hlt := beNat_lt bs
  unfold FitsBranch InRange
  rcases hlen with hl | hl | hl | hl
  · rw [hl] at hlt ⊢
    simp only [Nat.reduceEqDiff, if_false, false_implies, iff_true]
    omega
  · rw [hl] at hlt ⊢
    simp only [Nat.reduceEqDiff, if_false, false_implies, iff_true]
    omega
  · rw [hl] at hlt ⊢
    simp only [Nat.reduceEqDiff, if_false, false_implies, iff_true]
    omega
  · rw [hl]
    cases bs with
    | nil => exact absurd rfl h
    | cons b bs =>
      have hl : bs.length = 7 := by simpa using hl
      have hrest := beNat_lt bs
      rw [hl] at hrest
      simp only [beNat_cons, hl, if_true, true_implies, List.head?_cons, Option.mem_some_iff,
        forall_eq']
      omega

/-- Printed bytes are read back exactly when their length is one of an integer
type, without the top bit for eight, or is above eight. -/
theorem parse_render_iff (hd : DecodesHex hx2bBE) (h : 1 ≤ bs.length) :
    valueParse hx2bBE (valueRender bs) bs.length = (0, bs) ↔
      bs.length ∉ [3, 5, 6, 7] ∧ (bs.length = 8 → ∀ b ∈ bs.head?, b.toNat < 128) := by
  have hne : bs ≠ [] := List.ne_nil_of_length_pos h
  by_cases h8 : bs.length ≤ 8
  · by_cases hlen : IntLen bs.length
    · have hodd : bs.length ∉ [3, 5, 6, 7] := by
        rcases hlen with hl | hl | hl | hl <;> rw [hl] <;> decide
      rw [valueParse_rendered_int hne hlen, ← fitsBranch_rendered hne hlen]
      by_cases ha : FitsBranch bs.length (beNat bs)
      · simp [ha, hodd]
      · simp [ha]
    · have hodd : bs.length ∈ [3, 5, 6, 7] := by
        unfold IntLen at hlen
        simp only [List.mem_cons, List.not_mem_nil, or_false]
        omega
      constructor
      · intro he
        have hone : (valueParse hx2bBE (valueRender bs) bs.length).1 = 1 :=
          valueParse_rendered_odd hne h8 hlen
        rw [he] at hone
        cases hone
      · intro he
        exact absurd hodd he.1
  · rw [valueParse_rendered_long hd (by omega)]
    have hodd : bs.length ∉ [3, 5, 6, 7] := by
      simp only [List.mem_cons, List.not_mem_nil, or_false]
      omega
    simp [hodd, show bs.length ≠ 8 by omega]

/-- A decoder: two digits make a byte. -/
def hexPairs : List Char → Bytes
  | a :: b :: cs => UInt8.ofNat (digitValue a * 16 + digitValue b) :: hexPairs cs
  | _ => []

/-- It skips `0x` and wants as many digits as there is room for. -/
def decodeHex (value : Text) (len : Nat) : Option { bs : Bytes // bs.length = len } :=
  if h : (hexPairs (value.toList.drop 2)).length = len then
    some ⟨hexPairs (value.toList.drop 2), h⟩
  else none

theorem hexPairs_rendered (bs : Bytes) : hexPairs (bs.flatMap hexOfByte) = bs := by
  induction bs with
  | nil => rfl
  | cons b bs ih =>
    have hb := b.toNat_lt
    simp only [List.flatMap_cons, hexOfByte, List.cons_append, List.nil_append, hexPairs, ih,
      digitValue_digitChar (show b.toNat / 16 < 16 by omega),
      digitValue_digitChar (show b.toNat % 16 < 16 by omega),
      show b.toNat / 16 * 16 + b.toNat % 16 = b.toNat by omega, UInt8.ofNat_toNat]

theorem decodeHex_decodes : DecodesHex decodeHex where
  decodes := by
    intro bs h
    have hpairs : hexPairs ((valueRender bs).toList.drop 2) = bs := by
      rw [valueRender_toList h]
      exact hexPairs_rendered bs
    simp [decodeHex, hpairs]

theorem parse_render_two : valueParse decodeHex (valueRender [0xc0, 0xa8]) 2 = (0, [0xc0, 0xa8]) ↔
    [0xc0, 0xa8].length ∉ [3, 5, 6, 7] ∧
      ([0xc0, 0xa8].length = 8 → ∀ b ∈ [(0xc0 : UInt8), 0xa8].head?, b.toNat < 128) :=
  parse_render_iff decodeHex_decodes (by decide)

/-- Three printed bytes are an integer of a length that has no type. -/
theorem three_bytes_rejected :
    ¬ ∀ (hx2bBE : Text → (len : Nat) → Option { bs : Bytes // bs.length = len }) (bs : Bytes),
      DecodesHex hx2bBE → 1 ≤ bs.length →
      valueParse hx2bBE (valueRender bs) bs.length = (0, bs) := by
  intro h
  have hone := h decodeHex [1, 2, 3] decodeHex_decodes (by decide)
  have hodd : (valueParse decodeHex (valueRender [1, 2, 3]) [(1 : UInt8), 2, 3].length).1 = 1 :=
    valueParse_rendered_odd (by simp) (by decide) (by unfold IntLen; decide)
  rw [hone] at hodd
  cases hodd

end RoundTrip

end Xdpacket
