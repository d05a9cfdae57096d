import Xdpacket.Proofs.Ipv6

namespace Xdpacket

open RegularExpression

section Ipv4

/-- The dotted quad of four octets. -/
def quadText (a b c d : UInt8) : List Char :=
  Nat.toDigits 10 a.toNat ++ '.' :: (Nat.toDigits 10 b.toNat ++ '.' ::
    (Nat.toDigits 10 c.toNat ++ '.' :: Nat.toDigits 10 d.toNat))

theorem digitChar_decimal {d : Nat} (h : d < 10) :
    '0' ≤ Nat.digitChar d ∧ Nat.digitChar d ≤ '9' := by
  have hall : ∀ d < 10, '0' ≤ Nat.digitChar d ∧ Nat.digitChar d ≤ '9' := by decide
  exact hall d h

/-- A printed octet is read as one. -/
theorem pton4Loop_octet {n : Nat} (hn : n < 256) (rest : List Char) {octets : Bytes}
    (ho : octets.length < 4) :
    pton4Loop (Nat.toDigits 10 n ++ rest) octets none = pton4Loop rest octets (some n) := by
  induction n using Nat.strong_induction_on generalizing rest with
  | _ n ih =>
    rw [Nat.toDigits_eq_if (by decide)]
    split
    · rename_i hlt
      rw [List.singleton_append, pton4Loop, if_pos (digitChar_decimal hlt),
        digitValue_digitChar (by omega)]
      simp [show ¬ 255 < n by omega, show ¬ 4 < octets.length + 1 by omega]
    · have hmod : n % 10 < 10 := Nat.mod_lt _ (by decide)
      rw [List.append_assoc, ih (n / 10) (by omega) (by omega), List.singleton_append, pton4Loop,
        if_pos (digitChar_decimal hmod), digitValue_digitChar (by omega)]
      simp [show ¬ n < 10 by omega, show n / 10 * 10 + n % 10 = n by omega,
        show ¬ 255 < n by omega]

theorem inetPton4_quad (a b c d : UInt8) : inetPton4 (quadText a b c d) = some [a, b, c, d] := by
  have hdot : ∀ (src : List Char) (octets : Bytes) (v : UInt8), octets.length < 3 →
      pton4Loop ('.' :: src) octets (some v.toNat) = pton4Loop src (octets ++ [v]) none := by
    intro src octets v ho
    simp [pton4Loop, show octets.length ≠ 3 by omega]
  have hend : pton4Loop (Nat.toDigits 10 d.toNat ++ []) [a, b, c] none =
      pton4Loop [] [a, b, c] (some d.toNat) := pton4Loop_octet d.toNat_lt [] (by simp)
  rw [List.append_nil] at hend
  rw [inetPton4, quadText, pton4Loop_octet a.toNat_lt _ (by decide), hdot _ _ _ (by decide),
    pton4Loop_octet b.toNat_lt _ (by simp), hdot _ _ _ (by simp),
    pton4Loop_octet c.toNat_lt _ (by simp), hdot _ _ _ (by simp)]
  simp only [List.nil_append, List.cons_append]
  rw [hend]
  simp [pton4Loop]

theorem octet_digits (a : UInt8) : ∀ c ∈ Nat.toDigits 10 a.toNat, c ∈ decDigits :=
  fun c hc => (mem_decDigits c).mpr (toDigits_below (by decide) (by decide) c hc)

theorem octet_length (a : UInt8) :
    1 ≤ (Nat.toDigits 10 a.toNat).length ∧ (Nat.toDigits 10 a.toNat).length ≤ 3 := by
  have hall : ∀ n < 256, 1 ≤ (Nat.toDigits 10 n).length ∧ (Nat.toDigits 10 n).length ≤ 3 := by
    decide +kernel
  exact hall _ a.toNat_lt

theorem txtIpv4_colonless : Over (· ≠ ':') txtIpv4 :=
  ((Over.oneOf (by decide)).between.mul (Over.char (by decide))).pow.mul
    (Over.many1_oneOf (by decide))

theorem quadText_matches (a b c d : UInt8) : quadText a b c d ∈ txtIpv4.matches' := by
  have hoctet : ∀ a : UInt8, Nat.toDigits 10 a.toNat ++ ['.'] ∈
      (between (oneOf decDigits) 1 2 * char '.').matches' := by
    intro a
    exact matches_mul.mpr ⟨_, matches_between_oneOf.mpr
      ⟨(octet_length a).1, (octet_length a).2, octet_digits a⟩, _, matches_char.mpr rfl, rfl⟩
  have hlast : Nat.toDigits 10 d.toNat ∈ (many1 (oneOf decDigits)).matches' :=
    matches_many1_oneOf.mpr ⟨List.ne_nil_of_length_pos (octet_length d).1, octet_digits d⟩
  have hthree := matches_pow_succ.mpr ⟨_, hoctet a, _, matches_pow_succ.mpr ⟨_, hoctet b, _,
    matches_pow_succ.mpr ⟨_, hoctet c, _, matches_pow_zero.mpr rfl, rfl⟩, rfl⟩, rfl⟩
  exact matches_mul.mpr ⟨_, hthree, _, hlast, by simp [quadText]⟩

end Ipv4

section Mac

/-- Groups of two digits, with a colon between two of them. -/
def macText : List (Char × Char) → List Char
  | [] => []
  | [(a, b)] => [a, b]
  | (a, b) :: group :: groups => a :: b :: ':' :: macText (group :: groups)

def macByte (group : Char × Char) : UInt8 :=
  UInt8.ofNat (digitValue group.1 * 16 + digitValue group.2)

/-- Both characters are hex digits. -/
def HexGroup (group : Char × Char) : Prop := digitValue group.1 < 16 ∧ digitValue group.2 < 16

theorem scanHex_macText {groups : List (Char × Char)} (h : ∀ g ∈ groups, HexGroup g) :
    scanHex groups.length (macText groups) = some (groups.map macByte) := by
  have hbyte : ∀ g : Char × Char, HexGroup g →
      takeDigits 16 [g.1, g.2] 0 = digitValue g.1 * 16 + digitValue g.2 := by
    intro g hg
    simp [takeDigits, hg.1, hg.2]
  induction groups with
  | nil => rfl
  | cons g groups ih =>
    have hg := h g (by simp)
    have ih := ih (fun g hm => h g (by simp [hm]))
    cases groups with
    | nil =>
      have htake : [g.1, g.2].takeWhile (fun c => digitValue c < 16) = [g.1, g.2] := by
        simp [List.takeWhile, hg.1, hg.2]
      simp [macText, scanHex, htake, hbyte g hg, macByte]
    | cons g' groups =>
      have hcolon : ¬ digitValue ':' < 16 := by decide
      have htake : (g.1 :: g.2 :: ':' :: macText (g' :: groups)).takeWhile
          (fun c => digitValue c < 16) = [g.1, g.2] := by
        simp [List.takeWhile, hg.1, hg.2, hcolon]
      rw [List.length_cons] at ih
      rw [List.length_cons, macText, scanHex, List.length_cons]
      simp [htake, hbyte g hg, ih, macByte]

theorem group_matches {g : Char × Char} (h : HexGroup g) :
    [g.1, g.2] ∈ (oneOf hexDigits ^ 2).matches' := by
  refine matches_pow_oneOf.mpr ⟨rfl, ?_⟩
  simp [mem_hexDigits, h.1, h.2]

theorem macText_matches {n : Nat} {groups : List (Char × Char)} (hn : groups.length = n + 1)
    (h : ∀ g ∈ groups, HexGroup g) :
    macText groups ∈ ((oneOf hexDigits ^ 2 * char ':') ^ n * oneOf hexDigits ^ 2).matches' := by
  induction groups generalizing n with
  | nil => cases hn
  | cons g groups ih =>
    have hg := group_matches (h g (by simp))
    cases groups with
    | nil =>
      obtain rfl : n = 0 := by simpa using hn.symm
      exact matches_mul.mpr ⟨[], matches_pow_zero.mpr rfl, _, hg, rfl⟩
    | cons g' groups =>
      obtain ⟨m, rfl⟩ : ∃ m, n = m + 1 := ⟨groups.length, by simpa using hn.symm⟩
      obtain ⟨ys, hy, zs, hz, he⟩ := matches_mul.mp
        (ih (n := m) (by simpa using hn) (fun g hm => h g (by simp [hm])))
      refine matches_mul.mpr ⟨[g.1, g.2] ++ [':'] ++ ys, matches_pow_succ.mpr ⟨_,
        matches_mul.mpr ⟨_, hg, _, matches_char.mpr rfl, rfl⟩, ys, hy, rfl⟩, zs, hz, ?_⟩
      rw [List.append_assoc, he]
      rfl

/-- The MAC expression has no dot in it. -/
theorem txtMac_dotless : Over (· ≠ '.') txtMac :=
  ((Over.oneOf (by decide)).pow.mul (Over.char (by decide))).pow.mul (Over.oneOf (by decide)).pow

end Mac

/-- The standard texts of addresses, and the bytes in network order. Those of
IPv6 are all that `inet_pton` accepts without an embedded dotted quad. -/
inductive AddressText : Text → Bytes → Prop where
  | ipv4 (a b c d : UInt8) : AddressText (String.ofList (quadText a b c d)) [a, b, c, d]
  | mac (groups : List (Char × Char)) (six : groups.length = 6)
      (digits : ∀ g ∈ groups, HexGroup g) :
      AddressText (String.ofList (macText groups)) (groups.map macByte)
  | ipv6 (text addr) (accepted : inetPton6 text.toList = some addr) (dotless : '.' ∉ text.toList) :
      AddressText text addr

section ValueParse

variable {hx2bBE : Text → (len : Nat) → Option { bs : Bytes // bs.length = len }} {value : Text}
  {len : Nat} {addr : Bytes}

theorem valueParse_ipv4 (hm : value.toList ∈ txtIpv4.matches')
    (h : inetPton4 value.toList = some addr) (h1 : 1 ≤ len) (h4 : len ≤ 4) :
    valueParse hx2bBE value len = (0, addr.take len) := by
  have hr : regexec txtIpv4 value = true := (regexec_iff _ _).mpr hm
  rw [valueParse, valueParseBytes, if_neg (by omega), if_pos ⟨h4, hr⟩, h]
  rfl

theorem valueParse_mac (hm : value.toList ∈ txtMac.matches')
    (h : scanHex 6 value.toList = some addr) (h1 : 1 ≤ len) (h6 : len ≤ 6) :
    valueParse hx2bBE value len = (0, addr.take len) := by
  have hr : regexec txtMac value = true := (regexec_iff _ _).mpr hm
  have h4 : regexec txtIpv4 value = false := by
    rw [regexec_eq_false]
    exact fun h4 => txtMac_dotless _ hm '.' (txtIpv4_dot _ h4) rfl
  rw [valueParse, valueParseBytes, if_neg (by omega), h4, if_neg (by simp), if_pos ⟨h6, hr⟩, h]
  rfl

theorem valueParseChars_eq (value : Text) (len : Nat) : valueParseChars value len =
    if len ≤ (textBytes value).length then some ((textBytes value).take len) else none := by
  unfold valueParseChars
  by_cases hlen : len ≤ (textBytes value).length
  · rw [if_pos hlen]
    by_cases heq : len = (textBytes value).length
    · simp [← heq]
    · simp [show min (textBytes value).length (len + 1) = len + 1 by omega]
  · have hmin : min (textBytes value).length (len + 1) = (textBytes value).length := by omega
    simp only [hmin, if_neg (show ¬ len < (textBytes value).length by omega), if_neg hlen]
    rw [if_pos (by omega)]

/-- An IPv6 text is left to its own expression, and to the last branch. -/
theorem valueParseBytes_ipv6 (h : inetPton6 value.toList = some addr) (hdot : '.' ∉ value.toList)
    (h1 : 1 ≤ len) (h16 : len ≤ 16) : valueParseBytes hx2bBE value len =
      if EdgeColons value.toList then valueParseChars value len else some (addr.take len) := by
  have hcolon := accepted_colon h hdot
  have h4 : regexec txtIpv4 value = false := by
    rw [regexec_eq_false]
    exact fun hm => hdot (txtIpv4_dot _ hm)
  have h6 : regexec txtMac value = false := by
    rw [regexec_eq_false]
    exact accepted_not_mac h
  have hi : regexec txtInt value = false := by
    rw [regexec_eq_false]
    exact fun hm => (txtInt_plain _ hm ':' hcolon).2 rfl
  have hx : regexec txtHex value = false := by
    rw [regexec_eq_false]
    exact fun hm => (txtHex_plain _ hm ':' hcolon).2 rfl
  rw [valueParseBytes, if_neg (by omega), h4, if_neg (by simp), h6, if_neg (by simp), hi,
    if_neg (by simp)]
  by_cases hedge : EdgeColons value.toList
  · have hr : regexec txtIpv6 value = false := by
      rw [regexec_eq_false]
      exact fun hm => txtIpv6_not_edge hm hedge
    simp [hr, hx, hedge]
  · have hr : regexec txtIpv6 value = true :=
      (regexec_iff _ _).mpr (txtIpv6_of_accepted h hdot hedge)
    simp [hr, h, h16, hedge]

theorem textBytes_ne_zero (h : ∀ c ∈ value.toList, c ∈ ':' :: hexDigits) : 0 ∉ textBytes value := by
  intro hm
  obtain ⟨c, hc, hb⟩ := List.mem_flatMap.mp hm
  have hall : (':' :: hexDigits).all (fun c => 0 ∉ String.utf8EncodeChar c) := by decide
  exact List.all_iff_forall_prop.mp hall c (h c hc) hb

/-- The characters of the text happen to be the bytes asked for, which takes
less than a whole IPv6 address. -/
def Coincides (value : Text) (addr : Bytes) (len : Nat) : Prop :=
  len < 16 ∧ len ≤ (textBytes value).length ∧ (textBytes value).take len = addr.take len

theorem coincides_iff (h : inetPton6 value.toList = some addr) (hdot : '.' ∉ value.toList)
    (h16 : len ≤ 16) (hedge : EdgeColons value.toList) :
    valueParseChars value len = some (addr.take len) ↔ Coincides value addr len := by
  rw [valueParseChars_eq, Coincides]
  constructor
  · intro he
    split at he
    · rename_i hlen
      have heq := Option.some.inj he
      refine ⟨?_, hlen, heq⟩
      by_contra hfull
      obtain rfl : len = 16 := by omega
      rw [List.take_of_length_le (length_inetPton6 h hdot).le] at heq
      exact textBytes_ne_zero (accepted_chars h hdot)
        (List.mem_of_mem_take (heq ▸ zero_of_edge h hdot hedge))
    · cases he
  · intro ⟨_, hlen, heq⟩
    rw [if_pos hlen, heq]

/-- Every address text is read as its address, whole or in part, but for IPv6
texts with `::` at an edge. -/
theorem address_iff (h : AddressText value addr) (h1 : 1 ≤ len) (hl : len ≤ addr.length) :
    valueParse hx2bBE value len = (0, addr.take len) ↔
      ¬ EdgeColons value.toList ∨ Coincides value addr len := by
  cases h with
  | ipv4 a b c d =>
    have hm := quadText_matches a b c d
    have hplain : ¬ EdgeColons (quadText a b c d) := by
      intro ⟨hedge, _, _⟩
      have hcolon : ':' ∈ quadText a b c d := by
        rcases hedge with ⟨rest, he⟩ | ⟨rest, he⟩ <;> simp [← he]
      exact txtIpv4_colonless _ hm ':' hcolon rfl
    rw [String.toList_ofList]
    simp only [hplain, not_false_eq_true, true_or, iff_true]
    exact valueParse_ipv4 (by rwa [String.toList_ofList])
      (by rw [String.toList_ofList, inetPton4_quad]) h1 hl
  | mac groups six digits =>
    have hm : macText groups ∈ txtMac.matches' := macText_matches six digits
    have hplain : ¬ EdgeColons (macText groups) := by
      intro ⟨hedge, _, _⟩
      exact hedge.elim (txtMac_ends hm).1 (txtMac_ends hm).2
    have hscan := scanHex_macText digits
    rw [six] at hscan
    rw [List.length_map, six] at hl
    rw [String.toList_ofList]
    simp only [hplain, not_false_eq_true, true_or, iff_true]
    exact valueParse_mac (by rwa [String.toList_ofList])
      (by rw [String.toList_ofList, hscan]) h1 hl
  | ipv6 _ _ accepted dotless =>
    have h16 : len ≤ 16 := length_inetPton6 accepted dotless ▸ hl
    rw [valueParse, valueParseBytes_ipv6 accepted dotless h1 h16]
    by_cases hedge : EdgeColons value.toList
    · rw [if_pos hedge, ← coincides_iff accepted dotless h16 hedge]
      cases hc : valueParseChars value len with
      | none => simp [hedge]
      | some bs => simp [hedge]
    · simp [hedge]

/-- The network of a private address. -/
theorem address_private :
    valueParse (fun _ _ => none) (String.ofList (quadText 192 168 0 1)) 2 =
        (0, [(192 : UInt8), 168, 0, 1].take 2) ↔
      ¬ EdgeColons (String.ofList (quadText 192 168 0 1)).toList ∨
        Coincides (String.ofList (quadText 192 168 0 1)) [192, 168, 0, 1] 2 :=
  address_iff (.ipv4 192 168 0 1) (by decide) (by decide)

/-- `fe80::` is taken for a series of characters, of which it has too few. -/
theorem trailing_colons_rejected :
    ¬ ∀ (hx2bBE : Text → (len : Nat) → Option { bs : Bytes // bs.length = len }) (value : Text)
      (addr : Bytes) (len : Nat), AddressText value addr → 1 ≤ len → len ≤ addr.length →
      valueParse hx2bBE value len = (0, addr.take len) := by
  intro h
  have haccepted : inetPton6 "fe80::".toList =
      some ([0xfe, 0x80] ++ List.replicate 14 0) := by decide
  have hone := h (fun _ _ => none) "fe80::" _ 16 (.ipv6 _ _ haccepted (by decide)) (by decide)
    (by decide)
  have hchars : valueParseBytes (fun _ _ => none) "fe80::" 16 = none := by
    rw [valueParseBytes_ipv6 haccepted (by decide) (by decide) (by decide), if_pos (by decide)]
    decide
  rw [valueParse, hchars] at hone
  exact absurd (congrArg Prod.fst hone) Nat.one_ne_zero

end ValueParse

end Xdpacket
