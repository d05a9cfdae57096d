import Xdpacket.Model.Value
import Xdpacket.Proofs.Literals

namespace Xdpacket

open RegularExpression

theorem regexec_iff (re : RegularExpression Char) (value : Text) :
    regexec re value = true ↔ value.toList ∈ re.matches' :=
  rmatch_iff_matches' re value.toList

theorem regexec_eq_false (re : RegularExpression Char) (value : Text) :
    regexec re value = false ↔ value.toList ∉ re.matches' := by
  rw [← regexec_iff, Bool.not_eq_true]

section Classes

theorem mem_decDigits (c : Char) : c ∈ decDigits ↔ digitValue c < 10 := by
  constructor
  · have hall : decDigits.all (fun c => digitValue c < 10) := by decide
    exact List.all_iff_forall_prop.mp hall c
  · intro h
    obtain ⟨d, hd, rfl⟩ := digitChar_of_digit h
    have hall : ∀ d < 10, Nat.digitChar d ∈ decDigits := by decide
    exact hall d hd

theorem mem_hexDigits (c : Char) : c ∈ hexDigits ↔ digitValue c < 16 := by
  constructor
  · have hall : hexDigits.all (fun c => digitValue c < 16) := by decide
    exact List.all_iff_forall_prop.mp hall c
  · intro h
    have hsmall : c.toNat < 128 := by
      by_contra hbig
      have hle : ∀ d : Char, d.toNat < 128 → ¬ c ≤ d := fun d hd hc => by
        have : c.toNat ≤ d.toNat := hc
        omega
      rw [digitValue, if_neg (fun hc => hle '9' (by decide) hc.2),
        if_neg (fun hc => hle 'z' (by decide) hc.2), if_neg (fun hc => hle 'Z' (by decide) hc.2)] at h
      omega
    have hall : ∀ n < 128, digitValue (Char.ofNat n) < 16 → Char.ofNat n ∈ hexDigits := by decide
    have := hall c.toNat hsmall
    rw [Char.ofNat_toNat] at this
    exact this h

theorem isSpace_of_mem {c : Char} (h : c ∈ spaces) : isSpace c = true := by
  have hall : spaces.all isSpace := by decide
  exact List.all_eq_true.mp hall c h

end Classes

/-- Neither a dot nor a colon: the mark of the numeric expressions. -/
def Plain (c : Char) : Prop := c ≠ '.' ∧ c ≠ ':'

instance (c : Char) : Decidable (Plain c) := by
  unfold Plain
  infer_instance

theorem txtInt_plain : Over Plain txtInt :=
  (Over.star_oneOf (by decide)).mul (Over.oneOf (by decide)).opt |>.mul
    ((Over.many1_oneOf (by decide)).add
      (((Over.char (by decide)).mul (Over.oneOf (by decide))).mul (Over.many1_oneOf (by decide))))

theorem txtHex_plain : Over Plain txtHex :=
  ((Over.star_oneOf (by decide)).mul (Over.char (by decide))).mul (Over.oneOf (by decide)) |>.mul
    (Over.many1_oneOf (by decide))

theorem txtIpv4_dot : Has '.' txtIpv4 := (Has.right .char).pow.left

theorem txtMac_colon : Has ':' txtMac := (Has.right .char).pow.left

theorem txtIpv6_colon : Has ':' txtIpv6 :=
  ((Has.right (Has.char.add (Has.left .char))).between.left.add (Has.left .char)).add
    (Has.char.left.left)

variable {hx2bBE : Text → (len : Nat) → Option { bs : Bytes // bs.length = len }} {value : Text}
  {len : Nat}

/-- Text that is an integer gets past the address expressions. -/
theorem valueParseBytes_int (hm : value.toList ∈ txtInt.matches') (h1 : 1 ≤ len) (h8 : len ≤ 8) :
    valueParseBytes hx2bBE value len = valueParseInt value len := by
  have h4 : regexec txtIpv4 value = false := by
    rw [regexec_eq_false]
    exact fun h => (txtInt_plain _ hm '.' (txtIpv4_dot _ h)).1 rfl
  have h6 : regexec txtMac value = false := by
    rw [regexec_eq_false]
    exact fun h => (txtInt_plain _ hm ':' (txtMac_colon _ h)).2 rfl
  have hi : regexec txtInt value = true := (regexec_iff _ _).mpr hm
  rw [valueParseBytes, if_neg (by omega), h4, h6, hi]
  simp [h8]

end Xdpacket
