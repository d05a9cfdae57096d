import Xdpacket.Proofs.OpSemantics

namespace Xdpacket

section Wrapping

variable {w : Nat} {i : Int}

theorem toNat_ofInt_inside (h : 0 ≤ i) (hi : i < (2 ^ w : Nat)) :
    ((BitVec.ofInt w i).toNat : Int) = i := by
  rw [BitVec.toNat_ofInt, Int.emod_eq_of_lt h hi, Int.toNat_of_nonneg h]

/-- An address below zero comes back from the top. -/
theorem toNat_ofInt_below (h : -(2 ^ w : Nat) ≤ i) (hi : i < 0) :
    ((BitVec.ofInt w i).toNat : Int) = i + (2 ^ w : Nat) := by
  have hmod : i % (2 ^ w : Nat) = i + (2 ^ w : Nat) := by
    rw [← Int.add_emod_right, Int.emod_eq_of_lt (by omega) (by omega)]
  rw [BitVec.toNat_ofInt, hmod, Int.toNat_of_nonneg (by omega)]

/-- An address past the top starts again at zero. -/
theorem toNat_ofInt_above (h : (2 ^ w : Nat) ≤ i) (hi : i < 2 * (2 ^ w : Nat)) :
    ((BitVec.ofInt w i).toNat : Int) = i - (2 ^ w : Nat) := by
  have hmod : i % (2 ^ w : Nat) = i - (2 ^ w : Nat) := by
    rw [← Int.sub_emod_right, Int.emod_eq_of_lt (by omega) (by omega)]
  rw [BitVec.toNat_ofInt, hmod, Int.toNat_of_nonneg (by omega)]

end Wrapping

variable {w : Nat} {pkt plen : BitVec w} {set : FieldSet}

/-- The address of the first byte of a field, in exact integers. -/
def fieldAddr (pkt plen : BitVec w) (set : FieldSet) : Int := pkt.toNat + set.start plen.toNat

/-- All sums of `op_pkt_offset` are the exact ones, reduced once. -/
theorem opPktOffsetAt_eq (pkt plen : BitVec w) (set : FieldSet) :
    opPktOffsetAt pkt plen set =
      if BitVec.ofInt w (fieldAddr pkt plen set) < pkt then 0#w
      else if BitVec.ofInt w (fieldAddr pkt plen set + set.len.toNat) >
        BitVec.ofInt w (pkt.toNat + plen.toNat) then 0#w
      else BitVec.ofInt w (fieldAddr pkt plen set) := by
  have hpkt : pkt = BitVec.ofInt w pkt.toNat := by simp
  have hplen : plen = BitVec.ofInt w plen.toNat := by simp
  have hstart : (if set.offt.toInt < 0 then pkt + BitVec.ofInt w set.offt.toInt + plen
      else pkt + BitVec.ofInt w set.offt.toInt) = BitVec.ofInt w (fieldAddr pkt plen set) := by
    unfold fieldAddr FieldSet.start
    split
    · rename_i hneg
      rw [if_neg (by omega), BitVec.ofInt_add, BitVec.ofInt_add, ← hpkt, ← hplen]
      ac_rfl
    · rename_i hpos
      rw [if_pos (by omega), BitVec.ofInt_add, ← hpkt]
  have hlen : BitVec.ofNat w set.len.toNat = BitVec.ofInt w set.len.toNat := by simp
  have hend : BitVec.ofInt w (pkt.toNat + plen.toNat) = pkt + plen := by
    rw [BitVec.ofInt_add, ← hpkt, ← hplen]
  unfold opPktOffsetAt
  simp only [hstart, hlen, ← BitVec.ofInt_add, hend]

theorem opPktOffsetAt_ne_zero : opPktOffsetAt pkt plen set ≠ 0#w ↔
    pkt.toNat ≤ (BitVec.ofInt w (fieldAddr pkt plen set)).toNat ∧
      (BitVec.ofInt w (fieldAddr pkt plen set + set.len.toNat)).toNat ≤
        (BitVec.ofInt w (pkt.toNat + plen.toNat)).toNat ∧
      (BitVec.ofInt w (fieldAddr pkt plen set)).toNat ≠ 0 := by
  rw [opPktOffsetAt_eq]
  by_cases hstart : BitVec.ofInt w (fieldAddr pkt plen set) < pkt
  · rw [if_pos hstart]
    have := BitVec.lt_def.mp hstart
    constructor
    · intro h
      exact absurd rfl h
    · intro h
      omega
  rw [if_neg hstart]
  rw [BitVec.lt_def] at hstart
  by_cases hend : BitVec.ofInt w (fieldAddr pkt plen set + set.len.toNat) >
      BitVec.ofInt w (pkt.toNat + plen.toNat)
  · rw [if_pos hend]
    have := BitVec.lt_def.mp hend
    constructor
    · intro h
      exact absurd rfl h
    · intro h
      omega
  · rw [if_neg hend, ne_eq, ← BitVec.toNat_inj, BitVec.toNat_ofNat, Nat.zero_mod]
    rw [gt_iff_lt, BitVec.lt_def] at hend
    omega

theorem opPktOffsetAt_addr (h : opPktOffsetAt pkt plen set ≠ 0#w) :
    opPktOffsetAt pkt plen set = BitVec.ofInt w (fieldAddr pkt plen set) := by
  rw [opPktOffsetAt_eq] at h ⊢
  split at h
  · exact absurd rfl h
  · rename_i hstart
    split at h
    · exact absurd rfl h
    · rename_i hend
      rw [if_neg hstart, if_neg hend]

/-- The field reaches round an end of the address space, or touches it. -/
inductive GoesRound (pkt plen : BitVec w) (set : FieldSet) : Prop where
  /-- the field starts at address zero, which is null -/
  | null (addr : fieldAddr pkt plen set = 0) (base : pkt.toNat = 0)
      (fits : set.len.toNat ≤ plen.toNat)
  /-- it starts below address zero and ends above -/
  | below (addr : fieldAddr pkt plen set < 0) (ends : 0 ≤ fieldAddr pkt plen set + set.len.toNat)
      (fits : set.start plen.toNat + set.len.toNat ≤ plen.toNat)
  /-- it starts in the address space and ends past it -/
  | above (start : 0 ≤ set.start plen.toNat) (addr : fieldAddr pkt plen set < (2 ^ w : Nat))
      (ends : (2 ^ w : Nat) ≤ fieldAddr pkt plen set + set.len.toNat)
      (room : pkt.toNat + plen.toNat < 2 ^ w)
  /-- the packet ends with the address space, and the field before that, or is empty -/
  | top (limit : pkt.toNat + plen.toNat = 2 ^ w) (start : 0 ≤ set.start plen.toNat)
      (fits : set.start plen.toNat + set.len.toNat ≤ plen.toNat)
      (short : set.start plen.toNat + set.len.toNat < plen.toNat ∨ set.len.toNat = 0)

theorem fits_none (set : FieldSet) (plen : Nat) : Fits none set plen ↔
    0 ≤ set.start plen ∧ set.start plen + set.len.toNat ≤ plen := by
  simp [Fits]

/-- Null exactly where the field does not fit, and else the address of its first byte. -/
structure OffsetExact (pkt plen : BitVec w) (set : FieldSet) : Prop where
  fits : opPktOffsetAt pkt plen set ≠ 0#w ↔ Fits none set plen.toNat
  addr : opPktOffsetAt pkt plen set ≠ 0#w →
    ((opPktOffsetAt pkt plen set).toNat : Int) = pkt.toNat + set.start plen.toNat

theorem OffsetExact.refused (hz : ¬ opPktOffsetAt pkt plen set ≠ 0#w)
    (hout : ¬ Fits none set plen.toNat) : OffsetExact pkt plen set :=
  ⟨⟨fun h => absurd h hz, fun h => absurd h hout⟩, fun h => absurd h hz⟩

theorem start_range (set : FieldSet) (plen : Nat) :
    0 ≤ set.start plen ∧ set.start plen < 2 ^ 31 ∨
      plen - 2 ^ 31 ≤ set.start plen ∧ set.start plen < plen := by
  have hlo := set.offt.le_toInt
  have hhi := set.offt.toInt_lt
  unfold FieldSet.start
  split <;> omega

section Ranges

variable (hw : 32 ≤ w) (hl : pkt.toNat + plen.toNat ≤ 2 ^ w)
include hw hl

/-- A field that starts below address zero passes when its end is back above. -/
theorem ne_zero_below (ha : fieldAddr pkt plen set < 0) :
    opPktOffsetAt pkt plen set ≠ 0#w ↔ 0 ≤ fieldAddr pkt plen set + set.len.toNat ∧
      set.start plen.toNat + set.len.toNat ≤ plen.toNat := by
  have hW : 2 ^ 32 ≤ 2 ^ w := Nat.pow_le_pow_right (by decide) hw
  have hn := set.len.toNat_lt
  have hrange := start_range set plen.toNat
  have hr : fieldAddr pkt plen set = pkt.toNat + set.start plen.toNat := rfl
  have hstart := toNat_ofInt_below (w := w) (by omega) ha
  have hlimit := toNat_ofInt_inside (w := w) (i := pkt.toNat + plen.toNat) (by omega) (by omega)
  rw [opPktOffsetAt_ne_zero]
  by_cases he : fieldAddr pkt plen set + set.len.toNat < 0
  · have hend := toNat_ofInt_below (w := w) (by omega) he
    omega
  · have hend := toNat_ofInt_inside (w := w) (Int.not_lt.mp he) (by omega)
    omega

/-- Inside the address space the start is checked; the end is as long as no sum wraps. -/
theorem ne_zero_inside (h0 : 0 ≤ fieldAddr pkt plen set)
    (ha : fieldAddr pkt plen set < (2 ^ w : Nat)) :
    opPktOffsetAt pkt plen set ≠ 0#w ↔ 0 ≤ set.start plen.toNat ∧ 0 < fieldAddr pkt plen set ∧
      (pkt.toNat + plen.toNat < 2 ^ w ∧ (set.start plen.toNat + set.len.toNat ≤ plen.toNat ∨
          (2 ^ w : Nat) ≤ fieldAddr pkt plen set + set.len.toNat) ∨
        pkt.toNat + plen.toNat = 2 ^ w ∧
          fieldAddr pkt plen set + set.len.toNat = (2 ^ w : Nat)) := by
  have hW : 2 ^ 32 ≤ 2 ^ w := Nat.pow_le_pow_right (by decide) hw
  have hn := set.len.toNat_lt
  have hrange := start_range set plen.toNat
  have hr : fieldAddr pkt plen set = pkt.toNat + set.start plen.toNat := rfl
  have hstart := toNat_ofInt_inside (w := w) h0 ha
  rw [opPktOffsetAt_ne_zero]
  by_cases he : fieldAddr pkt plen set + set.len.toNat < (2 ^ w : Nat)
  · have hend := toNat_ofInt_inside (w := w) (by omega) he
    by_cases hroom : pkt.toNat + plen.toNat < 2 ^ w
    · have hlimit := toNat_ofInt_inside (w := w) (i := pkt.toNat + plen.toNat) (by omega) (by omega)
      omega
    · have hlimit := toNat_ofInt_above (w := w) (i := pkt.toNat + plen.toNat) (by omega) (by omega)
      omega
  · have hend := toNat_ofInt_above (w := w) (Int.not_lt.mp he) (by omega)
    by_cases hroom : pkt.toNat + plen.toNat < 2 ^ w
    · have hlimit := toNat_ofInt_inside (w := w) (i := pkt.toNat + plen.toNat) (by omega) (by omega)
      omega
    · have hlimit := toNat_ofInt_above (w := w) (i := pkt.toNat + plen.toNat) (by omega) (by omega)
      omega

/-- A field that starts past the address space comes out in front of the packet. -/
theorem eq_zero_above (ha : (2 ^ w : Nat) ≤ fieldAddr pkt plen set) :
    ¬ opPktOffsetAt pkt plen set ≠ 0#w := by
  have hW : 2 ^ 32 ≤ 2 ^ w := Nat.pow_le_pow_right (by decide) hw
  have hrange := start_range set plen.toNat
  have hr : fieldAddr pkt plen set = pkt.toNat + set.start plen.toNat := rfl
  have hplen := plen.isLt
  have hstart := toNat_ofInt_above (w := w) ha (by omega)
  rw [opPktOffsetAt_ne_zero]
  omega

theorem exact_below (ha : fieldAddr pkt plen set < 0) :
    OffsetExact pkt plen set ↔ ¬ GoesRound pkt plen set := by
  have hr : fieldAddr pkt plen set = pkt.toNat + set.start plen.toNat := rfl
  have hne := ne_zero_below hw hl ha
  have hout : ¬ Fits none set plen.toNat := by
    rw [fits_none]
    omega
  constructor
  · intro hexact hround
    cases hround with
    | null addr => omega
    | below _ ends fits => exact hout (hexact.fits.mp (hne.mpr ⟨ends, fits⟩))
    | above start => omega
    | top _ start => omega
  · intro hround
    have hz : ¬ opPktOffsetAt pkt plen set ≠ 0#w := by
      intro h
      obtain ⟨ends, fits⟩ := hne.mp h
      exact hround (.below ha ends fits)
    exact .refused hz hout

theorem exact_inside (h0 : 0 ≤ fieldAddr pkt plen set)
    (ha : fieldAddr pkt plen set < (2 ^ w : Nat)) :
    OffsetExact pkt plen set ↔ ¬ GoesRound pkt plen set := by
  have hW : 2 ^ 32 ≤ 2 ^ w := Nat.pow_le_pow_right (by decide) hw
  have hn := set.len.toNat_lt
  have hr : fieldAddr pkt plen set = pkt.toNat + set.start plen.toNat := rfl
  have hne := ne_zero_inside hw hl h0 ha
  have hfits := fits_none set plen.toNat
  constructor
  · intro hexact hround
    have hboth := hexact.fits
    rw [hne, hfits] at hboth
    cases hround with
    | null addr base fits =>
      have := hboth.mpr (by omega)
      omega
    | below addr => omega
    | above start _ ends room =>
      have := hboth.mp ⟨start, by omega, .inl ⟨room, .inr ends⟩⟩
      omega
    | top limit start fits short =>
      have := hboth.mpr ⟨start, fits⟩
      omega
  · intro hround
    refine ⟨?_, ?_⟩
    · rw [hne, hfits]
      constructor
      · intro h
        obtain ⟨hs, -, ⟨hroom, hend | hend⟩ | ⟨hlimit, hend⟩⟩ := h
        · exact ⟨hs, hend⟩
        · exact absurd (.above hs ha hend hroom) hround
        · omega
      · intro h
        obtain ⟨hs, hend⟩ := h
        have hnull : fieldAddr pkt plen set ≠ 0 := by
          intro h
          exact hround (.null h (by omega) (by omega))
        refine ⟨hs, by omega, ?_⟩
        by_cases hroom : pkt.toNat + plen.toNat < 2 ^ w
        · exact .inl ⟨hroom, .inl hend⟩
        · have hlast : ¬ set.start plen.toNat + set.len.toNat < plen.toNat := by
            intro h
            exact hround (.top (by omega) hs hend (.inl h))
          exact .inr (by omega)
    · intro h
      rw [opPktOffsetAt_addr h]
      exact toNat_ofInt_inside h0 ha

theorem exact_above (ha : (2 ^ w : Nat) ≤ fieldAddr pkt plen set) :
    OffsetExact pkt plen set ↔ ¬ GoesRound pkt plen set := by
  have hr : fieldAddr pkt plen set = pkt.toNat + set.start plen.toNat := rfl
  have hz := eq_zero_above hw hl ha
  have hfits := fits_none set plen.toNat
  have hlt := plen.isLt
  constructor
  · intro hexact hround
    cases hround with
    | null addr => omega
    | below addr => omega
    | above _ addr => omega
    | top _ start fits => exact hz (hexact.fits.mpr (hfits.mpr ⟨start, fits⟩))
  · intro hround
    have hout : ¬ Fits none set plen.toNat := by
      intro h
      obtain ⟨hs, hend⟩ := hfits.mp h
      exact hround (.top (by omega) hs hend (.inr (by omega)))
    exact .refused hz hout

/-- The check on machine addresses is the exact one unless the field goes round. -/
theorem offset_exact_iff (set : FieldSet) :
    OffsetExact pkt plen set ↔ ¬ GoesRound pkt plen set := by
  by_cases h0 : fieldAddr pkt plen set < 0
  · exact exact_below hw hl h0
  by_cases ha : fieldAddr pkt plen set < (2 ^ w : Nat)
  · exact exact_inside hw hl (Int.not_lt.mp h0) ha
  · exact exact_above hw hl (Int.not_lt.mp ha)

end Ranges

/-- Away from the ends of the address space nothing goes round. -/
theorem not_goesRound (hlow : 2 ^ 31 ≤ pkt.toNat) (hfield : pkt.toNat + 2 ^ 31 + 2 ^ 16 ≤ 2 ^ w)
    (hend : pkt.toNat + plen.toNat + 2 ^ 16 ≤ 2 ^ w) : ¬ GoesRound pkt plen set := by
  have hn := set.len.toNat_lt
  have hrange := start_range set plen.toNat
  have hr : fieldAddr pkt plen set = pkt.toNat + set.start plen.toNat := rfl
  intro hround
  cases hround with
  | null addr base => omega
  | below addr => omega
  | above _ _ ends => omega
  | top limit => omega

/-- There the check on addresses is the check relative to the packet. -/
theorem opPktOffsetAt_relative (hw : 32 ≤ w) (hl : pkt.toNat + plen.toNat ≤ 2 ^ w)
    (hr : ¬ GoesRound pkt plen set) :
    opPktOffsetAt pkt plen set =
      match opPktOffset plen.toNat set with
      | some o => pkt + BitVec.ofNat w o
      | none => 0#w := by
  obtain ⟨hfits, -⟩ := (offset_exact_iff hw hl set).mpr hr
  rw [fits_none] at hfits
  rw [opPktOffset_eq]
  by_cases hin : 0 ≤ set.start plen.toNat ∧ set.start plen.toNat + set.len.toNat ≤ plen.toNat
  · rw [if_pos hin, opPktOffsetAt_addr (hfits.mpr hin), fieldAddr, BitVec.ofInt_add]
    have hs : set.start plen.toNat = ((set.start plen.toNat).toNat : Int) := by omega
    simp only
    rw [hs, BitVec.ofInt_natCast, BitVec.ofInt_natCast, BitVec.ofNat_toNat, BitVec.setWidth_eq]
    rfl
  · rw [if_neg hin]
    by_contra h
    exact hin (hfits.mp h)

/-- A packet on a stack just below 2^32. -/
def stackPkt : BitVec 32 := 0xffff8000#32

/-- A field of 40000 bytes at offset 100. -/
def longField : FieldSet := ⟨100, 40000, 255, 0⟩

theorem offset_exact_stackPkt :
    OffsetExact stackPkt 64#32 longField ↔ ¬ GoesRound stackPkt 64#32 longField :=
  offset_exact_iff (by decide) (by decide) longField

/-- The end of the field comes round to the start of memory, so that it passes. -/
theorem offset_wraps :
    ¬ ∀ w, w = 32 ∨ w = 64 → ∀ pkt plen : BitVec w, pkt.toNat + plen.toNat ≤ 2 ^ w →
      ∀ set, OffsetExact pkt plen set := by
  intro h
  have hexact := h 32 (.inl rfl) stackPkt 64#32 (by decide) longField
  have hin := (fits_none _ _).mp (hexact.fits.mp (by decide))
  revert hin
  decide

end Xdpacket
