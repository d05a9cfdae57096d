import Xdpacket.Proofs.Cells

namespace Xdpacket

variable {m m' : Mem} {plen n : Nat} {ref : Option Addr} {set : FieldSet} {op : OpSet} {cpy : CopyOrder}
  {p q : Ptr}

/-- Where a field starts in a packet of `plen` bytes, in exact integers. -/
def FieldSet.start (set : FieldSet) (plen : Nat) : Int :=
  if 0 ≤ set.offt.toInt then set.offt.toInt else plen + set.offt.toInt

/-- An operand that is a field of the packet lies inside it. -/
def Fits (ref : Option Addr) (set : FieldSet) (plen : Nat) : Prop :=
  ref = none → 0 ≤ set.start plen ∧ set.start plen + set.len.toNat ≤ plen

/-- A side's operand: a memref from its first byte on, or a field of the packet. -/
def operand (ref : Option Addr) (set : FieldSet) (plen : Nat) : Ptr :=
  match ref with
  | some a => ⟨.memref a, 0⟩
  | none => ⟨.pkt, (set.start plen).toNat⟩

def OpSet.Fits (op : OpSet) (plen : Nat) : Prop :=
  Xdpacket.Fits op.to' op.setTo plen ∧ Xdpacket.Fits op.from' op.setFrom plen

def OpSet.dst (op : OpSet) (plen : Nat) : Ptr := operand op.to' op.setTo plen

def OpSet.src (op : OpSet) (plen : Nat) : Ptr := operand op.from' op.setFrom plen

theorem opPktOffset_eq : opPktOffset plen set =
    if 0 ≤ set.start plen ∧ set.start plen + set.len.toNat ≤ plen then some (set.start plen).toNat
    else none := by
  have hs : (if set.offt.toInt < 0 then set.offt.toInt + plen else set.offt.toInt) =
      set.start plen := by
    unfold FieldSet.start
    split <;> split <;> omega
  unfold opPktOffset
  simp only [hs]
  by_cases hneg : set.start plen < 0
  · rw [if_pos hneg, if_neg (by omega)]
  rw [if_neg hneg]
  by_cases hend : set.start plen + set.len.toNat > plen
  · rw [if_pos hend, if_neg (by omega)]
  · rw [if_neg hend, if_pos (by omega)]

theorem opSide_fits (h : Fits ref set plen) : opSide plen ref set = some (operand ref set plen) := by
  cases ref with
  | some a => rfl
  | none =>
    unfold opSide operand
    simp only
    rw [opPktOffset_eq, if_pos (h rfl)]
    rfl

theorem opSide_none (h : ¬ Fits ref set plen) : opSide plen ref set = none := by
  cases ref with
  | some a => exact absurd (fun hn => by cases hn) h
  | none =>
    unfold opSide
    simp only
    rw [opPktOffset_eq, if_neg (fun hf => h (fun _ => hf))]
    rfl

/-- An operand that fits has all of its bytes. -/
theorem operand_room (hb : m.Backs ref set) (h : Fits ref set m.pkt.length) :
    m.Room (operand ref set m.pkt.length) set.len.toNat := by
  obtain ⟨-, k, hk, hroom⟩ := side_room hb (opSide_fits h)
  rw [hroom]
  cases ref with
  | some a => exact Nat.le_of_eq (Option.some.inj hk)
  | none =>
    obtain ⟨o, ho, hle⟩ := Option.map_eq_some_iff.mp hk
    have := opPktOffset_le ho
    omega

theorem sameKinds_backs {ref : Option Addr} {set : FieldSet} (h : m.SameKinds m')
    (hb : m.Backs ref set) : m'.Backs ref set := by
  intro a ha
  obtain ⟨r, hr, hl⟩ := hb a ha
  have hk := h a
  rw [hr, Option.map_some] at hk
  obtain ⟨r', hr', he⟩ := Option.map_eq_some_iff.mp hk
  exact ⟨r', hr', by rw [(Prod.mk.inj he).2]; exact hl⟩

theorem sameSizes_pkt (h : m.SameSizes m') : m'.pkt.length = m.pkt.length :=
  Option.some.inj (h .pkt)

theorem opCommon_nop_iff : opCommon op plen = .nop ↔ op.extent = 0 := by
  have hx : (if op.setTo.len.toNat > op.setFrom.len.toNat then op.setTo.len.toNat
      else op.setFrom.len.toNat) = op.extent := by
    unfold OpSet.extent
    split <;> omega
  unfold opCommon
  simp only [hx]
  by_cases h : op.extent = 0
  · simp only [h, if_true]
  · rw [if_neg h]
    split
    · exact ⟨fun hc => (by cases hc), fun hc => absurd hc h⟩
    · split
      · exact ⟨fun hc => (by cases hc), fun hc => absurd hc h⟩
      · exact ⟨fun hc => (by cases hc), fun hc => absurd hc h⟩

/-- The lengths of the two sides agree, and each memref has the length of its side. -/
structure OpSet.Sound (op : OpSet) (m : Mem) : Prop where
  equal : op.setTo.len = op.setFrom.len
  to' : m.Backs op.to' op.setTo
  from' : m.Backs op.from' op.setFrom

namespace OpSet.Sound

theorem extent (h : op.Sound m) : op.extent = op.setTo.len.toNat := by
  unfold OpSet.extent
  rw [← h.equal, Nat.max_self]

theorem common (h : op.Sound m) (hn : 1 ≤ op.setTo.len.toNat) (hf : op.Fits plen) :
    opCommon op plen = .span (op.setTo.len.toNat - 1) (op.dst plen) (op.src plen) := by
  rw [← h.extent]
  exact opCommon_span_of (by rw [h.extent]; omega) (opSide_fits hf.1) (opSide_fits hf.2)

theorem common_fail (h : op.Sound m) (hn : 1 ≤ op.setTo.len.toNat) (hf : ¬ op.Fits plen) :
    opCommon op plen = .fail := by
  cases hc : opCommon op plen with
  | fail => rfl
  | nop =>
    have := opCommon_nop_iff.mp hc
    have := h.extent
    omega
  | span len to' from' =>
    obtain ⟨-, hto, hfrom⟩ := opCommon_span hc
    refine absurd ⟨?_, ?_⟩ hf
    · by_contra hn
      rw [opSide_none hn] at hto
      cases hto
    · by_contra hn
      rw [opSide_none hn] at hfrom
      cases hfrom

theorem common_nop (h : op.Sound m) (hn : op.setTo.len.toNat = 0) : opCommon op plen = .nop :=
  opCommon_nop_iff.mpr (by rw [h.extent, hn])

theorem rooms (h : op.Sound m) (hf : op.Fits m.pkt.length) :
    m.Room (op.dst m.pkt.length) op.setTo.len.toNat ∧
      m.Room (op.src m.pkt.length) op.setTo.len.toNat := by
  refine ⟨operand_room h.to' hf.1, ?_⟩
  rw [h.equal]
  exact operand_room h.from' hf.2

end OpSet.Sound

section Writing

/-- `op_write` as if through a temporary: refused and nothing changed, or applied. -/
def WritesAsDocumented (cpy : CopyOrder) (op : OpSet) (m : Mem) : Prop :=
  (¬ op.Fits m.pkt.length → ∃ rc, rc ≠ 0 ∧ opWrite cpy op m = .ok (rc, m)) ∧
  (op.Fits m.pkt.length → ∃ m', opWrite cpy op m = .ok (0, m') ∧
    Transferred op (op.dst m.pkt.length) (op.src m.pkt.length) (op.setTo.len.toNat - 1) m m')

theorem opWrite_refuses (h : op.Sound m) (hn : 1 ≤ op.setTo.len.toNat)
    (hf : ¬ op.Fits m.pkt.length) : opWrite cpy op m = .ok (1, m) := by
  have hrun : Runs (fun _ => False) (opWrite cpy op) m (fun rc m' => rc = 1 ∧ m' = m) := by
    unfold opWrite
    rw [Runs.bind_iff, Runs.get_iff, h.common_fail hn hf]
    exact ⟨rfl, rfl⟩
  obtain ⟨rc, m', hr, rfl, rfl⟩ := hrun.exists_ok
  exact hr

/-- Operands of different objects, or at a distance, are separate. -/
theorem separate_of_apart {len : Nat} (h : ∀ i ≤ len, ∀ k ≤ len, p.cell i ≠ q.cell k) :
    Separate op p q len m where
  body := by
    intro i hi k hk he
    have hi := List.mem_range.mp hi
    have hk := List.mem_range.mp hk
    exact absurd he (h k (by omega) i (by omega))
  last := fun k hk he => absurd he (h k (by omega) len (Nat.le_refl len))

theorem opWrite_fits (h : op.Sound m) (hn : 1 ≤ op.setTo.len.toNat) (hf : op.Fits m.pkt.length)
    (hs : Separate op (op.dst m.pkt.length) (op.src m.pkt.length) (op.setTo.len.toNat - 1) m) :
    ∃ m', opWrite cpy op m = .ok (0, m') ∧
      Transferred op (op.dst m.pkt.length) (op.src m.pkt.length) (op.setTo.len.toNat - 1) m m' := by
  have hlen : op.setTo.len.toNat - 1 + 1 = op.setTo.len.toNat := by omega
  obtain ⟨ht, hf'⟩ := h.rooms hf
  obtain ⟨rc, m', hr, rfl, htr⟩ := (opWrite_transfers (h.common hn hf)
    (by rw [hlen]; exact ht) (by rw [hlen]; exact hf') hs).exists_ok
  exact ⟨m', hr, htr⟩

/-- Between operands that do not overlap a write does as documented. -/
theorem op_write_reference (h : op.Sound m) (hn : 1 ≤ op.setTo.len.toNat)
    (hapart : op.Fits m.pkt.length → ∀ i < op.setTo.len.toNat, ∀ k < op.setTo.len.toNat,
      (op.dst m.pkt.length).cell i ≠ (op.src m.pkt.length).cell k) :
    WritesAsDocumented cpy op m := by
  constructor
  · intro hf
    exact ⟨1, by omega, opWrite_refuses h hn hf⟩
  · intro hf
    refine opWrite_fits h hn hf (separate_of_apart ?_)
    intro i hi k hk
    exact hapart hf i (by omega) k (by omega)

/-- The two bytes at 0 are copied to 2, of the last one the low half. -/
def nibbleOp : OpSet := ⟨⟨2, 2, 0xff, 0⟩, none, ⟨0, 2, 0x0f, 0⟩, none⟩

def fourBytes : Mem := ⟨[0x12, 0x34, 0x56, 0x78], fun _ => none⟩

theorem op_write_reference_nibble : WritesAsDocumented .ascending nibbleOp fourBytes :=
  op_write_reference ⟨rfl, fun _ h => (by cases h), fun _ h => (by cases h)⟩ (by decide)
    (fun _ => by decide)

end Writing

section Overlapping

/-- Between two fields of the packet that both fit, a write copies the source as it was before,
whatever the order in which the library copies bytes. -/
def CopiesOriginal (op : OpSet) (m : Mem) : Prop :=
  ∀ cpy : CopyOrder, ∃ m', opWrite cpy op m = .ok (0, m') ∧
    Transferred op (op.dst m.pkt.length) (op.src m.pkt.length) (op.setTo.len.toNat - 1) m m'

/-- Exactly then no source byte is where the copy puts another value. -/
theorem copies_original_iff (ht : op.to' = none) (hf : op.from' = none)
    (hlen : op.setTo.len = op.setFrom.len) (hn : 1 ≤ op.setTo.len.toNat)
    (hfits : op.Fits m.pkt.length) :
    CopiesOriginal op m ↔
      Separate op (op.dst m.pkt.length) (op.src m.pkt.length) (op.setTo.len.toNat - 1) m := by
  have h : op.Sound m :=
    ⟨hlen, fun a ha => (by rw [ht] at ha; cases ha), fun a ha => (by rw [hf] at ha; cases ha)⟩
  constructor
  · intro hall
    have hroom : op.setTo.len.toNat - 1 + 1 = op.setTo.len.toNat := by omega
    obtain ⟨hrt, hrf⟩ := h.rooms hfits
    refine separate_of_transfers (h.common hn hfits) (by rw [hroom]; exact hrt)
      (by rw [hroom]; exact hrf) ?_
    intro cpy
    obtain ⟨m', hr, htr⟩ := hall cpy
    exact Runs.of_ok hr htr
  · intro hs cpy
    exact opWrite_fits h hn hfits hs

/-- The two bytes at 0 are copied to 1. -/
def shiftOp : OpSet := ⟨⟨1, 2, 0xff, 0⟩, none, ⟨0, 2, 0xff, 0⟩, none⟩

def threeBytes : Mem := ⟨[1, 2, 3], fun _ => none⟩

theorem copies_original_iff_shift : CopiesOriginal shiftOp threeBytes ↔
    Separate shiftOp (shiftOp.dst 3) (shiftOp.src 3) 1 threeBytes :=
  copies_original_iff rfl rfl rfl (by decide) ⟨fun _ => by decide, fun _ => by decide⟩

/-- The last source byte is read after the copy has overwritten it. -/
theorem shift_loses_byte : ¬ ∀ op m, op.to' = none → op.from' = none →
    op.setTo.len = op.setFrom.len → 1 ≤ op.setTo.len.toNat → op.Fits m.pkt.length →
      CopiesOriginal op m := by
  intro h
  obtain ⟨m', hr, htr⟩ := h shiftOp threeBytes rfl rfl rfl (by decide)
    ⟨fun _ => by decide, fun _ => by decide⟩ CopyOrder.ascending
  have hrun : opWrite .ascending shiftOp threeBytes = .ok (0, ⟨[1, 1, 1], fun _ => none⟩) := rfl
  rw [hrun] at hr
  cases hr
  exact absurd (htr.last 3 2 (by decide) (by decide)) (by decide)

end Overlapping

section Matching

/-- The documented match: both operands fit, and where they have bytes these are equal, the
last one under the masks. -/
def OpSet.Matches (op : OpSet) (m : Mem) : Prop :=
  op.Fits m.pkt.length ∧ ∀ i x y, i < op.setTo.len.toNat → m.at (op.dst m.pkt.length) i = some x →
    m.at (op.src m.pkt.length) i = some y →
      if i + 1 < op.setTo.len.toNat then x = y else x &&& op.setTo.mask = y &&& op.setFrom.mask

def MatchesAsDocumented (op : OpSet) (m : Mem) : Prop :=
  ∃ rc, opMatch op m = .ok (rc, m) ∧ (rc = 0 ↔ op.Matches m)

theorem loadRange_cells (h : m.Room p n) :
    Runs (fun _ => False) (loadRange p n) m (fun bs t => t = m ∧ bs.length = n ∧
      ∀ i < n, m.at p i = bs[i]?) := by
  induction n with
  | zero => exact ⟨rfl, rfl, fun i hi => by omega⟩
  | succ n ih =>
    unfold loadRange
    refine (ih (h.mono (by omega))).bind ?_
    intro bs t hbs
    obtain ⟨rfl, hl, hbytes⟩ := hbs
    obtain ⟨b, hb⟩ := h.at (Nat.lt_succ_self n)
    refine (load_runs hb).bind ?_
    intro c t hc
    obtain ⟨rfl, rfl⟩ := hc
    refine ⟨rfl, by rw [List.length_append, hl]; rfl, ?_⟩
    intro i hi
    by_cases hlt : i < n
    · rw [List.getElem?_append_left (by omega)]
      exact hbytes i hlt
    · obtain rfl : i = n := by omega
      rw [List.getElem?_append_right (by omega), hl, Nat.sub_self]
      exact hb

/-- `memcmp` finds a difference exactly when some byte differs. -/
theorem memcmp_cells (hp : m.Room p n) (hq : m.Room q n) :
    Runs (fun _ => False) (memcmp p q n) m (fun differ t => t = m ∧
      (differ = false ↔ ∀ i < n, m.at p i = m.at q i)) := by
  unfold memcmp
  refine (loadRange_cells hp).bind ?_
  intro x t hx
  obtain ⟨rfl, hxl, hx⟩ := hx
  refine (loadRange_cells hq).bind ?_
  intro y t hy
  obtain ⟨rfl, hyl, hy⟩ := hy
  refine ⟨rfl, ?_⟩
  rw [bne_eq_false_iff_eq]
  constructor
  · intro he i hi
    rw [hx i hi, hy i hi, he]
  · intro hall
    apply List.ext_getElem?
    intro i
    by_cases hi : i < n
    · rw [← hx i hi, ← hy i hi, hall i hi]
    · rw [List.getElem?_eq_none (by omega), List.getElem?_eq_none (by omega)]

/-- `op_match` on operands that fit and have a last byte. -/
theorem opMatch_fits (h : op.Sound m) (hn : 1 ≤ op.setTo.len.toNat) (hf : op.Fits m.pkt.length) :
    MatchesAsDocumented op m := by
  obtain ⟨ht, hf'⟩ := h.rooms hf
  have hrun : Runs (fun _ => False) (opMatch op) m (fun rc t => t = m ∧ (rc = 0 ↔ op.Matches m)) := by
    unfold opMatch
    rw [Runs.bind_iff, Runs.get_iff, h.common hn hf]
    refine (memcmp_cells (ht.mono (by omega)) (hf'.mono (by omega))).bind ?_
    intro differ m₁ hd
    obtain ⟨rfl, hd⟩ := hd
    cases differ with
    | true =>
      refine ⟨rfl, fun hc => (by cases hc), fun hm => ?_⟩
      exfalso
      have hne : ¬ ∀ i < op.setTo.len.toNat - 1,
          m₁.at (op.dst m₁.pkt.length) i = m₁.at (op.src m₁.pkt.length) i := by
        intro hall
        exact absurd (hd.mpr hall) (by simp)
      apply hne
      intro i hi
      obtain ⟨x, hx⟩ := ht.at (show i < op.setTo.len.toNat by omega)
      obtain ⟨y, hy⟩ := hf'.at (show i < op.setTo.len.toNat by omega)
      have hxy := hm.2 i x y (by omega) hx hy
      rw [if_pos (by omega)] at hxy
      rw [hx, hy, hxy]
    | false =>
      have hbody := hd.mp rfl
      obtain ⟨x, hx⟩ := ht.at (show op.setTo.len.toNat - 1 < op.setTo.len.toNat by omega)
      obtain ⟨y, hy⟩ := hf'.at (show op.setTo.len.toNat - 1 < op.setTo.len.toNat by omega)
      have hmatches : op.Matches m₁ ↔ x &&& op.setTo.mask = y &&& op.setFrom.mask := by
        constructor
        · intro hm
          have hxy := hm.2 _ x y (by omega) hx hy
          rwa [if_neg (by omega)] at hxy
        · intro hlast
          refine ⟨hf, ?_⟩
          intro i x' y' hi hx' hy'
          split
          · have he := hbody i (by omega)
            rw [hx', hy'] at he
            exact Option.some.inj he
          · obtain rfl : i = op.setTo.len.toNat - 1 := by omega
            rw [hx] at hx'
            rw [hy] at hy'
            cases hx'
            cases hy'
            exact hlast
      refine (load_runs hx).bind ?_
      intro t m₂ h₂
      obtain ⟨rfl, rfl⟩ := h₂
      refine (load_runs hy).bind ?_
      intro f m₃ h₃
      obtain ⟨rfl, rfl⟩ := h₃
      rw [hmatches]
      split
      · rename_i hne
        exact ⟨rfl, by simp [hne]⟩
      · rename_i he
        exact ⟨rfl, by simpa using he⟩
  obtain ⟨rc, m', hr, rfl, hrc⟩ := hrun.exists_ok
  exact ⟨rc, hr, hrc⟩

theorem opMatch_refuses (h : op.Sound m) (hn : 1 ≤ op.setTo.len.toNat)
    (hf : ¬ op.Fits m.pkt.length) : MatchesAsDocumented op m := by
  have hrun : Runs (fun _ => False) (opMatch op) m (fun rc t => rc = 1 ∧ t = m) := by
    unfold opMatch
    rw [Runs.bind_iff, Runs.get_iff, h.common_fail hn hf]
    exact ⟨rfl, rfl⟩
  obtain ⟨rc, m', hr, rfl, rfl⟩ := hrun.exists_ok
  exact ⟨1, hr, fun hc => (by cases hc), fun hm => absurd hm.1 hf⟩

/-- An operation of no bytes matches, wherever its fields are. -/
theorem opMatch_empty (h : op.Sound m) (hn : op.setTo.len.toNat = 0) : opMatch op m = .ok (0, m) := by
  have hrun : Runs (fun _ => False) (opMatch op) m (fun rc t => rc = 0 ∧ t = m) := by
    unfold opMatch
    rw [Runs.bind_iff, Runs.get_iff, h.common_nop hn]
    exact ⟨rfl, rfl⟩
  obtain ⟨rc, m', hr, rfl, rfl⟩ := hrun.exists_ok
  exact hr

/-- `op_match` does as documented exactly when there are bytes to compare or both operands fit:
without bytes the code does not look where the fields are. -/
theorem op_match_reference_iff (h : op.Sound m) :
    MatchesAsDocumented op m ↔ 1 ≤ op.setTo.len.toNat ∨ op.Fits m.pkt.length := by
  by_cases hn : 1 ≤ op.setTo.len.toNat
  · simp only [hn, true_or, iff_true]
    by_cases hf : op.Fits m.pkt.length
    · exact opMatch_fits h hn hf
    · exact opMatch_refuses h hn hf
  · have hempty := opMatch_empty h (show op.setTo.len.toNat = 0 by omega)
    simp only [hn, false_or]
    constructor
    · intro hm
      obtain ⟨rc, hr, hrc⟩ := hm
      rw [hempty] at hr
      cases hr
      exact (hrc.mp rfl).1
    · intro hf
      exact ⟨0, hempty, fun _ => ⟨hf, fun i x y hi => by omega⟩, fun _ => rfl⟩

/-- A length check: at least 32 bytes. -/
def lengthCheck : OpSet := ⟨⟨32, 0, 0xff, 0⟩, none, ⟨32, 0, 0xff, 0⟩, none⟩

theorem op_match_reference_iff_short : MatchesAsDocumented lengthCheck fourBytes ↔
    1 ≤ lengthCheck.setTo.len.toNat ∨ lengthCheck.Fits 4 :=
  op_match_reference_iff ⟨rfl, fun _ h => (by cases h), fun _ h => (by cases h)⟩

/-- The length check accepts a packet of four bytes. -/
theorem length_check_ignored : ¬ ∀ op m, op.Sound m → MatchesAsDocumented op m := by
  intro h
  obtain ⟨rc, hr, hrc⟩ := h lengthCheck fourBytes
    ⟨rfl, fun _ h => (by cases h), fun _ h => (by cases h)⟩
  have hrun : opMatch lengthCheck fourBytes = .ok (0, fourBytes) := rfl
  rw [hrun] at hr
  cases hr
  exact absurd ((hrc.mp rfl).1.1 rfl).2 (by decide)

end Matching

end Xdpacket
