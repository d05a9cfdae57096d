import Xdpacket.Proofs.OpSemantics

namespace Xdpacket

variable {m m' : Mem} {op : OpSet} {cpy : CopyOrder} {dst src : Ptr} {len : Nat} {old b : UInt8}

section Memories

theorem bytes_of_cells (hz : m.SameSizes m') (hc : ∀ x, m'.cell x = m.cell x) (r : Region) :
    m'.bytes r = m.bytes r := by
  cases hb : m.bytes r with
  | none =>
    have hr := hz r
    rw [hb] at hr
    exact Option.map_eq_none_iff.mp hr
  | some bs =>
    obtain ⟨bs', hb', -⟩ := hz.bytes hb
    rw [hb']
    congr 1
    apply List.ext_getElem?
    intro i
    have hi := hc (r, i)
    simpa [Mem.cell, hb, hb'] using hi

/-- Memories with the same bytes at the same addresses are the same. -/
theorem mem_of_cells (hk : m.SameKinds m') (hz : m.SameSizes m')
    (hc : ∀ x, m'.cell x = m.cell x) : m' = m := by
  have hbytes := bytes_of_cells hz hc
  have hpkt : m'.pkt = m.pkt := Option.some.inj (hbytes .pkt)
  have hrefs : m'.memrefs = m.memrefs := by
    funext a
    have hka := hk a
    have hba : (m'.memrefs a).map Memref.bytes = (m.memrefs a).map Memref.bytes := hbytes (.memref a)
    cases hr' : m'.memrefs a with
    | none =>
      rw [hr'] at hka
      exact (Option.map_eq_none_iff.mp hka.symm).symm
    | some r' =>
      cases hr : m.memrefs a with
      | none => simp [hr, hr'] at hka
      | some r =>
        obtain ⟨kind, set, bytes, sized⟩ := r
        obtain ⟨kind', set', bytes', sized'⟩ := r'
        simp [hr, hr'] at hka hba
        simp [hka, hba]
  cases m
  cases m'
  simp_all

end Memories

section Masks

theorem maskByte_and (h : op.setTo.mask = op.setFrom.mask) :
    maskByte op old b &&& op.setTo.mask = b &&& op.setFrom.mask := by
  unfold maskByte
  rw [← h]
  apply UInt8.toBitVec_inj.mp
  apply BitVec.eq_of_getLsbD_eq
  intro i hi
  simp only [UInt8.toBitVec_or, UInt8.toBitVec_and, UInt8.toBitVec_not, BitVec.getLsbD_or,
    BitVec.getLsbD_and, BitVec.getLsbD_not, hi]
  cases op.setTo.mask.toBitVec.getLsbD i <;> simp

/-- A byte that has the masked bits already stays. -/
theorem maskByte_fixed (h : op.setTo.mask = op.setFrom.mask)
    (he : old &&& op.setTo.mask = b &&& op.setFrom.mask) : maskByte op old b = old := by
  unfold maskByte
  rw [← h] at he ⊢
  apply UInt8.toBitVec_inj.mp
  apply BitVec.eq_of_getLsbD_eq
  intro i hi
  have hbit := congrArg (fun v => v.toBitVec.getLsbD i) he
  simp only [UInt8.toBitVec_or, UInt8.toBitVec_and, UInt8.toBitVec_not, BitVec.getLsbD_or,
    BitVec.getLsbD_and, BitVec.getLsbD_not, hi] at hbit ⊢
  revert hbit
  cases op.setTo.mask.toBitVec.getLsbD i <;> simp
  exact Eq.symm

end Masks

section Operations

theorem OpSet.Sound.mono (h : op.Sound m) (hk : m.SameKinds m') : op.Sound m' :=
  ⟨h.equal, sameKinds_backs hk h.to', sameKinds_backs hk h.from'⟩

theorem OpSet.Matches.iff_zero (h : op.Sound m) (hn : 1 ≤ op.setTo.len.toNat) :
    op.Matches m ↔ opMatch op m = .ok (0, m) := by
  obtain ⟨rc, hr, hrc⟩ := (op_match_reference_iff h).mpr (.inl hn)
  rw [hr, ← hrc]
  constructor
  · intro hz
    rw [hz]
  · intro he
    cases he
    rfl

/-- What a write leaves matches: between separate operands the source is as it was. -/
theorem Transferred.matches (h : op.Sound m) (hmask : op.setTo.mask = op.setFrom.mask)
    (hn : 1 ≤ op.setTo.len.toNat) (hf : op.Fits m.pkt.length)
    (hapart : ∀ i < op.setTo.len.toNat, ∀ k < op.setTo.len.toNat,
      (op.dst m.pkt.length).cell i ≠ (op.src m.pkt.length).cell k)
    (htr : Transferred op (op.dst m.pkt.length) (op.src m.pkt.length)
      (op.setTo.len.toNat - 1) m m') : op.Matches m' := by
  have hpkt := sameSizes_pkt htr.sizes
  obtain ⟨hto, hfrom⟩ := h.rooms hf
  have hsrc : ∀ k < op.setTo.len.toNat,
      m'.at (op.src m.pkt.length) k = m.at (op.src m.pkt.length) k := by
    intro k hk
    exact htr.others ((op.src m.pkt.length).cell k) (fun i hi he => hapart i (by omega) k hk he.symm)
  refine ⟨by rw [hpkt]; exact hf, ?_⟩
  intro i x y hi hx hy
  rw [hpkt] at hx hy
  rw [hsrc i hi] at hy
  split
  · rw [htr.body i (by omega), hy] at hx
    exact (Option.some.inj hx).symm
  · obtain rfl : i = op.setTo.len.toNat - 1 := by omega
    obtain ⟨old, hold⟩ := hto.at hi
    rw [htr.last old y hold hy] at hx
    rw [← Option.some.inj hx]
    exact maskByte_and hmask

/-- A write between operands that match changes nothing. -/
theorem Transferred.unchanged (h : op.Sound m) (hmask : op.setTo.mask = op.setFrom.mask)
    (hn : 1 ≤ op.setTo.len.toNat) (hm : op.Matches m)
    (htr : Transferred op (op.dst m.pkt.length) (op.src m.pkt.length)
      (op.setTo.len.toNat - 1) m m') : m' = m := by
  obtain ⟨hto, hfrom⟩ := h.rooms hm.1
  refine mem_of_cells htr.kinds htr.sizes ?_
  intro x
  by_cases hx : ∃ i < op.setTo.len.toNat, x = (op.dst m.pkt.length).cell i
  · obtain ⟨i, hi, rfl⟩ := hx
    obtain ⟨t, ht⟩ := hto.at hi
    obtain ⟨f, hf⟩ := hfrom.at hi
    have htf := hm.2 i t f hi ht hf
    rw [cell_ptr, cell_ptr]
    split at htf
    · rw [htr.body i (by omega), hf, ht, htf]
    · obtain rfl : i = op.setTo.len.toNat - 1 := by omega
      rw [htr.last t f ht hf, ht, maskByte_fixed hmask htf]
  · exact htr.others x (fun i hi he => hx ⟨i, by omega, he⟩)

/-- After a write the same operation matches, and writing again changes nothing; where it
matches already, a write changes nothing. -/
theorem write_then_match (h : op.Sound m) (hmask : op.setTo.mask = op.setFrom.mask)
    (hn : 1 ≤ op.setTo.len.toNat)
    (hapart : op.Fits m.pkt.length → ∀ i < op.setTo.len.toNat, ∀ k < op.setTo.len.toNat,
      (op.dst m.pkt.length).cell i ≠ (op.src m.pkt.length).cell k) :
    (∀ m', opWrite cpy op m = .ok (0, m') →
      opMatch op m' = .ok (0, m') ∧ opWrite cpy op m' = .ok (0, m')) ∧
    (opMatch op m = .ok (0, m) → opWrite cpy op m = .ok (0, m)) := by
  have hfixed : ∀ {m : Mem}, op.Sound m → op.Matches m →
      (op.Fits m.pkt.length → ∀ i < op.setTo.len.toNat, ∀ k < op.setTo.len.toNat,
        (op.dst m.pkt.length).cell i ≠ (op.src m.pkt.length).cell k) →
      opWrite cpy op m = .ok (0, m) := by
    intro m h hm hapart
    have hwrites : WritesAsDocumented cpy op m := op_write_reference h hn hapart
    obtain ⟨m', hr, htr⟩ := hwrites.2 hm.1
    rw [hr, htr.unchanged h hmask hn hm]
  constructor
  · intro m' hw
    by_cases hf : op.Fits m.pkt.length
    · obtain ⟨t, hr, htr⟩ := (op_write_reference h hn hapart).2 hf
      rw [hw] at hr
      obtain rfl := (Prod.mk.inj (Except.ok.inj hr)).2
      have hm := htr.matches h hmask hn hf (hapart hf)
      have hs := h.mono htr.kinds
      refine ⟨(OpSet.Matches.iff_zero hs hn).mp hm, hfixed hs hm ?_⟩
      rw [sameSizes_pkt htr.sizes]
      exact hapart
    · rw [opWrite_refuses h hn hf] at hw
      cases hw
  · intro hz
    exact hfixed h ((OpSet.Matches.iff_zero h hn).mpr hz) hapart

/-- The two bytes at 0 are copied to 2 under the same mask. -/
def pairOp : OpSet := ⟨⟨2, 2, 0x0f, 0⟩, none, ⟨0, 2, 0x0f, 0⟩, none⟩

theorem write_then_match_pair :
    opWrite .ascending pairOp fourBytes = .ok (0, ⟨[0x12, 0x34, 0x12, 0x74], fun _ => none⟩) ∧
    ((∀ m', opWrite .ascending pairOp fourBytes = .ok (0, m') →
      opMatch pairOp m' = .ok (0, m') ∧ opWrite .ascending pairOp m' = .ok (0, m')) ∧
    (opMatch pairOp fourBytes = .ok (0, fourBytes) →
      opWrite .ascending pairOp fourBytes = .ok (0, fourBytes))) :=
  ⟨rfl, write_then_match ⟨rfl, fun _ h => (by cases h), fun _ h => (by cases h)⟩ rfl (by decide)
    (fun _ => by decide)⟩

end Operations

end Xdpacket
