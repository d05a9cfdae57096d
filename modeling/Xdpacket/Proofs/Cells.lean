import Xdpacket.Lib.Copying
import Xdpacket.Proofs.Writes

namespace Xdpacket

variable {m m' : Mem} {p dst src to' from' : Ptr} {i n len : Nat} {v : UInt8} {op : OpSet}
  {is : List Nat} {cpy : CopyOrder}

/-- The byte at an address, if there is one. -/
def Mem.cell (m : Mem) (x : Region × Nat) : Option UInt8 :=
  (m.bytes x.1).bind (fun bs => bs[x.2]?)

/-- The address of the byte at index `i`. -/
def Ptr.cell (p : Ptr) (i : Nat) : Region × Nat := (p.region, p.off + i)

@[simp] theorem cell_ptr : m.cell (p.cell i) = m.at p i := rfl

theorem Ptr.cell_injective (p : Ptr) : Function.Injective p.cell := by
  intro i j h
  have := (Prod.mk.inj h).2
  omega

theorem Mem.Room.at (h : m.Room p n) (hi : i < n) : ∃ b, m.at p i = some b := by
  obtain ⟨bs, hb, hn⟩ := h
  unfold Mem.at
  rw [hb, Option.bind_some, List.getElem?_eq_getElem (by omega)]
  exact ⟨_, rfl⟩

theorem cell_setByte (h : (m.at p i).isSome) :
    (m.setByte p.region (p.off + i) v).cell = Function.update m.cell (p.cell i) (some v) := by
  funext x
  by_cases hx : x = p.cell i
  · rw [hx, Function.update_self]
    exact at_setByte_self h
  · rw [Function.update_of_ne hx]
    refine at_setByte_ne (q := ⟨x.1, x.2⟩) (j := 0) ?_
    by_contra hc
    push Not at hc
    exact hx (Prod.ext hc.1 hc.2)

theorem load_runs {b : UInt8} (h : m.at p i = some b) :
    Runs (fun _ => False) (load p i) m (fun c t => c = b ∧ t = m) := by
  unfold Mem.at at h
  unfold Runs load
  cases hb : m.bytes p.region with
  | none =>
    rw [hb] at h
    cases h
  | some bs =>
    rw [hb, Option.bind_some] at h
    simp only [h, and_self]

theorem store_runs (h : (m.at p i).isSome) :
    Runs (fun _ => False) (store p i v) m (fun _ t =>
      t.cell = Function.update m.cell (p.cell i) (some v) ∧ m.SameKinds t ∧ m.SameSizes t) := by
  have hc := cell_setByte (v := v) h
  unfold Mem.at at h
  unfold Runs store
  cases hb : m.bytes p.region with
  | none =>
    rw [hb] at h
    cases h
  | some bs =>
    rw [hb, Option.bind_some] at h
    obtain ⟨b, hb'⟩ := Option.isSome_iff_exists.mp h
    have hlt := (List.getElem?_eq_some_iff.mp hb').1
    simp only [if_pos hlt]
    exact ⟨hc, setByte_sameKinds _ _ _ _, Mem.setByte_sameSizes _ _ _ _⟩

/-- A copy between bytes that exist is a copy of cells. -/
theorem copyBytes_cells (h : ∀ i ∈ is, (m.at src i).isSome ∧ (m.at dst i).isSome) :
    Runs (fun _ => False) (copyBytes dst src is) m (fun _ m' =>
      m'.cell = copyCells dst.cell src.cell is m.cell ∧ m.SameKinds m' ∧ m.SameSizes m') := by
  induction is generalizing m with
  | nil => exact ⟨rfl, fun _ => rfl, .refl m⟩
  | cons i is ih =>
    unfold copyBytes copyCells
    obtain ⟨hs, hd⟩ := h i (List.mem_cons_self ..)
    obtain ⟨b, hb⟩ := Option.isSome_iff_exists.mp hs
    refine (load_runs hb).bind ?_
    intro c t ht
    obtain ⟨rfl, rfl⟩ := ht
    refine (store_runs (v := c) hd).bind ?_
    intro _ t' ht'
    obtain ⟨hcell, hkinds, hsizes⟩ := ht'
    have hrest : ∀ k ∈ is, (t'.at src k).isSome ∧ (t'.at dst k).isSome := by
      intro k hk
      obtain ⟨hs, hd⟩ := h k (List.mem_cons_of_mem _ hk)
      exact ⟨hsizes.symm.at_isSome hs, hsizes.symm.at_isSome hd⟩
    refine (ih hrest).imp ?_
    intro _ u hu
    obtain ⟨hu, hk, hz⟩ := hu
    refine ⟨?_, hkinds.trans hk, hsizes.trans hz⟩
    rw [hu, hcell, cell_ptr, hb]

/-- What `op_write` leaves at its destination, and everywhere else: as if the source had
been copied to a temporary first. -/
structure Transferred (op : OpSet) (dst src : Ptr) (len : Nat) (m m' : Mem) : Prop where
  body : ∀ i < len, m'.at dst i = m.at src i
  last : ∀ old b, m.at dst len = some old → m.at src len = some b →
    m'.at dst len = some (maskByte op old b)
  others : ∀ x, (∀ i ≤ len, x ≠ dst.cell i) → m'.cell x = m.cell x
  kinds : m.SameKinds m'
  sizes : m.SameSizes m'

/-- No byte that is copied, and no masked bit of the last one, is at an address that the
copy gives another value. -/
structure Separate (op : OpSet) (dst src : Ptr) (len : Nat) (m : Mem) : Prop where
  body : Harmless dst.cell src.cell (List.range len) m.cell
  last : ∀ k < len, dst.cell k = src.cell len → ∀ b c, m.at src k = some b → m.at src len = some c →
    (b &&& op.setTo.mask) &&& op.setFrom.mask = (c &&& op.setTo.mask) &&& op.setFrom.mask

theorem maskByte_eq_iff {old b c : UInt8} :
    maskByte op old b = maskByte op old c ↔
      (b &&& op.setTo.mask) &&& op.setFrom.mask = (c &&& op.setTo.mask) &&& op.setFrom.mask := by
  unfold maskByte
  constructor
  · intro h
    apply UInt8.toBitVec_inj.mp
    apply BitVec.eq_of_getLsbD_eq
    intro i hi
    have hbit := congrArg (fun v => v.toBitVec.getLsbD i) h
    simp only [UInt8.toBitVec_or, UInt8.toBitVec_and, UInt8.toBitVec_not, BitVec.getLsbD_or,
      BitVec.getLsbD_and, BitVec.getLsbD_not, hi] at hbit ⊢
    -- bits outside the destination mask are gone, inside it the old ones are
    revert hbit
    cases op.setTo.mask.toBitVec.getLsbD i <;> simp
  · intro h
    rw [h]

/-- `op_write` of operands that have the span, cell by cell. -/
theorem opWrite_cells (hc : opCommon op m.pkt.length = .span len to' from')
    (ht : m.Room to' (len + 1)) (hf : m.Room from' (len + 1)) :
    Runs (fun _ => False) (opWrite cpy op) m (fun rc m' => rc = 0 ∧ m.SameKinds m' ∧
      m.SameSizes m' ∧ ∃ old b, m.at to' len = some old ∧
        copyCells to'.cell from'.cell (cpy.order len) m.cell (from'.cell len) = some b ∧
        m'.cell = Function.update (copyCells to'.cell from'.cell (cpy.order len) m.cell)
          (to'.cell len) (some (maskByte op old b))) := by
  have horder : ∀ i ∈ cpy.order len, i < len := by
    intro i hi
    exact List.mem_range.mp ((cpy.perm len).mem_iff.mp hi)
  have hin : ∀ i ∈ cpy.order len, (m.at from' i).isSome ∧ (m.at to' i).isSome := by
    intro i hi
    have hlt := horder i hi
    exact ⟨Option.isSome_iff_exists.mpr (hf.at (by omega)),
      Option.isSome_iff_exists.mpr (ht.at (by omega))⟩
  unfold opWrite memcpy
  rw [Runs.bind_iff, Runs.get_iff, hc]
  refine (copyBytes_cells hin).bind ?_
  intro _ m₁ h
  obtain ⟨hcell, hkinds, hsizes⟩ := h
  obtain ⟨old, hold⟩ := ht.at (Nat.lt_succ_self len)
  have hold₁ : m₁.at to' len = some old := by
    rw [← cell_ptr, hcell, copyCells.of_ne, cell_ptr, hold]
    intro i hi he
    have := horder i hi
    have := to'.cell_injective he
    omega
  obtain ⟨b, hb⟩ := (hsizes.room hf).at (Nat.lt_succ_self len)
  refine (load_runs hold₁).bind ?_
  intro t m₂ h₂
  obtain ⟨rfl, rfl⟩ := h₂
  refine (load_runs hb).bind ?_
  intro f m₃ h₃
  obtain ⟨rfl, rfl⟩ := h₃
  refine (store_runs (by rw [hold₁]; rfl)).bind ?_
  intro _ m₄ h₄
  obtain ⟨hcell₄, hkinds₄, hsizes₄⟩ := h₄
  refine ⟨rfl, hkinds.trans hkinds₄, hsizes.trans hsizes₄, t, f, hold, ?_, ?_⟩
  · rw [← hcell]
    exact hb
  · rw [hcell₄, hcell]

/-- Where the operands are separate, a write transfers, whatever the copy's order. -/
theorem opWrite_transfers (hc : opCommon op m.pkt.length = .span len to' from')
    (ht : m.Room to' (len + 1)) (hf : m.Room from' (len + 1)) (hs : Separate op to' from' len m) :
    Runs (fun _ => False) (opWrite cpy op) m (fun rc m' =>
      rc = 0 ∧ Transferred op to' from' len m m') := by
  refine (opWrite_cells hc ht hf).imp ?_
  intro rc m' h
  obtain ⟨hrc, hkinds, hsizes, old, b, hold, hb, hcell⟩ := h
  have hmem : ∀ i, i ∈ cpy.order len ↔ i < len := by
    intro i
    rw [(cpy.perm len).mem_iff, List.mem_range]
  have hund : Harmless to'.cell from'.cell (cpy.order len) m.cell := by
    intro i hi k hk
    exact hs.body i (List.mem_range.mpr ((hmem i).mp hi)) k (List.mem_range.mpr ((hmem k).mp hk))
  have hne : ∀ i, i ≠ len → to'.cell i ≠ to'.cell len := fun i hi he => hi (to'.cell_injective he)
  refine ⟨hrc, ?_, ?_, ?_, hkinds, hsizes⟩
  · intro i hi
    rw [← cell_ptr, hcell, Function.update_of_ne (hne i (by omega)),
      copyCells.copied to'.cell_injective hund ((hmem i).mpr hi), cell_ptr]
  · intro old' c hold' hlast
    rw [hold] at hold'
    cases hold'
    rw [← cell_ptr, hcell, Function.update_self]
    congr 1
    rw [maskByte_eq_iff]
    by_cases hk : ∃ k < len, to'.cell k = from'.cell len
    · obtain ⟨k, hk, he⟩ := hk
      rw [← he, copyCells.copied to'.cell_injective hund ((hmem k).mpr hk)] at hb
      exact hs.last k hk he b c hb hlast
    · push Not at hk
      rw [copyCells.of_ne (fun k hk' he => hk k ((hmem k).mp hk') he.symm), cell_ptr, hlast] at hb
      rw [Option.some.inj hb]
  · intro x hx
    rw [hcell, Function.update_of_ne (hx len (Nat.le_refl len)), copyCells.of_ne]
    intro i hi
    exact hx i (Nat.le_of_lt ((hmem i).mp hi))

/-- The library may copy `len` bytes in any order. -/
def CopyOrder.ofPerm {js : List Nat} (h : js.Perm (List.range len)) : CopyOrder where
  order n := if n = len then js else List.range n
  perm n := by
    by_cases hn : n = len
    · rw [if_pos hn, hn]
      exact h
    · rw [if_neg hn]

/-- If a write transfers whatever the copy's order, then its operands are separate. -/
theorem separate_of_transfers (hc : opCommon op m.pkt.length = .span len to' from')
    (ht : m.Room to' (len + 1)) (hf : m.Room from' (len + 1))
    (h : ∀ cpy, Runs (fun _ => True) (opWrite cpy op) m (fun _ m' =>
      Transferred op to' from' len m m')) : Separate op to' from' len m := by
  have hrun : ∀ cpy : CopyOrder, ∃ m' old b, Transferred op to' from' len m m' ∧
      m.at to' len = some old ∧
      copyCells to'.cell from'.cell (cpy.order len) m.cell (from'.cell len) = some b ∧
      m'.cell = Function.update (copyCells to'.cell from'.cell (cpy.order len) m.cell)
        (to'.cell len) (some (maskByte op old b)) := by
    intro cpy
    obtain ⟨rc, m', -, ⟨-, -, -, old, b, hold, hb, hcell⟩, htr⟩ :=
      ((opWrite_cells hc ht hf).and (h cpy)).exists_ok
    exact ⟨m', old, b, htr, hold, hb, hcell⟩
  have hbody : Harmless to'.cell from'.cell (List.range len) m.cell := by
    refine copyCells.harmless to'.cell_injective List.nodup_range ?_
    intro js hjs i hi
    have hlt := List.mem_range.mp hi
    obtain ⟨m', old, b, htr, -, -, hcell⟩ := hrun (.ofPerm hjs)
    have hbyte := htr.body i hlt
    have horder : (CopyOrder.ofPerm hjs).order len = js := if_pos rfl
    rw [← cell_ptr, hcell, Function.update_of_ne, horder] at hbyte
    · exact hbyte
    · intro he
      have := to'.cell_injective he
      omega
  refine ⟨hbody, ?_⟩
  intro k hk he b c hb hlast
  obtain ⟨m', old, b', htr, hold, hb', hcell⟩ := hrun .ascending
  have horder : CopyOrder.ascending.order len = List.range len := rfl
  rw [← he, horder, copyCells.copied to'.cell_injective hbody (List.mem_range.mpr hk), cell_ptr,
    hb] at hb'
  obtain rfl := Option.some.inj hb'
  have hbyte := htr.last old c hold hlast
  rw [← cell_ptr, hcell, Function.update_self] at hbyte
  exact maskByte_eq_iff.mp (Option.some.inj hbyte)

end Xdpacket
