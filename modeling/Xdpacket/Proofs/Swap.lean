import Xdpacket.Proofs.Delivery
import Xdpacket.Proofs.Extents
import Xdpacket.Proofs.OpSemantics

namespace Xdpacket

variable {m m' : Mem} {w v : World} {live : Multiset Ref} {env : Env} {cpy : CopyOrder}
  {A B : FieldSet} {a b fa fb s : Addr} {plen n i k : Nat}

section Bits

/-- A byte whose masked bits were taken from another. -/
def exchange (mask x y : UInt8) : UInt8 := (x &&& ~~~mask) ||| (y &&& mask)

theorem byte_ext {x y : UInt8} (h : ∀ i, i < 8 → x.toBitVec.getLsbD i = y.toBitVec.getLsbD i) :
    x = y :=
  UInt8.toBitVec_inj.mp (BitVec.eq_of_getLsbD_eq h)

theorem exchange_bit {mask x y : UInt8} (hi : i < 8) : (exchange mask x y).toBitVec.getLsbD i =
    bif mask.toBitVec.getLsbD i then y.toBitVec.getLsbD i else x.toBitVec.getLsbD i := by
  simp only [exchange, UInt8.toBitVec_or, UInt8.toBitVec_and, UInt8.toBitVec_not,
    BitVec.getLsbD_or, BitVec.getLsbD_and, BitVec.getLsbD_not, hi, decide_true, Bool.true_and]
  cases mask.toBitVec.getLsbD i <;> simp

/-- Exchanging both ways twice gives the first byte back. -/
theorem exchange_exchange (mask x y : UInt8) :
    exchange mask (exchange mask x y) (exchange mask y x) = x := by
  apply byte_ext
  intro i hi
  simp only [exchange_bit hi]
  cases mask.toBitVec.getLsbD i <;> rfl

/-- What a state had before the swap does not get through its masked bits. -/
theorem exchange_through (mask x y z : UInt8) :
    exchange mask x (exchange mask z y) = exchange mask x y := by
  apply byte_ext
  intro i hi
  simp only [exchange_bit hi]
  cases mask.toBitVec.getLsbD i <;> rfl

theorem maskByte_eq_exchange {op : OpSet} (h : op.setTo.mask = op.setFrom.mask) (old src : UInt8) :
    maskByte op old src = exchange op.setTo.mask old src := by
  unfold maskByte exchange
  rw [← h, UInt8.and_assoc, UInt8.and_self]

end Bits

section Memory

theorem exchange_all (x y : UInt8) : exchange 0xff x y = y := by
  unfold exchange
  have hz : x &&& ~~~(0xff : UInt8) = 0 := by
    have hn : ~~~(0xff : UInt8) = 0 := by decide
    rw [hn, UInt8.and_zero]
  have hy : y &&& (0xff : UInt8) = y := by
    have hn : (0xff : UInt8) = -1 := by decide
    rw [hn, UInt8.and_neg_one]
  rw [hz, hy, UInt8.zero_or]

/-- The bits that an operation touches in the byte at index `i` of a field. -/
def FieldSet.byteMask (set : FieldSet) (i : Nat) : UInt8 :=
  if i + 1 < set.len.toNat then 0xff else set.mask

/-- One write between operands that do not overlap, byte by byte. -/
structure Moved (set : FieldSet) (dst src : Ptr) (m m' : Mem) : Prop where
  bytes : ∀ i < set.len.toNat, ∀ x y, m.at dst i = some x → m.at src i = some y →
    m'.at dst i = some (exchange (set.byteMask i) x y)
  others : ∀ x, (∀ i < set.len.toNat, x ≠ dst.cell i) → m'.cell x = m.cell x
  kinds : m.SameKinds m'
  sizes : m.SameSizes m'

theorem opWrite_moves {op : OpSet} (h : op.Sound m) (hmask : op.setTo.mask = op.setFrom.mask)
    (hn : 1 ≤ op.setTo.len.toNat) (hf : op.Fits m.pkt.length)
    (hapart : ∀ i k, i < op.setTo.len.toNat → k < op.setTo.len.toNat →
      (op.dst m.pkt.length).cell i ≠ (op.src m.pkt.length).cell k) :
    ∃ m', opWrite cpy op m = .ok (0, m') ∧
      Moved op.setTo (op.dst m.pkt.length) (op.src m.pkt.length) m m' := by
  obtain ⟨m', hr, htr⟩ := opWrite_fits h hn hf
    (separate_of_apart (fun i hi k hk => hapart i k (by omega) (by omega)))
  refine ⟨m', hr, ?_, ?_, htr.kinds, htr.sizes⟩
  · intro i hi x y hx hy
    unfold FieldSet.byteMask
    split
    · rw [exchange_all, htr.body i (by omega), hy]
    · obtain rfl : i = op.setTo.len.toNat - 1 := by omega
      rw [htr.last x y hx hy, maskByte_eq_exchange hmask]
  · intro x hx
    exact htr.others x (fun i hi => hx i (by omega))

/-- The bytes of two fields of the packet have changed places, within their masks; besides
them only the state at `s` may have changed. -/
structure Swapped (A B : FieldSet) (s : Addr) (m m' : Mem) : Prop where
  bytes : ∀ i < A.len.toNat, ∀ x y, m.at (operand none A m.pkt.length) i = some x →
    m.at (operand none B m.pkt.length) i = some y →
      m'.at (operand none A m.pkt.length) i = some (exchange (A.byteMask i) x y) ∧
        m'.at (operand none B m.pkt.length) i = some (exchange (A.byteMask i) y x)
  others : ∀ x, (∀ i < A.len.toNat, x ≠ (operand none A m.pkt.length).cell i ∧
    x ≠ (operand none B m.pkt.length).cell i) → x.1 ≠ .memref s → m'.cell x = m.cell x
  kinds : m.SameKinds m'
  sizes : m.SameSizes m'

/-- What the three writes of a swap need. -/
structure Swappable (A B : FieldSet) (s : Addr) (m : Mem) : Prop where
  len : A.len = B.len
  mask : A.mask = B.mask
  pos : 1 ≤ A.len.toNat
  fitsA : Fits none A m.pkt.length
  fitsB : Fits none B m.pkt.length
  disjoint : ∀ i k, i < A.len.toNat → k < A.len.toNat →
    (operand none A m.pkt.length).cell i ≠ (operand none B m.pkt.length).cell k
  state : m.Backs (some s) A

theorem Swappable.mono (h : Swappable A B s m) (hk : m.SameKinds m') (hz : m.SameSizes m') :
    Swappable A B s m' := by
  have hl := sameSizes_pkt hz
  exact ⟨h.len, h.mask, h.pos, by rw [hl]; exact h.fitsA, by rw [hl]; exact h.fitsB,
    by rw [hl]; exact h.disjoint, sameKinds_backs hk h.state⟩

/-- The set of the write that saves `A` to the state, of the one that copies `B` over it, and
of the one that restores the state to `B`. -/
def swapSets (A B : FieldSet) (s : Addr) : OpSet × OpSet × OpSet :=
  (⟨A, some s, A, none⟩, ⟨A, none, B, none⟩, ⟨B, none, B, some s⟩)

theorem memref_ne_pkt {p : Ptr} (hp : p.region = .pkt) : (⟨.memref s, 0⟩ : Ptr).cell i ≠ p.cell k := by
  intro he
  have hr := (Prod.mk.inj he).1
  rw [hp] at hr
  cases hr

theorem Moved.elsewhere {set : FieldSet} {dst src p : Ptr} (h : Moved set dst src m m')
    (hne : ∀ k < set.len.toNat, dst.cell k ≠ p.cell i) : m'.at p i = m.at p i :=
  h.others (p.cell i) (fun k hk he => hne k hk he.symm)

theorem byteMask_eq (hlen : A.len = B.len) (hmask : A.mask = B.mask) :
    B.byteMask i = A.byteMask i := by
  unfold FieldSet.byteMask
  rw [hlen, hmask]

/-- The bytes of the state and of two fields, after the three writes of a swap. -/
theorem moved_swaps {pA pB ps : Ptr} {m₁ m₂ m₃ : Mem} {x y z : UInt8} (hlen : A.len = B.len)
    (hmask : A.mask = B.mask) (h₁ : Moved A ps pA m m₁) (h₂ : Moved A pA pB m₁ m₂)
    (h₃ : Moved B pB ps m₂ m₃) (hi : i < A.len.toNat)
    (hsA : ∀ i k, ps.cell i ≠ pA.cell k) (hsB : ∀ i k, ps.cell i ≠ pB.cell k)
    (hAB : ∀ i k, i < A.len.toNat → k < A.len.toNat → pA.cell i ≠ pB.cell k)
    (hx : m.at pA i = some x) (hy : m.at pB i = some y) (hz : m.at ps i = some z) :
    m₃.at pA i = some (exchange (A.byteMask i) x y) ∧
      m₃.at pB i = some (exchange (A.byteMask i) y x) := by
  have hn : B.len.toNat = A.len.toNat := by rw [hlen]
  have hz₁ := h₁.bytes i hi z x hz hx
  have hx₁ := (h₁.elsewhere (fun k _ => hsA k i)).trans hx
  have hy₁ := (h₁.elsewhere (fun k _ => hsB k i)).trans hy
  have hx₂ := h₂.bytes i hi x y hx₁ hy₁
  have hy₂ := (h₂.elsewhere (fun k hk => hAB k i hk hi)).trans hy₁
  have hz₂ := (h₂.elsewhere (p := ps) (fun k _ => (hsA i k).symm)).trans hz₁
  have hx₃ := (h₃.elsewhere (fun k hk => (hAB i k hi (hn ▸ hk)).symm)).trans hx₂
  have hy₃ := h₃.bytes i (hn ▸ hi) y _ hy₂ hz₂
  rw [byteMask_eq hlen hmask, exchange_through] at hy₃
  exact ⟨hx₃, hy₃⟩

theorem swap_mem (h : Swappable A B s m) : ∃ m₁ m₂ m₃,
    opWrite cpy (swapSets A B s).1 m = .ok (0, m₁) ∧
    opWrite cpy (swapSets A B s).2.1 m₁ = .ok (0, m₂) ∧
    opWrite cpy (swapSets A B s).2.2 m₂ = .ok (0, m₃) ∧ Swapped A B s m m₃ := by
  have hs₁ : (swapSets A B s).1.Sound m := ⟨rfl, h.state, fun _ hc => (by cases hc)⟩
  obtain ⟨m₁, hr₁, h₁⟩ := opWrite_moves hs₁ rfl h.pos ⟨fun hc => (by cases hc), h.fitsA⟩
    (fun i k _ _ => memref_ne_pkt rfl)
  have g₁ := h.mono h₁.kinds h₁.sizes
  have hl₁ := sameSizes_pkt h₁.sizes
  have hs₂ : (swapSets A B s).2.1.Sound m₁ :=
    ⟨h.len, fun _ hc => (by cases hc), fun _ hc => (by cases hc)⟩
  obtain ⟨m₂, hr₂, h₂⟩ := opWrite_moves hs₂ h.mask h.pos ⟨g₁.fitsA, g₁.fitsB⟩ g₁.disjoint
  have g₂ := g₁.mono h₂.kinds h₂.sizes
  have hl₂ := (sameSizes_pkt h₂.sizes).trans hl₁
  have hB : m₂.Backs (some s) B := by
    intro a ha
    obtain ⟨r, hr, hl⟩ := g₂.state a ha
    exact ⟨r, hr, hl.trans h.len⟩
  have hn : B.len.toNat = A.len.toNat := by rw [h.len]
  have hpos : 1 ≤ B.len.toNat := by
    rw [hn]
    exact h.pos
  have hs₃ : (swapSets A B s).2.2.Sound m₂ := ⟨rfl, fun _ hc => (by cases hc), hB⟩
  obtain ⟨m₃, hr₃, h₃⟩ := opWrite_moves hs₃ rfl hpos
    ⟨g₂.fitsB, fun hc => (by cases hc)⟩ (fun i k _ _ => (memref_ne_pkt rfl).symm)
  refine ⟨m₁, m₂, m₃, hr₁, hr₂, hr₃, ?_⟩
  change Moved A ⟨.memref s, 0⟩ (operand none A m.pkt.length) m m₁ at h₁
  change Moved A (operand none A m₁.pkt.length) (operand none B m₁.pkt.length) m₁ m₂ at h₂
  change Moved B (operand none B m₂.pkt.length) ⟨.memref s, 0⟩ m₂ m₃ at h₃
  rw [hl₁] at h₂
  rw [hl₂] at h₃
  have hroom := operand_room h.state (fun hc => (by cases hc))
  refine ⟨?_, ?_, fun a => ((h₃.kinds a).trans (h₂.kinds a)).trans (h₁.kinds a),
    h₁.sizes.trans (h₂.sizes.trans h₃.sizes)⟩
  · intro i hi x y hx hy
    obtain ⟨z, hz⟩ := hroom.at hi
    exact moved_swaps h.len h.mask h₁ h₂ h₃ hi (fun _ _ => memref_ne_pkt rfl)
      (fun _ _ => memref_ne_pkt rfl) h.disjoint hx hy hz
  · intro c hc hs
    rw [h₃.others c (fun i hi => (hc i (hn ▸ hi)).2), h₂.others c (fun i hi => (hc i hi).1),
      h₁.others c (fun i _ he => hs (congrArg Prod.fst he))]

/-- The same swap a second time undoes the first. -/
theorem Swapped.twice {m'' : Mem} (h : Swappable A B s m) (h₁ : Swapped A B s m m')
    (h₂ : Swapped A B s m' m'') : m''.pkt = m.pkt := by
  have hl := sameSizes_pkt h₁.sizes
  have hroomA : m.Room (operand none A m.pkt.length) A.len.toNat :=
    operand_room (fun _ hc => (by cases hc)) h.fitsA
  have hroomB : m.Room (operand none B m.pkt.length) B.len.toNat :=
    operand_room (fun _ hc => (by cases hc)) h.fitsB
  have hn : B.len.toNat = A.len.toNat := by rw [h.len]
  rw [hn] at hroomB
  have hback : ∀ i < A.len.toNat,
      m''.at (operand none A m.pkt.length) i = m.at (operand none A m.pkt.length) i ∧
        m''.at (operand none B m.pkt.length) i = m.at (operand none B m.pkt.length) i := by
    intro i hi
    obtain ⟨x, hx⟩ := hroomA.at hi
    obtain ⟨y, hy⟩ := hroomB.at hi
    obtain ⟨hx₁, hy₁⟩ := h₁.bytes i hi x y hx hy
    have hswap := h₂.bytes i hi (exchange (A.byteMask i) x y) (exchange (A.byteMask i) y x)
    rw [hl] at hswap
    obtain ⟨hx₂, hy₂⟩ := hswap hx₁ hy₁
    rw [hx₂, hy₂, exchange_exchange, exchange_exchange]
    exact ⟨hx.symm, hy.symm⟩
  apply List.ext_getElem?
  intro j
  change m''.cell (.pkt, j) = m.cell (.pkt, j)
  by_cases hj : ∃ i < A.len.toNat, (Region.pkt, j) = (operand none A m.pkt.length).cell i ∨
      (Region.pkt, j) = (operand none B m.pkt.length).cell i
  · obtain ⟨i, hi, he | he⟩ := hj
    · rw [he]
      exact (hback i hi).1
    · rw [he]
      exact (hback i hi).2
  · push Not at hj
    rw [h₂.others _ (by rw [hl]; exact hj) (by simp), h₁.others _ hj (by simp)]

end Memory

section Rout

/-- The fields and memrefs of an operation's two sides. -/
def Op.sides (op : Op) : Option Addr × Option Addr × Option Addr × Option Addr :=
  (op.dstField, op.dst, op.srcField, op.src)

/-- The writes [dst state `s`, src field `a`], [dst field `a`, src field `b`] and
[dst field `b`, src state `s`]. -/
def SwapQueue (a b s : Addr) (ops : List Op) : Prop :=
  ops.map Op.sides =
    [(none, some s, some a, none), (some a, none, some b, none), (some b, none, none, some s)]

instance {ops : List Op} : Decidable (SwapQueue a b s ops) :=
  inferInstanceAs (Decidable (_ = _))

/-- Two fields that a swap is meant for: equal lengths and masks, and extents that lie in
the packet and are disjoint. -/
structure Exchangeable (A B : FieldSet) (plen : Nat) : Prop where
  len : A.len = B.len
  mask : A.mask = B.mask
  pos : 1 ≤ A.len.toNat
  fitsA : 0 ≤ A.start plen ∧ A.start plen + A.len.toNat ≤ plen
  fitsB : 0 ≤ B.start plen ∧ B.start plen + B.len.toNat ≤ plen
  apart : A.start plen + A.len.toNat ≤ B.start plen ∨ B.start plen + B.len.toNat ≤ A.start plen

theorem Exchangeable.swappable (h : Exchangeable A B m.pkt.length) (hs : m.Backs (some s) A) :
    Swappable A B s m where
  len := h.len
  mask := h.mask
  pos := h.pos
  fitsA := fun _ => h.fitsA
  fitsB := fun _ => h.fitsB
  disjoint := by
    intro i k hi hk he
    have hoff : (A.start m.pkt.length).toNat + i = (B.start m.pkt.length).toNat + k :=
      (Prod.mk.inj he).2
    have hn : B.len.toNat = A.len.toNat := by rw [h.len]
    have := h.fitsA
    have := h.fitsB
    have := h.apart
    omega
  state := hs

theorem SetOf.eq {own other : Option Addr} {set : FieldSet} {f : Field} (h : SetOf w own other set)
    (ha : own.or other = some a) (hf : w.fields a = some f) : f.set = set := by
  obtain ⟨b, hb, -, hset⟩ := h
  rw [ha] at hb
  cases hb
  exact hset f hf

/-- The sets of a finished operation. -/
theorem OpOk.set_eq {op : Op} {f g : Field} (h : OpOk w op)
    (ha : op.dstField.or op.srcField = some a) (hf : w.fields a = some f)
    (hb : op.srcField.or op.dstField = some b) (hg : w.fields b = some g) :
    op.set = ⟨f.set, op.dst, g.set, op.src⟩ := by
  rw [h.setTo.eq ha hf, h.setFrom.eq hb hg, ← h.to', ← h.from']

theorem writes_swap {r : Rule} {f g : Field} (h : Consistent w live) (hr : w.rules a = some r)
    (hq : SwapQueue fa fb s r.writeJQ) (hf : w.fields fa = some f) (hg : w.fields fb = some g) :
    ∃ o₁ o₂ o₃, r.writeJQ = [o₁, o₂, o₃] ∧
      (o₁.set, o₂.set, o₃.set) = swapSets f.set g.set s ∧ w.toMem.Backs (some s) f.set := by
  obtain ⟨o₁, q₁, hw, hs₁, hq⟩ := List.map_eq_cons_iff.mp hq
  obtain ⟨o₂, q₂, rfl, hs₂, hq⟩ := List.map_eq_cons_iff.mp hq
  obtain ⟨o₃, q₃, rfl, hs₃, hq⟩ := List.map_eq_cons_iff.mp hq
  obtain rfl := List.map_eq_nil_iff.mp hq
  simp only [Op.sides, Prod.mk.injEq] at hs₁ hs₂ hs₃
  obtain ⟨d₁, t₁, s₁, f₁⟩ := hs₁
  obtain ⟨d₂, t₂, s₂, f₂⟩ := hs₂
  obtain ⟨d₃, t₃, s₃, f₃⟩ := hs₃
  have hok : ∀ op ∈ [o₁, o₂, o₃], OpOk w op := by
    intro op ho
    exact h.ops a r hr op (List.mem_append_right _ (hw ▸ ho))
  have ok₁ := hok o₁ (by simp)
  have e₁ := ok₁.set_eq (f := f) (g := f) (by rw [d₁, s₁]; rfl) hf (by rw [d₁, s₁]; rfl) hf
  have e₂ := (hok o₂ (by simp)).set_eq (f := f) (g := g) (by rw [d₂]; rfl) hf (by rw [s₂]; rfl) hg
  have e₃ := (hok o₃ (by simp)).set_eq (f := g) (g := g) (by rw [d₃]; rfl) hg
    (by rw [d₃, s₃]; rfl) hg
  refine ⟨o₁, o₂, o₃, hw, ?_, ?_⟩
  · rw [e₁, e₂, e₃, t₁, t₂, t₃, f₁, f₂, f₃]
    rfl
  · have hmem : o₁ ∈ r.matchJQ ++ r.writeJQ := List.mem_append_right _ (by rw [hw]; simp)
    have hlive := operands_live h hr hmem
    have hb : w.toMem.Backs o₁.dst o₁.set.setTo := by
      refine Backed.backs ok₁.dst ?_ (fun _ => rfl)
      intro x hx
      exact Option.isSome_iff_exists.mp (hlive x (.inl (by rw [ok₁.to', hx])))
    rw [t₁, e₁] at hb
    exact hb

theorem opWriteRecorded_ok {op : OpSet} (h : opWrite env.cpy op w.toMem = .ok (0, m')) :
    ∃ v, opWriteRecorded env op w = .ok (0, v) ∧ v.toMem = m' := by
  have hl : liftMem (opWrite env.cpy op) w = .ok (0, { w with toMem := m' }) := by
    unfold liftMem
    rw [h]
  have hrun : Runs (fun _ => False) (opWriteRecorded env op) w (fun rc v => rc = 0 ∧ v.toMem = m') := by
    unfold opWriteRecorded
    rw [Runs.bind_iff, Runs.get_iff]
    refine Runs.bind (R := fun rc t => rc = 0 ∧ t.toMem = m') (Runs.of_ok hl ⟨rfl, rfl⟩) ?_
    intro rc t ht
    obtain ⟨rfl, ht⟩ := ht
    rw [if_pos rfl]
    exact ⟨rfl, ht⟩
  obtain ⟨rc, v, hr, rfl, hv⟩ := hrun.exists_ok
  exact ⟨v, hr, hv⟩

/-- The three writes of a swap, as `rout_set_exec` does them. -/
theorem exec_swaps {rst : Addr} {set : RoutSet} {r : Rule} {o₁ o₂ o₃ : Op}
    (hset : w.rsets rst = some set) (hroot : set.writeJQ = some a) (hr : w.rules a = some r)
    (hops : r.writeJQ = [o₁, o₂, o₃]) (he : (o₁.set, o₂.set, o₃.set) = swapSets A B s)
    (h : Swappable A B s w.toMem) :
    ∃ v, routSetExec env rst w = .ok (true, v) ∧ Swapped A B s w.toMem v.toMem ∧
      v.rsets = w.rsets ∧ v.rules = w.rules := by
  obtain ⟨m₁, m₂, m₃, hr₁, hr₂, hr₃, hswap⟩ := swap_mem h
  rw [← he] at hr₁ hr₂ hr₃
  obtain ⟨w₁, hw₁, rfl⟩ := opWriteRecorded_ok hr₁
  obtain ⟨w₂, hw₂, rfl⟩ := opWriteRecorded_ok hr₂
  obtain ⟨w₃, hw₃, rfl⟩ := opWriteRecorded_ok hr₃
  have happ : Applied env [o₁, o₂, o₃] w w₃ :=
    .cons _ _ _ _ _ hw₁ (.cons _ _ _ _ _ hw₂ (.cons _ _ _ _ _ hw₃ (.nil _)))
  refine ⟨w₃, ?_, hswap, happ.frame⟩
  simp only [routSetExec, bind_eq_ok, deref_ok, opQueue_ok]
  refine ⟨_, _, ⟨hset, rfl⟩, _, _, ⟨?_, rfl⟩, writeAll_true.mpr happ⟩
  rw [hroot]
  exact ⟨r, hr, hops⟩

/-- A rule that swaps two fields through a state does so, and the second time it puts the
packet back. -/
theorem swap_through_state {rst : Addr} {set : RoutSet} {r : Rule} {f g : Field}
    (h : Consistent w live) (hset : w.rsets rst = some set) (hroot : set.writeJQ = some a)
    (hr : w.rules a = some r) (hq : SwapQueue fa fb s r.writeJQ) (hf : w.fields fa = some f)
    (hg : w.fields fb = some g) (hx : Exchangeable f.set g.set w.pkt.length) :
    ∃ v u, routSetExec env rst w = .ok (true, v) ∧ Swapped f.set g.set s w.toMem v.toMem ∧
      routSetExec env rst v = .ok (true, u) ∧ u.pkt = w.pkt := by
  obtain ⟨o₁, o₂, o₃, hops, he, hb⟩ := writes_swap h hr hq hf hg
  have hs := hx.swappable hb
  obtain ⟨v, hv, hswap, hsets, hrules⟩ := exec_swaps hset hroot hr hops he hs
  obtain ⟨u, hu, hagain, -⟩ := exec_swaps (w := v) (by rw [hsets]; exact hset) hroot
    (by rw [hrules]; exact hr) hops he (hs.mono hswap.kinds hswap.sizes)
  exact ⟨v, u, hv, hswap, hu, Swapped.twice hs hswap hagain⟩

/-- `{rule: x, write: [{dst: {state: s}, src: {field: f}}, {dst: {field: f}, src: {field: g}},
{dst: {field: g}, src: {state: s}}]}` -/
def ruleSwap : Document where
  size := 18
  node := List.get [.mapping [(1, 2), (3, 4)], .scalar "rule", .scalar "x", .scalar "write",
    .sequence [5, 6, 7], .mapping [(8, 9), (10, 11)], .mapping [(8, 11), (10, 12)],
    .mapping [(8, 12), (10, 9)], .scalar "dst", .mapping [(13, 14)], .scalar "src",
    .mapping [(15, 16)], .mapping [(15, 17)], .scalar "state", .scalar "s", .scalar "field",
    .scalar "f", .scalar "g"]

def ruleSwapAdd : Event :=
  .mapping .rule .add ruleSwap ([(1, 2), (3, 4)] : List (Fin 18 × Fin 18))

/-- `{field: f, offt: 0, len: 2, mask: 15}`, `{field: g, offt: 2, len: 2, mask: 15}` -/
def nibbleFields : Document where
  size := 11
  node := List.get [.mapping [(2, 3), (5, 6), (8, 7), (9, 10)],
    .mapping [(2, 4), (5, 7), (8, 7), (9, 10)], .scalar "field", .scalar "f", .scalar "g",
    .scalar "offt", .scalar "0", .scalar "2", .scalar "len", .scalar "mask", .scalar "15"]

def nibbleFieldAdds : List Event :=
  [.mapping .field .add nibbleFields
      ([(2, 3), (5, 6), (8, 7), (9, 10)] : List (Fin 11 × Fin 11)),
    .mapping .field .add nibbleFields
      ([(2, 4), (5, 7), (8, 7), (9, 10)] : List (Fin 11 × Fin 11))]

/-- Fields of a byte and a half are swapped. -/
def swapNibbles : List Event :=
  nibbleFieldAdds ++ ruleSwapAdd :: reflectE.take 1 ++ reflectE.drop 2 ++
    [.packet 5 (.packet false [0x12, 0x34, 0x56, 0x78])]

theorem swapNibbles_runs : Runs (fun _ => False) (handleAll .sample swapNibbles)
    (World.start [] [] []) (fun _ w => w.rsets 6 = some ⟨5, none, some 4, 1⟩ ∧
      (∃ r ∈ w.rules 4, SwapQueue 1 2 3 r.writeJQ) ∧
      w.fields 1 = some ⟨"f", ⟨0, 2, 0x0f, 0⟩, 2⟩ ∧ w.fields 2 = some ⟨"g", ⟨2, 2, 0x0f, 0⟩, 2⟩ ∧
      w.pkt = [0x56, 0x38, 0x12, 0x74]) := by
  decide +kernel

theorem swap_through_state_nibbles : ∃ w v u, handleAll .sample swapNibbles (World.start [] [] []) =
      .ok ((), w) ∧
    routSetExec .sample 6 w = .ok (true, v) ∧
    Swapped ⟨0, 2, 0x0f, 0⟩ ⟨2, 2, 0x0f, 0⟩ 3 w.toMem v.toMem ∧
    routSetExec .sample 6 v = .ok (true, u) ∧ u.pkt = w.pkt := by
  obtain ⟨_, w, hw, hset, ⟨r, hr, hq⟩, hf, hg, hpkt⟩ := swapNibbles_runs.exists_ok
  obtain ⟨live, hc⟩ := Reachable.consistent ⟨[], [], [], swapNibbles, hw⟩
  have hx : Exchangeable ⟨0, 2, 0x0f, 0⟩ ⟨2, 2, 0x0f, 0⟩ w.pkt.length := by
    rw [hpkt]
    exact ⟨rfl, rfl, by decide, by decide, by decide, by decide⟩
  obtain ⟨v, u, h⟩ := swap_through_state hc hset rfl hr hq hf hg hx
  exact ⟨w, v, u, hw, h⟩

end Rout

end Xdpacket
