import Xdpacket.Lib.Tables
import Xdpacket.Proofs.Swap

namespace Xdpacket

variable {w v : World} {live : Multiset Ref} {env : Env} {a : Addr} {ref : Option Addr}
  {set : FieldSet} {op : OpSet}

section Abstraction

def FieldSet.slice (set : FieldSet) : Slice := ⟨set.offt.toInt, set.len.toNat, set.mask⟩

/-- What one side of an operation names: the packet, a state, or the bytes of a value. -/
def World.place (w : World) (ref : Option Addr) : Place Text :=
  match ref with
  | none => .packet
  | some a =>
    match w.memrefs a with
    | none => .literal []
    | some r =>
      match r.stateName with
      | some name => .buffer name
      | none => .literal r.bytes

def World.transfer (w : World) (op : OpSet) : Transfer Text :=
  ⟨⟨op.setTo.slice, w.place op.to'⟩, ⟨op.setFrom.slice, w.place op.from'⟩⟩

/-- The bytes of the state of a name. -/
def World.buffers (w : World) (name : Text) : Option Bytes :=
  (AList.lookup name w.stateJS).bind (fun a => (w.memrefs a).map Memref.bytes)

def World.storage (w : World) : Storage Text := ⟨w.pkt, w.buffers⟩

end Abstraction

section Reading

/-- The states of a world are those of its store. -/
def StatesNamed (w : World) : Prop := Registered w.stateJS w.memrefs Memref.stateName

theorem buffers_state {r : Memref} {name : Text} (h : StatesNamed w) (hr : w.memrefs a = some r)
    (hn : r.stateName = some name) : w.buffers name = some r.bytes := by
  unfold World.buffers
  rw [h.listed hr hn, Option.bind_some, hr, Option.map_some]

theorem slice_locate : set.slice.locate plen =
    if 0 ≤ set.start plen ∧ set.start plen + set.len.toNat ≤ plen then some (set.start plen).toNat
    else none :=
  rfl

/-- A side that fits reads the bytes of its operand. -/
theorem read_fits (h : StatesNamed w) (hb : w.toMem.Backs ref set) (hf : Fits ref set w.pkt.length) :
    ∃ bs, w.storage.read ⟨set.slice, w.place ref⟩ = some bs ∧ bs.length = set.len.toNat ∧
      ∀ i < set.len.toNat, w.toMem.at (operand ref set w.pkt.length) i = bs[i]? := by
  cases ref with
  | none =>
    obtain ⟨hlow, hhigh⟩ := hf rfl
    refine ⟨(w.pkt.drop (set.start w.pkt.length).toNat).take set.len.toNat, ?_, ?_, ?_⟩
    · simp only [Storage.read, World.place, World.storage, slice_locate, hlow, hhigh, and_self,
        if_true, Option.map_some]
      rfl
    · rw [List.length_take, List.length_drop]
      omega
    · intro i hi
      rw [List.getElem?_take_of_lt hi, List.getElem?_drop]
      rfl
  | some a =>
    obtain ⟨r, hr, hl⟩ := hb a rfl
    refine ⟨r.bytes, ?_, by rw [r.sized, hl], fun i _ => ?_⟩
    · unfold Storage.read World.place
      simp only [hr]
      cases hn : r.stateName with
      | none => rfl
      | some name => exact buffers_state h hr hn
    · have hat := at_memref (m := w.toMem) hr i
      exact hat

theorem read_misfit (hf : ¬ Fits ref set w.pkt.length) :
    w.storage.read ⟨set.slice, w.place ref⟩ = none := by
  cases ref with
  | some a => exact absurd (fun hn => by cases hn) hf
  | none =>
    simp only [Storage.read, World.place, World.storage, slice_locate]
    rw [if_neg (fun hc => hf (fun _ => hc))]
    rfl

end Reading

section Matching

@[simp] theorem transfer_dst : (w.transfer op).dst = ⟨op.setTo.slice, w.place op.to'⟩ := rfl

@[simp] theorem transfer_src : (w.transfer op).src = ⟨op.setFrom.slice, w.place op.from'⟩ := rfl

theorem transfer_sound (ht : w.toMem.Backs op.to' op.setTo) (hf : w.toMem.Backs op.from' op.setFrom)
    (hl : (w.transfer op).dst.slice.len = (w.transfer op).src.slice.len) : op.Sound w.toMem :=
  ⟨UInt16.toNat_inj.mp hl, ht, hf⟩

/-- A side of the packet that is not all there cannot be read. -/
theorem transfer_missing (hf : ¬ op.Fits w.pkt.length) :
    w.storage.read (w.transfer op).dst = none ∨ w.storage.read (w.transfer op).src = none := by
  by_cases ht : Fits op.to' op.setTo w.pkt.length
  · exact .inr (read_misfit (fun hs => hf ⟨ht, hs⟩))
  · exact .inl (read_misfit ht)

/-- `op_match` answers what the transfer does. -/
theorem match_agrees {b : Bool} (h : StatesNamed w) (ht : w.toMem.Backs op.to' op.setTo)
    (hf : w.toMem.Backs op.from' op.setFrom) (ha : (w.transfer op).agrees w.storage = some b) :
    ∃ rc, opMatch op w.toMem = .ok (rc, w.toMem) ∧ (rc = 0 ↔ b = true) := by
  have hl := Transfer.len_of_agrees ha
  have hs := transfer_sound ht hf hl
  by_cases hn : op.setTo.len.toNat = 0
  · rw [Transfer.agrees_empty hl hn] at ha
    cases ha
    exact ⟨0, opMatch_empty hs hn, by simp⟩
  by_cases hfit : op.Fits w.pkt.length
  · obtain ⟨d, hd, hdl, hdat⟩ := read_fits h ht hfit.1
    obtain ⟨s, hs', hsl, hsat⟩ := read_fits h hf hfit.2
    rw [Transfer.agrees_read hl hn hd hs'] at ha
    obtain ⟨rc, hr, hrc⟩ := opMatch_fits hs (by omega) hfit
    refine ⟨rc, hr, ?_⟩
    rw [hrc, ← Option.some.inj ha, decide_eq_true_iff,
      underMask_eq_iff hdl (hsl.trans (congrArg UInt16.toNat hs.equal.symm))]
    rw [← hs.equal] at hsat
    constructor
    · intro hm i x y hx hy
      have hi := (List.getElem?_eq_some_iff.mp hx).1
      exact hm.2 i x y (by omega) ((hdat i (by omega)).trans hx) ((hsat i (by omega)).trans hy)
    · intro hall
      refine ⟨hfit, ?_⟩
      intro i x y hi hx hy
      exact hall i x y ((hdat i hi).symm.trans hx) ((hsat i hi).symm.trans hy)
  · rw [Transfer.agrees_missing hl hn (transfer_missing hfit)] at ha
    cases ha
    obtain ⟨rc, hr, hrc⟩ := opMatch_refuses hs (by omega) hfit
    exact ⟨rc, hr, by simpa using fun hz => hfit (hrc.mp hz).1⟩

end Matching

section Writing

/-- A write of no bytes is applied, wherever its fields are. -/
theorem opWrite_empty {m : Mem} (h : op.Sound m) (hn : op.setTo.len.toNat = 0) :
    opWrite env.cpy op m = .ok (0, m) := by
  have hrun : Runs (fun _ => False) (opWrite env.cpy op) m (fun rc t => rc = 0 ∧ t = m) := by
    unfold opWrite
    rw [Runs.bind_iff, Runs.get_iff, h.common_nop hn]
    exact ⟨rfl, rfl⟩
  obtain ⟨rc, m', hr, rfl, rfl⟩ := hrun.exists_ok
  exact hr

/-- Operands at one place are separate as well. -/
theorem separate_of_same {p : Ptr} {len : Nat} {m : Mem} : Separate op p p len m where
  body := by
    intro i _ k _ he
    rw [p.cell_injective he]
  last := fun k hk he => absurd (p.cell_injective he) (by omega)

/-- Operands of a transfer that do not overlap are separate, or the same. -/
theorem transfer_separate {len : Nat} (hl : op.setTo.len = op.setFrom.len)
    (hf : op.Fits w.pkt.length) (hlen : len < op.setTo.len.toNat)
    (ho : ¬ (w.transfer op).Overlapping w.pkt.length) :
    Separate op (op.dst w.pkt.length) (op.src w.pkt.length) len w.toMem := by
  by_cases hsame : op.dst w.pkt.length = op.src w.pkt.length
  · rw [hsame]
    exact separate_of_same
  refine separate_of_apart ?_
  intro i hi k hk he
  cases ht : op.to' with
  | some a =>
    cases hs : op.from' with
    | some b =>
      simp only [OpSet.dst, OpSet.src, operand, ht, hs, Ptr.cell, Prod.mk.injEq] at he hsame
      exact hsame (by rw [he.1])
    | none => simp [OpSet.dst, OpSet.src, operand, ht, hs, Ptr.cell] at he
  | none =>
    cases hs : op.from' with
    | some b => simp [OpSet.dst, OpSet.src, operand, ht, hs, Ptr.cell] at he
    | none =>
      obtain ⟨hlow, hhigh⟩ := hf.1 ht
      obtain ⟨hlow', hhigh'⟩ := hf.2 hs
      simp only [OpSet.dst, OpSet.src, operand, ht, hs, Ptr.cell, Prod.mk.injEq, true_and,
        Ptr.mk.injEq] at he hsame
      apply ho
      simp only [Transfer.Overlapping, transfer_dst, transfer_src, World.place, ht, hs, slice_locate,
        hlow, hhigh, hlow', hhigh', and_self, if_true]
      refine ⟨hsame, ?_, ?_⟩
      · change _ < _ + op.setFrom.len.toNat
        rw [← hl]
        omega
      · change _ < _ + op.setTo.len.toNat
        omega

/-- The bytes of an operand after a transfer. -/
theorem transferred_overlay {p q : Ptr} {m m' : Mem} {d b : Bytes} {n : Nat}
    (ht : Transferred op p q (n - 1) m m') (hd : d.length = n) (hb : b.length = n)
    (hdat : ∀ i < n, m.at p i = d[i]?) (hbat : ∀ i < n, m.at q i = b[i]?) :
    ∀ i < n, m'.at p i = (overlay op.setTo.mask op.setFrom.mask d b)[i]? := by
  intro i hi
  rw [getElem?_overlay, hb]
  obtain ⟨x, hx⟩ : ∃ x, d[i]? = some x := ⟨_, List.getElem?_eq_getElem (by omega)⟩
  obtain ⟨y, hy⟩ : ∃ y, b[i]? = some y := ⟨_, List.getElem?_eq_getElem (by omega)⟩
  by_cases hlast : i + 1 < n
  · rw [ht.body i (by omega), hbat i hi, hy]
    simp [hlast]
  · obtain rfl : i = n - 1 := by omega
    rw [ht.last _ _ ((hdat _ hi).trans hx) ((hbat _ hi).trans hy), hy]
    simp [hlast, maskByte, List.getD_eq_getElem?_getD, hx]

/-- What has the same kind and the same bytes is the same memref. -/
theorem memref_same {m m' : Mem} (hk : m.SameKinds m')
    (hb : (m'.memrefs a).map Memref.bytes = (m.memrefs a).map Memref.bytes) :
    m'.memrefs a = m.memrefs a := by
  have ha := hk a
  cases hr : m.memrefs a with
  | none =>
    rw [hr] at ha
    exact Option.map_eq_none_iff.mp ha
  | some r =>
    rw [hr] at ha hb
    obtain ⟨r', hr', he⟩ := Option.map_eq_some_iff.mp ha
    rw [hr'] at hb ⊢
    obtain ⟨kind, set, bytes, sized⟩ := r
    obtain ⟨kind', set', bytes', sized'⟩ := r'
    simp only [Prod.mk.injEq, Option.map_some, Option.some.injEq] at he hb
    obtain ⟨rfl, rfl⟩ := he
    subst hb
    rfl

/-- A transfer leaves every memref that it does not go to. -/
theorem Transferred.memref {p q : Ptr} {len : Nat} {m m' : Mem} (ht : Transferred op p q len m m')
    (hp : p.region ≠ .memref a) : m'.memrefs a = m.memrefs a := by
  refine memref_same ht.kinds (memref_bytes ht.kinds (fun r hr j => ?_))
  rw [← at_memref hr]
  exact ht.others (Ptr.cell ⟨.memref a, 0⟩ j) (fun i _ he => hp (congrArg Prod.fst he).symm)

/-- A transfer to a memref leaves the packet. -/
theorem Transferred.pkt {p q : Ptr} {len : Nat} {m m' : Mem} (ht : Transferred op p q len m m')
    (hp : p.region ≠ .pkt) : m'.pkt = m.pkt := by
  apply List.ext_getElem?
  intro j
  exact ht.others (.pkt, j) (fun i _ he => hp (congrArg Prod.fst he).symm)

/-- A transfer to the packet puts its bytes over the ones there. -/
theorem Transferred.splices {p q : Ptr} {len : Nat} {m m' : Mem} {bs : Bytes}
    (ht : Transferred op p q len m m') (hp : p.region = .pkt) (hlen : bs.length = len + 1)
    (hroom : p.off + bs.length ≤ m.pkt.length) (hnew : ∀ i < bs.length, m'.at p i = bs[i]?) :
    m'.pkt = m.pkt.take p.off ++ bs ++ m.pkt.drop (p.off + bs.length) := by
  have hat : ∀ i, m'.at p i = m'.pkt[p.off + i]? := by
    intro i
    unfold Mem.at
    rw [hp]
    rfl
  apply List.ext_getElem?
  intro j
  rw [getElem?_splice hroom]
  split
  · rename_i hj
    rw [← hnew (j - p.off) (by omega), hat]
    congr 1
    omega
  · refine ht.others (.pkt, j) (fun i hi he => ?_)
    have := congrArg Prod.snd he
    simp only [Ptr.cell] at this
    omega

/-- A transfer to a state puts its bytes there. -/
theorem Transferred.fills {p q : Ptr} {len : Nat} {m m' : Mem} {bs : Bytes} {r : Memref}
    (ht : Transferred op p q len m m') (hp : p = ⟨.memref a, 0⟩) (hlen : bs.length = len + 1)
    (hr : m.memrefs a = some r) (hsize : r.bytes.length = bs.length)
    (hnew : ∀ i < bs.length, m'.at p i = bs[i]?) : (m'.memrefs a).map Memref.bytes = some bs := by
  have hb : (m'.memrefs a).map Memref.bytes = (m.memrefs a).map (fun _ => bs) := by
    refine memref_bytes ht.kinds (fun r' hr' j => ?_)
    rw [hr] at hr'
    cases hr'
    by_cases hj : j < bs.length
    · rw [← hp, hnew j hj]
    · have hkeep : m'.at ⟨.memref a, 0⟩ j = m.at ⟨.memref a, 0⟩ j := by
        refine ht.others (Ptr.cell ⟨.memref a, 0⟩ j) (fun i hi he => ?_)
        rw [hp] at he
        have := Ptr.cell_injective _ he
        omega
      rw [hkeep, at_memref hr, List.getElem?_eq_none (by omega), List.getElem?_eq_none (by omega)]
  rw [hb, hr, Option.map_some]

theorem buffers_congr (hjs : v.stateJS = w.stateJS)
    (hm : ∀ a, (v.memrefs a).map Memref.bytes = (w.memrefs a).map Memref.bytes) :
    v.buffers = w.buffers := by
  funext name
  unfold World.buffers
  rw [hjs]
  simp only [hm]

/-- The storage after a transfer to the packet. -/
theorem storage_packet {m : Mem} {bs : Bytes} {q : Ptr} (hto : op.to' = none)
    (hf : op.Fits w.pkt.length) (hn : op.setTo.len.toNat ≠ 0) (hlen : bs.length = op.setTo.len.toNat)
    (ht : Transferred op (op.dst w.pkt.length) q (op.setTo.len.toNat - 1) w.toMem m)
    (hnew : ∀ i < op.setTo.len.toNat, m.at (op.dst w.pkt.length) i = bs[i]?) :
    w.storage.write (w.transfer op).dst bs = some (World.storage { w with toMem := m }) := by
  obtain ⟨hlow, hhigh⟩ := hf.1 hto
  have hdst : op.dst w.pkt.length = ⟨.pkt, (op.setTo.start w.pkt.length).toNat⟩ := by
    unfold OpSet.dst
    rw [hto]
    rfl
  have hroom : (op.dst w.pkt.length).off + bs.length ≤ w.pkt.length := by
    rw [hdst]
    change (op.setTo.start w.pkt.length).toNat + bs.length ≤ w.pkt.length
    omega
  have hsp := ht.splices (by rw [hdst]) (by omega) hroom (by rw [hlen]; exact hnew)
  have hbuf : World.buffers { w with toMem := m } = w.buffers := by
    refine buffers_congr rfl (fun b => ?_)
    rw [ht.memref (by rw [hdst]; exact fun h => by cases h)]
  simp only [Storage.write, transfer_dst, World.place, hto, World.storage, slice_locate, hlow, hhigh,
    and_self, if_true, Option.map_some, hbuf, hsp, hdst]

/-- The storage after a transfer to a state. -/
theorem storage_state {m : Mem} {bs : Bytes} {q : Ptr} {r : Memref} {name : Text} (h : StatesNamed w)
    (hto : op.to' = some a) (hr : w.memrefs a = some r) (hname : r.stateName = some name)
    (hn : op.setTo.len.toNat ≠ 0) (hlen : bs.length = op.setTo.len.toNat)
    (hsize : r.bytes.length = op.setTo.len.toNat)
    (ht : Transferred op (op.dst w.pkt.length) q (op.setTo.len.toNat - 1) w.toMem m)
    (hnew : ∀ i < op.setTo.len.toNat, m.at (op.dst w.pkt.length) i = bs[i]?) :
    w.storage.write (w.transfer op).dst bs = some (World.storage { w with toMem := m }) := by
  have hdst : op.dst w.pkt.length = ⟨.memref a, 0⟩ := by
    unfold OpSet.dst
    rw [hto]
    rfl
  rw [← hlen] at hnew
  have hfill := ht.fills hdst (by omega) hr (by omega) hnew
  have hpkt := ht.pkt (by rw [hdst]; exact fun h => by cases h)
  have hplace : w.place op.to' = .buffer name := by
    simp [World.place, hto, hr, hname]
  have hbuf : World.buffers { w with toMem := m } = Function.update w.buffers name (some bs) := by
    funext k
    by_cases hk : k = name
    · subst hk
      rw [Function.update_self]
      unfold World.buffers
      rw [h.listed hr hname]
      exact hfill
    · rw [Function.update_of_ne hk]
      unfold World.buffers
      cases hl : AList.lookup k w.stateJS with
      | none => rfl
      | some b =>
        have hne := h.found_ne (h.listed hr hname) hl hk
        simp only [Option.bind_some]
        rw [ht.memref]
        rw [hdst]
        exact fun he => hne (Region.memref.inj he).symm
  simp only [Storage.write, transfer_dst, hplace, World.storage, hbuf, hpkt]

variable (env) in
/-- What `op_write` does to the storage of a world is the transfer, and no value changes. -/
theorem write_performs {t : Storage Text} (h : StatesNamed w) (ht : w.toMem.Backs op.to' op.setTo)
    (hf : w.toMem.Backs op.from' op.setFrom)
    (hstate : ∀ a r, op.to' = some a → w.memrefs a = some r → r.stateName.isSome)
    (hp : (w.transfer op).perform w.storage = some (some t)) :
    ∃ m, opWrite env.cpy op w.toMem = .ok (0, m) ∧ World.storage { w with toMem := m } = t ∧
      w.toMem.SameKinds m ∧ ∀ a r, w.memrefs a = some r → r.stateName = none → m.memrefs a = some r := by
  have hl := Transfer.len_of_perform hp
  have hs := transfer_sound ht hf hl
  by_cases hn : op.setTo.len.toNat = 0
  · rw [Transfer.perform_empty hl hn] at hp
    cases hp
    exact ⟨w.toMem, opWrite_empty hs hn, rfl, fun _ => rfl, fun _ _ hr _ => hr⟩
  by_cases hfit : op.Fits w.pkt.length
  swap
  · rw [Transfer.perform_missing hl hn (transfer_missing hfit)] at hp
    cases hp
  obtain ⟨d, hd, hdl, hdat⟩ := read_fits h ht hfit.1
  obtain ⟨b, hb, hbl, hbat⟩ := read_fits h hf hfit.2
  rw [Transfer.perform_read hl hn hd hb] at hp
  split at hp
  · cases hp
  rename_i hover
  obtain ⟨m, hr, htr⟩ := @opWrite_fits _ _ env.cpy hs (by omega) hfit
    (transfer_separate hs.equal hfit (by omega) hover)
  rw [← hs.equal] at hbl hbat
  have hnew := transferred_overlay htr hdl hbl hdat hbat
  have hlen : (overlay op.setTo.mask op.setFrom.mask d b).length = op.setTo.len.toNat :=
    length_overlay.trans hbl
  obtain ⟨t', ht', he⟩ := Option.map_eq_some_iff.mp hp
  cases he
  refine ⟨m, hr, ?_, htr.kinds, ?_⟩
  · cases hto : op.to' with
    | none =>
      exact Option.some.inj ((storage_packet hto hfit hn hlen htr hnew).symm.trans ht')
    | some a =>
      obtain ⟨r, hra, hlr⟩ := ht a hto
      obtain ⟨name, hname⟩ := Option.isSome_iff_exists.mp (hstate a r hto hra)
      exact Option.some.inj ((storage_state h hto hra hname hn hlen (by rw [r.sized, hlr]) htr
        hnew).symm.trans ht')
  · intro a r hra hv
    rw [htr.memref, hra]
    intro hreg
    cases hto : op.to' with
    | none => simp [OpSet.dst, operand, hto] at hreg
    | some b =>
      obtain rfl : b = a := by simpa [OpSet.dst, operand, hto] using hreg
      have := hstate b r hto hra
      rw [hv] at this
      cases this

end Writing

end Xdpacket
