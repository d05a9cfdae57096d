import Xdpacket.Proofs.Access
import Xdpacket.Proofs.FirstMatch

namespace Xdpacket

variable {m m' : Mem} {p q dst src : Ptr} {i j : Nat} {v : UInt8}

/-- The byte at index `i` of `p`, if there is one. -/
def Mem.at (m : Mem) (p : Ptr) (i : Nat) : Option UInt8 :=
  (m.bytes p.region).bind (fun bs => bs[p.off + i]?)

/-- Every memref is there still, with its kind and its set. -/
def Mem.SameKinds (m m' : Mem) : Prop :=
  ∀ a, (m'.memrefs a).map (fun r => (r.kind, r.set)) = (m.memrefs a).map (fun r => (r.kind, r.set))

theorem Mem.SameKinds.trans {m'' : Mem} (h : m.SameKinds m') (h' : m'.SameKinds m'') :
    m.SameKinds m'' :=
  fun a => (h' a).trans (h a)

theorem setByte_sameKinds (m : Mem) (r : Region) (k : Nat) (v : UInt8) :
    m.SameKinds (m.setByte r k v) := by
  intro a
  cases r with
  | pkt => rfl
  | memref b =>
    by_cases hab : a = b
    · subst hab
      simp only [Mem.setByte, Function.update_self]
      cases m.memrefs a <;> rfl
    · simp only [Mem.setByte, Function.update_of_ne hab]

/-- The bytes of an object after one store. -/
theorem bytes_setByte (m : Mem) (r s : Region) (k : Nat) (v : UInt8) :
    (m.setByte r k v).bytes s = if s = r then (m.bytes s).map (fun bs => bs.set k v) else m.bytes s := by
  cases r with
  | pkt => cases s <;> simp [Mem.setByte, Mem.bytes]
  | memref b =>
    cases s with
    | pkt => simp [Mem.setByte, Mem.bytes]
    | memref a =>
      by_cases hab : a = b
      · subst hab
        simp only [Mem.setByte, Mem.bytes, Function.update_self, if_true]
        cases m.memrefs a <;> rfl
      · simp [Mem.setByte, Mem.bytes, hab]

theorem at_setByte_ne {r : Region} {k : Nat} (h : q.region ≠ r ∨ q.off + j ≠ k) :
    (m.setByte r k v).at q j = m.at q j := by
  unfold Mem.at
  rw [bytes_setByte]
  by_cases hr : q.region = r
  · rw [if_pos hr]
    rcases h with h | h
    · exact absurd hr h
    · cases m.bytes q.region with
      | none => rfl
      | some bs => exact List.getElem?_set_ne (Ne.symm h)
  · rw [if_neg hr]

theorem at_setByte_self (h : (m.at q j).isSome) :
    (m.setByte q.region (q.off + j) v).at q j = some v := by
  unfold Mem.at at h ⊢
  rw [bytes_setByte, if_pos rfl]
  cases hb : m.bytes q.region with
  | none =>
    rw [hb] at h
    cases h
  | some bs =>
    rw [hb, Option.bind_some] at h
    obtain ⟨b, hb⟩ := Option.isSome_iff_exists.mp h
    exact List.getElem?_set_self (List.getElem?_eq_some_iff.mp hb).1

theorem load_at (p : Ptr) (i : Nat) :
    Runs (fun _ => True) (load p i) m (fun b t => t = m ∧ m.at p i = some b) := by
  unfold Runs load Mem.at
  cases m.bytes p.region with
  | none => trivial
  | some bs =>
    simp only [Option.bind_some]
    cases bs[p.off + i]? with
    | none => trivial
    | some b => exact ⟨rfl, rfl⟩

theorem store_at (p : Ptr) (i : Nat) (v : UInt8) :
    Runs (fun _ => True) (store p i v) m (fun _ t =>
      t = m.setByte p.region (p.off + i) v ∧ (m.at p i).isSome) := by
  unfold Runs store Mem.at
  cases m.bytes p.region with
  | none => trivial
  | some bs =>
    by_cases hi : p.off + i < bs.length
    · simp only [if_pos hi]
      exact ⟨trivial, by rw [Option.bind_some, List.getElem?_eq_getElem hi]; rfl⟩
    · simp only [if_neg hi]

/-- What a copy leaves: the source bytes `s` at the indices it visits, and every
other byte as it was. -/
structure Copied (dst src : Ptr) (s : Nat → UInt8) (is : List Nat) (m m' : Mem) : Prop where
  kinds : m.SameKinds m'
  sizes : m.SameSizes m'
  source : ∀ i b, m'.at src i = some b → b = s i
  written : ∀ i ∈ is, m'.at dst i = some (s i)
  others : ∀ q j, (q.region ≠ dst.region ∨ ∀ i ∈ is, q.off + j ≠ dst.off + i) →
    m'.at q j = m.at q j

theorem copyBytes_at {s : Nat → UInt8} {is : List Nat} (hsep : src = dst ∨ src.region ≠ dst.region)
    (hs : ∀ i b, m.at src i = some b → b = s i) :
    Runs (fun _ => True) (copyBytes dst src is) m (fun _ m' => Copied dst src s is m m') := by
  induction is generalizing m with
  | nil => exact ⟨fun _ => rfl, .refl m, hs, fun i hi => (by cases hi), fun _ _ _ => rfl⟩
  | cons i is ih =>
    unfold copyBytes
    refine Runs.bind (load_at src i) ?_
    intro b m₁ hb
    obtain ⟨rfl, hb⟩ := hb
    obtain rfl := hs i b hb
    refine Runs.bind (store_at dst i (s i)) ?_
    intro _ m₂ hm₂
    obtain ⟨rfl, hdst⟩ := hm₂
    have hs' : ∀ k b, (m₁.setByte dst.region (dst.off + i) (s i)).at src k = some b → b = s k := by
      intro k b hk
      by_cases hkeep : src.region ≠ dst.region ∨ src.off + k ≠ dst.off + i
      · rw [at_setByte_ne hkeep] at hk
        exact hs k b hk
      · push Not at hkeep
        obtain rfl := hsep.resolve_right (not_not.mpr hkeep.1)
        obtain rfl : k = i := by omega
        rw [at_setByte_self hdst] at hk
        exact (Option.some.inj hk).symm
    refine Runs.imp (ih hs') ?_
    intro _ m' h
    refine
      { kinds := (setByte_sameKinds _ _ _ _).trans h.kinds
        sizes := (Mem.setByte_sameSizes _ _ _ _).trans h.sizes
        source := h.source
        written := ?_
        others := ?_ }
    · intro k hk
      by_cases hki : k ∈ is
      · exact h.written k hki
      · obtain rfl : k = i := by
          rcases List.mem_cons.mp hk with he | hm
          · exact he
          · exact absurd hm hki
        rw [h.others dst k (.inr fun j hj he => hki (by
          obtain rfl : k = j := by omega
          exact hj)), at_setByte_self hdst]
    · intro q j hq
      rw [h.others q j, at_setByte_ne]
      · exact hq.imp_right (fun hall => hall i (List.mem_cons_self ..))
      · exact hq.imp_right (fun hall k hk => hall k (List.mem_cons_of_mem _ hk))

/-- A copy into the packet leaves every memref alone. -/
theorem copyBytes_pkt {is : List Nat} (hd : dst.region = .pkt) :
    Runs (fun _ => True) (copyBytes dst src is) m (fun _ m' => m'.memrefs = m.memrefs) := by
  induction is generalizing m with
  | nil => exact rfl
  | cons i is ih =>
    unfold copyBytes
    refine Runs.bind (load_at src i) ?_
    intro b m₁ hb
    obtain ⟨rfl, -⟩ := hb
    refine Runs.bind (store_at dst i b) ?_
    intro _ m₂ hm₂
    obtain ⟨rfl, -⟩ := hm₂
    refine Runs.imp ih ?_
    intro _ m' h
    rw [h, hd]
    rfl

/-- What a write leaves in its destination: the source bytes that it read, the last
one masked, over the old bytes. -/
def writeOver (op : OpSet) (src old : Bytes) : Bytes :=
  old.mapIdx (fun j b =>
    if j + 1 < src.length then src.getD j 0
    else if j + 1 = src.length then maskByte op b (src.getD j 0)
    else b)

theorem writeOver_nil (op : OpSet) (old : Bytes) : writeOver op [] old = old := by
  unfold writeOver
  apply List.ext_getElem?
  intro j
  rw [List.getElem?_mapIdx]
  cases old[j]? <;> simp

/-- One write as the memrefs see it. -/
structure Wrote (op : OpSet) (src : Bytes) (m m' : Mem) : Prop where
  kinds : m.SameKinds m'
  bytes : ∀ a, (m'.memrefs a).map Memref.bytes =
    (m.memrefs a).map (fun r => if op.to' = some a then writeOver op src r.bytes else r.bytes)

theorem at_memref {a : Addr} {r : Memref} (hr : m.memrefs a = some r) (j : Nat) :
    m.at ⟨.memref a, 0⟩ j = r.bytes[j]? := by
  simp [Mem.at, Mem.bytes, hr]

/-- The bytes of a memref, read one by one. -/
theorem memref_bytes {a : Addr} {f : Memref → Bytes} (hk : m.SameKinds m')
    (hat : ∀ r, m.memrefs a = some r → ∀ j, m'.at ⟨.memref a, 0⟩ j = (f r)[j]?) :
    (m'.memrefs a).map Memref.bytes = (m.memrefs a).map f := by
  have ha := hk a
  cases hr : m.memrefs a with
  | none =>
    rw [hr] at ha
    rw [Option.map_eq_none_iff.mp ha]
    rfl
  | some r =>
    rw [hr] at ha
    obtain ⟨r', hr', -⟩ := Option.map_eq_some_iff.mp ha
    rw [hr']
    simp only [Option.map_some, Option.some.injEq]
    apply List.ext_getElem?
    intro j
    rw [← at_memref hr', hat r hr j]

theorem Mem.SameSizes.at_isSome (h : m.SameSizes m') (hs : (m'.at p i).isSome) :
    (m.at p i).isSome := by
  unfold Mem.at at hs ⊢
  cases hb' : m'.bytes p.region with
  | none =>
    rw [hb'] at hs
    cases hs
  | some bs' =>
    obtain ⟨bs, hb, hl⟩ := h.symm.bytes hb'
    rw [hb'] at hs
    obtain ⟨b, hb'⟩ := Option.isSome_iff_exists.mp hs
    have hlt := (List.getElem?_eq_some_iff.mp hb').1
    rw [hb, Option.bind_some, List.getElem?_eq_getElem (by omega)]
    rfl

/-- The source bytes of a write, one by one. -/
theorem opSource_at {op : OpSet} {len : Nat} {to' from' : Ptr}
    (hc : opCommon op m.pkt.length = .span len to' from') (hs : (m.at from' len).isSome) :
    (opSource op m).length = len + 1 ∧
      ∀ j, j ≤ len → (opSource op m).getD j 0 = (m.at from' j).getD 0 := by
  unfold opSource
  rw [hc]
  unfold Mem.at at hs ⊢
  cases hb : m.bytes from'.region with
  | none =>
    rw [hb] at hs
    cases hs
  | some bs =>
    rw [hb] at hs
    obtain ⟨b, hb'⟩ := Option.isSome_iff_exists.mp hs
    have hlt := (List.getElem?_eq_some_iff.mp hb').1
    simp only [hb, Option.getD_some, Option.bind_some]
    constructor
    · rw [List.length_take, List.length_drop]
      omega
    · intro j hj
      rw [List.getD_eq_getElem?_getD, List.getElem?_take_of_lt (by omega), List.getElem?_drop]

/-- Where an operand that is a memref starts. -/
theorem opSide_memref {plen : Nat} {a : Addr} {set : FieldSet} (hp : opSide plen (some a) set = some p) :
    p = ⟨.memref a, 0⟩ :=
  (Option.some.inj hp).symm

theorem opSide_pkt {plen : Nat} {set : FieldSet} (hp : opSide plen none set = some p) :
    p.region = .pkt := by
  obtain ⟨o, -, ho⟩ := Option.map_eq_some_iff.mp hp
  rw [← ho]

/-- A write into a memref, once its operands are found. -/
theorem span_writes (cpy : CopyOrder) {op : OpSet} {a : Addr} {len : Nat} {to' from' : Ptr}
    (ha : op.to' = some a) (hc : opCommon op m.pkt.length = .span len to' from') :
    Runs (fun _ => True) (opWrite cpy op) m (fun rc m' => rc = 0 ∧ Wrote op (opSource op m) m m') := by
  obtain ⟨-, hto, hfrom⟩ := opCommon_span hc
  rw [ha] at hto
  obtain rfl := opSide_memref hto
  have hsep : from' = ⟨.memref a, 0⟩ ∨ from'.region ≠ .memref a := by
    cases hf : op.from' with
    | none =>
      rw [hf] at hfrom
      rw [opSide_pkt hfrom]
      exact .inr (fun h => by cases h)
    | some b =>
      rw [hf] at hfrom
      obtain rfl := opSide_memref hfrom
      by_cases hba : b = a
      · exact .inl (by rw [hba])
      · exact .inr (fun h => hba (Region.memref.inj h))
  unfold opWrite
  rw [Runs.bind_iff, Runs.get_iff, hc]
  refine Runs.bind (copyBytes_at (s := fun i => (m.at from' i).getD 0) hsep
    (fun i b hb => by rw [hb]; rfl)) ?_
  intro _ m₁ h
  refine Runs.bind (load_at _ len) ?_
  intro t m₂ ht
  obtain ⟨rfl, ht⟩ := ht
  refine Runs.bind (load_at _ len) ?_
  intro f m₃ hf
  obtain ⟨rfl, hf⟩ := hf
  refine Runs.bind (store_at _ len (maskByte op t f)) ?_
  intro _ m₄ hm₄
  obtain ⟨rfl, hlast⟩ := hm₄
  have horder : ∀ j, j ∈ cpy.order len ↔ j < len := by
    intro j
    rw [(cpy.perm len).mem_iff, List.mem_range]
  obtain ⟨hlen, hsrc⟩ := opSource_at hc (h.sizes.at_isSome (by rw [hf]; rfl))
  have hft := h.source len f hf
  -- the last byte was not copied over yet
  rw [h.others _ len (.inr fun i hi he => by
    have := (horder i).mp hi
    omega)] at ht
  refine ⟨rfl, h.kinds.trans (setByte_sameKinds _ _ _ _), ?_⟩
  intro b
  apply memref_bytes (h.kinds.trans (setByte_sameKinds _ _ _ _))
  intro r hr j
  by_cases hba : b = a
  · subst hba
    rw [if_pos ha]
    have hold := at_memref hr
    unfold writeOver
    rw [List.getElem?_mapIdx, ← hold j, hlen]
    rcases Nat.lt_trichotomy j len with hlt | heq | hgt
    · rw [at_setByte_ne (.inr (by omega)), h.written j ((horder j).mpr hlt)]
      have hj : (m.at ⟨.memref b, 0⟩ j).isSome :=
        h.sizes.at_isSome (by rw [h.written j ((horder j).mpr hlt)]; rfl)
      obtain ⟨x, hx⟩ := Option.isSome_iff_exists.mp hj
      rw [hx, Option.map_some, if_pos (by omega), hsrc j (by omega)]
    · subst heq
      rw [at_setByte_self hlast, ht, Option.map_some, if_neg (by omega), if_pos rfl,
        hsrc j (Nat.le_refl j), hft]
    · rw [at_setByte_ne (.inr (by omega)), h.others _ j (.inr fun i hi he => by
        have := (horder i).mp hi
        omega)]
      cases m.at ⟨.memref b, 0⟩ j with
      | none => rfl
      | some x => rw [Option.map_some, if_neg (by omega), if_neg (by omega)]
  · have hreg : Region.memref b ≠ .memref a := fun h => hba (Region.memref.inj h)
    rw [if_neg (fun h => hba (Option.some.inj (h.symm.trans ha))), at_setByte_ne (.inl hreg),
      h.others _ j (.inl hreg), at_memref hr]

/-- `op_write` as the memrefs see it: applied, or not at all. -/
theorem opWrite_wrote (cpy : CopyOrder) (op : OpSet) (m : Mem) :
    Runs (fun _ => True) (opWrite cpy op) m (fun rc m' =>
      if rc = 0 then Wrote op (opSource op m) m m' else m' = m) := by
  cases hc : opCommon op m.pkt.length with
  | fail =>
    unfold opWrite
    rw [Runs.bind_iff, Runs.get_iff, hc]
    exact rfl
  | nop =>
    unfold opWrite
    rw [Runs.bind_iff, Runs.get_iff, hc]
    have hs : opSource op m = [] := by
      unfold opSource
      rw [hc]
    change Wrote op (opSource op m) m m
    rw [hs]
    refine ⟨fun _ => rfl, ?_⟩
    intro a
    simp only [writeOver_nil, ite_self]
  | span len to' from' =>
    cases ha : op.to' with
    | some a =>
      refine Runs.imp (span_writes cpy ha hc) ?_
      intro rc m' h
      rw [if_pos h.1]
      exact h.2
    | none =>
      obtain ⟨-, hto, -⟩ := opCommon_span hc
      rw [ha] at hto
      have hpkt := opSide_pkt hto
      unfold opWrite
      rw [Runs.bind_iff, Runs.get_iff, hc]
      refine Runs.bind (copyBytes_pkt hpkt) ?_
      intro _ m₁ h
      refine Runs.bind (load_at _ len) ?_
      intro t m₂ ht
      obtain ⟨rfl, -⟩ := ht
      refine Runs.bind (load_at _ len) ?_
      intro f m₃ hf
      obtain ⟨rfl, -⟩ := hf
      refine Runs.bind (store_at _ len (maskByte op t f)) ?_
      intro _ m₄ hm₄
      obtain ⟨rfl, -⟩ := hm₄
      have hmem : (m₃.setByte to'.region (to'.off + len) (maskByte op t f)).memrefs = m.memrefs := by
        rw [hpkt]
        exact h
      change Wrote _ _ _ _
      refine ⟨fun a => by rw [hmem], ?_⟩
      intro a
      simp only [hmem, ha, reduceCtorEq, if_false]

end Xdpacket
