import Xdpacket.Lib.Runs
import Xdpacket.Model.Operations

namespace Xdpacket

/-- The fault of an access outside its object. -/
def Fault.IsOutOfBounds : Fault → Prop
  | .outOfBounds _ _ => True
  | _ => False

instance (e : Fault) : Decidable e.IsOutOfBounds := by
  cases e <;> unfold Fault.IsOutOfBounds <;> infer_instance

/-- The object behind `p` is live and has `n` bytes from `p` on. -/
def Mem.Room (m : Mem) (p : Ptr) (n : Nat) : Prop :=
  ∃ bs, m.bytes p.region = some bs ∧ p.off + n ≤ bs.length

/-- The object behind `p` is live. -/
def Mem.Live (m : Mem) (p : Ptr) : Prop := ∃ bs, m.bytes p.region = some bs

/-- No object has come, gone or changed its size. -/
def Mem.SameSizes (m m' : Mem) : Prop :=
  ∀ r, (m'.bytes r).map List.length = (m.bytes r).map List.length

theorem Mem.SameSizes.refl (m : Mem) : m.SameSizes m := fun _ => rfl

theorem Mem.SameSizes.trans {m m' m'' : Mem} (h : m.SameSizes m') (h' : m'.SameSizes m'') :
    m.SameSizes m'' :=
  fun r => (h' r).trans (h r)

theorem Mem.SameSizes.bytes {m m' : Mem} (h : m.SameSizes m') {r : Region} {bs : Bytes}
    (hb : m.bytes r = some bs) : ∃ bs', m'.bytes r = some bs' ∧ bs'.length = bs.length := by
  have hr := h r
  rw [hb] at hr
  cases hb' : m'.bytes r with
  | none => rw [hb'] at hr; cases hr
  | some bs' => rw [hb'] at hr; exact ⟨bs', rfl, Option.some.inj hr⟩

theorem Mem.SameSizes.symm {m m' : Mem} (h : m.SameSizes m') : m'.SameSizes m :=
  fun r => (h r).symm

theorem Mem.SameSizes.room {m m' : Mem} (h : m.SameSizes m') {p : Ptr} {n : Nat}
    (hr : m.Room p n) : m'.Room p n := by
  obtain ⟨bs, hb, hn⟩ := hr
  obtain ⟨bs', hb', hl⟩ := h.bytes hb
  exact ⟨bs', hb', by omega⟩

theorem Mem.SameSizes.live {m m' : Mem} (h : m.SameSizes m') {p : Ptr} (hl : m.Live p) :
    m'.Live p := by
  obtain ⟨bs, hb⟩ := hl
  obtain ⟨bs', hb', _⟩ := h.bytes hb
  exact ⟨bs', hb'⟩

theorem Mem.SameSizes.room_iff {m m' : Mem} (h : m.SameSizes m') {p : Ptr} {n : Nat} :
    m'.Room p n ↔ m.Room p n :=
  ⟨h.symm.room, h.room⟩

theorem Mem.Room.live {m : Mem} {p : Ptr} {n : Nat} (h : m.Room p n) : m.Live p :=
  ⟨_, h.choose_spec.1⟩

theorem Mem.Room.mono {m : Mem} {p : Ptr} {n k : Nat} (h : m.Room p n) (hk : k ≤ n) :
    m.Room p k := by
  obtain ⟨bs, hb, hn⟩ := h
  exact ⟨bs, hb, by omega⟩

theorem Mem.setByte_sameSizes (m : Mem) (r : Region) (i : Nat) (v : UInt8) :
    m.SameSizes (m.setByte r i v) := by
  intro s
  cases r with
  | pkt => cases s <;> simp [Mem.setByte, Mem.bytes]
  | memref a =>
    cases s with
    | pkt => rfl
    | memref b =>
      by_cases hb : b = a
      · subst hb
        simp [Mem.setByte, Mem.bytes, Function.comp_def, Memref.setByte]
      · simp [Mem.setByte, Mem.bytes, Function.update_of_ne hb]

/-- A load from a live object needs room for its byte. -/
theorem load_needs {m : Mem} {p : Ptr} (h : m.Live p) (i : Nat) :
    Needs Fault.IsOutOfBounds (m.Room p (i + 1)) (load p i) m (fun _ m' => m' = m) := by
  obtain ⟨bs, hb⟩ := h
  unfold Needs Runs load
  rw [hb]
  by_cases hi : p.off + i < bs.length
  · simp only [List.getElem?_eq_getElem hi]
    exact ⟨⟨bs, hb, by omega⟩, trivial⟩
  · simp only [List.getElem?_eq_none (Nat.le_of_not_lt hi)]
    refine ⟨trivial, ?_⟩
    rintro ⟨bs', hb', hn⟩
    rw [hb] at hb'
    cases hb'
    omega

theorem store_needs {m : Mem} {p : Ptr} (h : m.Live p) (i : Nat) (v : UInt8) :
    Needs Fault.IsOutOfBounds (m.Room p (i + 1)) (store p i v) m (fun _ m' => m.SameSizes m') := by
  obtain ⟨bs, hb⟩ := h
  unfold Needs Runs store
  rw [hb]
  by_cases hi : p.off + i < bs.length
  · simp only [if_pos hi]
    exact ⟨⟨bs, hb, by omega⟩, m.setByte_sameSizes _ _ _⟩
  · simp only [if_neg hi]
    refine ⟨trivial, ?_⟩
    rintro ⟨bs', hb', hn⟩
    rw [hb] at hb'
    cases hb'
    omega

theorem loadRange_runs {m : Mem} {p : Ptr} {n : Nat} (h : m.Room p n) :
    Runs (fun _ => False) (loadRange p n) m (fun _ m' => m' = m) := by
  induction n with
  | zero => simp [loadRange]
  | succ n ih =>
    unfold loadRange
    refine (ih (h.mono (by omega))).bind ?_
    rintro bs m' rfl
    refine ((load_needs h.live n).runs h).bind ?_
    rintro b m' rfl
    simp

theorem memcmp_runs {m : Mem} {a b : Ptr} {n : Nat} (ha : m.Room a n) (hb : m.Room b n) :
    Runs (fun _ => False) (memcmp a b n) m (fun _ m' => m' = m) := by
  unfold memcmp
  refine (loadRange_runs ha).bind ?_
  rintro x m' rfl
  refine (loadRange_runs hb).bind ?_
  rintro y m' rfl
  simp

/-- A copy needs room for every index that it visits. -/
theorem copyBytes_needs {m : Mem} {dst src : Ptr} (hd : m.Live dst) (hs : m.Live src)
    (is : List Nat) :
    Needs Fault.IsOutOfBounds (∀ i ∈ is, m.Room src (i + 1) ∧ m.Room dst (i + 1))
      (copyBytes dst src is) m (fun _ m' => m.SameSizes m') := by
  induction is generalizing m with
  | nil => exact Needs.pure (by simp) (.refl m)
  | cons i is ih =>
    unfold copyBytes
    refine (load_needs hs i).bind
      (B := m.Room dst (i + 1) ∧ ∀ k ∈ is, m.Room src (k + 1) ∧ m.Room dst (k + 1)) ?_
      (by simp [and_assoc])
    rintro b _ _ rfl
    refine (store_needs hd i b).bind ?_ Iff.rfl
    intro _ m₁ _ hm
    exact ((ih (hm.live hd) (hm.live hs)).imp (fun _ _ _ hm' => hm.trans hm')).congr
      (by simp only [hm.room_iff])

/-- `op_match` stays inside operands that have the whole span. -/
theorem opMatch_runs {op : OpSet} {m : Mem}
    (h : ∀ len to' from', opCommon op m.pkt.length = .span len to' from' →
      m.Room to' (len + 1) ∧ m.Room from' (len + 1)) :
    Runs (fun _ => False) (opMatch op) m (fun _ m' => m' = m) := by
  unfold opMatch
  rw [Runs.bind_iff, Runs.get_iff]
  cases hc : opCommon op m.pkt.length with
  | fail => simp
  | nop => simp
  | span len to' from' =>
    obtain ⟨ht, hf⟩ := h len to' from' hc
    refine (memcmp_runs (ht.mono (by omega)) (hf.mono (by omega))).bind ?_
    rintro differ _ rfl
    split
    · simp
    · refine ((load_needs ht.live len).runs ht).bind ?_
      rintro t _ rfl
      refine ((load_needs hf.live len).runs hf).bind ?_
      rintro f _ rfl
      split <;> simp

/-- `op_write` between live operands needs the whole span of both. -/
theorem opWrite_needs {op : OpSet} {m : Mem} (cpy : CopyOrder)
    (hl : ∀ len to' from', opCommon op m.pkt.length = .span len to' from' →
      m.Live to' ∧ m.Live from') :
    Needs Fault.IsOutOfBounds
      (∀ len to' from', opCommon op m.pkt.length = .span len to' from' →
        m.Room to' (len + 1) ∧ m.Room from' (len + 1))
      (opWrite cpy op) m (fun _ m' => m.SameSizes m') := by
  unfold opWrite
  rw [Needs.get_bind]
  cases hc : opCommon op m.pkt.length with
  | fail => exact Needs.pure (by simp) (.refl m)
  | nop => exact Needs.pure (by simp) (.refl m)
  | span len to' from' =>
    obtain ⟨ht, hf⟩ := hl len to' from' hc
    refine (copyBytes_needs ht hf _).bind
      (B := m.Room to' (len + 1) ∧ m.Room from' (len + 1) ∧ m.Room to' (len + 1)) ?_ ?_
    · intro _ m₁ _ hm
      refine ((load_needs (hm.live ht) len).congr hm.room_iff).bind ?_ Iff.rfl
      rintro t _ _ rfl
      refine ((load_needs (hm.live hf) len).congr hm.room_iff).bind ?_ Iff.rfl
      rintro f _ _ rfl
      exact ((store_needs (hm.live ht) len _).congr hm.room_iff).bind_pure
        (fun _ _ _ hm' => hm.trans hm')
    · constructor
      · rintro ⟨-, hrt, hrf, -⟩
        rintro _ _ _ ⟨⟩
        exact ⟨hrt, hrf⟩
      · intro h
        obtain ⟨hrt, hrf⟩ := h len to' from' rfl
        refine ⟨?_, hrt, hrf, hrt⟩
        intro i hi
        have := List.mem_range.mp ((cpy.perm len).mem_iff.mp hi)
        exact ⟨hrf.mono (by omega), hrt.mono (by omega)⟩

/-- The length with which both operands are read: the larger of the two. -/
def OpSet.extent (op : OpSet) : Nat := max op.setTo.len.toNat op.setFrom.len.toNat

/-- How many bytes an operand has from its start to the end of its object: a
memref was allocated with the length of its own field. -/
def sideRoom (plen : Nat) (ref : Option Addr) (set : FieldSet) : Option Nat :=
  match ref with
  | some _ => some set.len.toNat
  | none => (opPktOffset plen set).map (plen - ·)

/-- Both operands have the extent, whenever both fit the packet by their own
length. An extent of zero reads nothing. -/
def OpSet.InBounds (op : OpSet) (plen : Nat) : Prop :=
  match sideRoom plen op.to' op.setTo, sideRoom plen op.from' op.setFrom with
  | some a, some b => op.extent ≤ a ∧ op.extent ≤ b ∨ op.extent = 0
  | _, _ => True

instance (op : OpSet) (plen : Nat) : Decidable (op.InBounds plen) := by
  unfold OpSet.InBounds
  split <;> infer_instance

/-- The memref of a side is live and has the length of the side's field. -/
def Mem.Backs (m : Mem) (ref : Option Addr) (set : FieldSet) : Prop :=
  ∀ a, ref = some a → ∃ r, m.memrefs a = some r ∧ r.set.len = set.len

theorem opPktOffset_le {plen : Nat} {set : FieldSet} {o : Nat}
    (h : opPktOffset plen set = some o) : o + set.len.toNat ≤ plen := by
  unfold opPktOffset at h
  simp only at h
  generalize (if set.offt.toInt < 0 then set.offt.toInt + plen else set.offt.toInt) = start at h
  by_cases hn : start < 0
  · simp [hn] at h
  · by_cases hl : start + set.len.toNat > plen
    · simp [hn, hl] at h
    · simp only [hn, hl, if_false, Option.some.injEq] at h
      omega

theorem side_room {m : Mem} {ref : Option Addr} {set : FieldSet} {p : Ptr}
    (hb : m.Backs ref set) (hp : opSide m.pkt.length ref set = some p) :
    m.Live p ∧ ∃ k, sideRoom m.pkt.length ref set = some k ∧ ∀ n, m.Room p n ↔ n ≤ k := by
  cases ref with
  | some a =>
    obtain ⟨r, hr, hl⟩ := hb a rfl
    simp only [opSide, Option.some.injEq] at hp
    subst hp
    have hbytes : m.bytes (.memref a) = some r.bytes := by simp [Mem.bytes, hr]
    refine ⟨⟨_, hbytes⟩, _, rfl, ?_⟩
    intro n
    simp [Mem.Room, hbytes, r.sized, hl]
  | none =>
    simp only [opSide, Option.map_eq_some_iff] at hp
    obtain ⟨o, ho, rfl⟩ := hp
    have hle := opPktOffset_le ho
    refine ⟨⟨m.pkt, rfl⟩, m.pkt.length - o, by simp [sideRoom, ho], ?_⟩
    intro n
    simp only [Mem.Room, Mem.bytes, Option.some.injEq, exists_eq_left']
    omega

theorem sideRoom_isSome {plen : Nat} {ref : Option Addr} {set : FieldSet} :
    (sideRoom plen ref set).isSome = (opSide plen ref set).isSome := by
  cases ref <;> simp [sideRoom, opSide]

theorem opCommon_span {op : OpSet} {plen len : Nat} {to' from' : Ptr}
    (h : opCommon op plen = .span len to' from') :
    op.extent = len + 1 ∧ opSide plen op.to' op.setTo = some to' ∧
      opSide plen op.from' op.setFrom = some from' := by
  have hx : (if op.setTo.len.toNat > op.setFrom.len.toNat then op.setTo.len.toNat
      else op.setFrom.len.toNat) = op.extent := by
    unfold OpSet.extent
    split <;> omega
  unfold opCommon at h
  simp only [hx] at h
  split at h
  · cases h
  · split at h
    · cases h
    · split at h
      · cases h
      · rename_i hne _ _ ht _ _ hf
        cases h
        exact ⟨by omega, ht, hf⟩

theorem opCommon_span_of {op : OpSet} {plen : Nat} {to' from' : Ptr} (hx : op.extent ≠ 0)
    (ht : opSide plen op.to' op.setTo = some to')
    (hf : opSide plen op.from' op.setFrom = some from') :
    opCommon op plen = .span (op.extent - 1) to' from' := by
  have he : (if op.setTo.len.toNat > op.setFrom.len.toNat then op.setTo.len.toNat
      else op.setFrom.len.toNat) = op.extent := by
    unfold OpSet.extent
    split <;> omega
  unfold opCommon
  simp only [he, ht, hf, if_neg hx]

/-- The bound on lengths says exactly that both operands have the span. -/
theorem inBounds_iff_room {op : OpSet} {m : Mem} (ht : m.Backs op.to' op.setTo)
    (hf : m.Backs op.from' op.setFrom) :
    op.InBounds m.pkt.length ↔
      ∀ len to' from', opCommon op m.pkt.length = .span len to' from' →
        m.Room to' (len + 1) ∧ m.Room from' (len + 1) := by
  constructor
  · intro h len to' from' hc
    obtain ⟨hx, hto, hfrom⟩ := opCommon_span hc
    obtain ⟨_, a, ha, hra⟩ := side_room ht hto
    obtain ⟨_, b, hb, hrb⟩ := side_room hf hfrom
    simp only [OpSet.InBounds, ha, hb] at h
    rw [hra, hrb]
    omega
  · intro h
    unfold OpSet.InBounds
    split
    · rename_i a b ha hb
      by_cases hx : op.extent = 0
      · exact .inr hx
      · obtain ⟨to', hto⟩ := Option.isSome_iff_exists.mp
          (sideRoom_isSome.symm.trans (Option.isSome_iff_exists.mpr ⟨a, ha⟩))
        obtain ⟨from', hfrom⟩ := Option.isSome_iff_exists.mp
          (sideRoom_isSome.symm.trans (Option.isSome_iff_exists.mpr ⟨b, hb⟩))
        obtain ⟨_, a', ha', hra⟩ := side_room ht hto
        obtain ⟨_, b', hb', hrb⟩ := side_room hf hfrom
        obtain ⟨hr, hs⟩ := h _ _ _ (opCommon_span_of hx hto hfrom)
        rw [hra] at hr
        rw [hrb] at hs
        rw [ha] at ha'
        rw [hb] at hb'
        cases ha'
        cases hb'
        omega
    · trivial

/-- Every byte the run touches lies inside the packet or inside its memref. -/
def StaysInside (x : MemM α) (m : Mem) : Prop := Runs (fun e => ¬ e.IsOutOfBounds) x m (fun _ _ => True)

instance (x : MemM α) (m : Mem) : Decidable (StaysInside x m) :=
  inferInstanceAs (Decidable (Runs _ _ _ _))

/-- Matching and writing stay inside their operands exactly when the extent does. -/
theorem stays_inside_iff {op : OpSet} {m : Mem} (cpy : CopyOrder) (ht : m.Backs op.to' op.setTo)
    (hf : m.Backs op.from' op.setFrom) :
    (StaysInside (opMatch op) m ∧ StaysInside (opWrite cpy op) m) ↔
      op.InBounds m.pkt.length := by
  rw [inBounds_iff_room ht hf]
  have hl : ∀ len to' from', opCommon op m.pkt.length = .span len to' from' →
      m.Live to' ∧ m.Live from' := by
    intro len to' from' hc
    obtain ⟨_, hto, hfrom⟩ := opCommon_span hc
    exact ⟨(side_room ht hto).1, (side_room hf hfrom).1⟩
  constructor
  · rintro ⟨_, hw⟩
    exact (opWrite_needs cpy hl).not_bad_iff.mp hw
  · intro h
    exact ⟨(opMatch_runs h).mono (fun _ hn => hn.elim) (fun _ _ _ => trivial),
      (opWrite_needs cpy hl).not_bad_iff.mpr h⟩

end Xdpacket
