import Xdpacket.Proofs.ChecksumVerifies

namespace Xdpacket

theorem l4Len4_eq (host : Endian) (bs : Bytes) (headLen : Nat) :
    l4Len4 host bs headLen =
      (bigWord (byteAt bs 16) (byteAt bs 17) + 65536 - headLen) % 65536 := by
  rw [l4Len4, be16toh_wordAt]

theorem l4Len6_eq (host : Endian) (bs : Bytes) :
    l4Len6 host bs = bigWord (byteAt bs 18) (byteAt bs 19) :=
  be16toh_wordAt host bs 18

theorem ipHeadLen_le (bs : Bytes) : ipHeadLen bs ≤ 60 := by
  unfold ipHeadLen
  omega

/-- The frame is one whose l4 part is looked at: its IP header is accepted. -/
def L3Accepted (bs : Bytes) : Prop :=
  34 < bs.length ∧ bs.length ≤ 65535 ∧ bigWord (byteAt bs 12) (byteAt bs 13) = ETH_P_IP ∧
    (ipVersion bs = 4 ∧ 20 ≤ ipHeadLen bs ∧
        ipHeadLen bs ≤ bigWord (byteAt bs 16) (byteAt bs 17) ∧
        14 + bigWord (byteAt bs 16) (byteAt bs 17) ≤ bs.length ∨
      ipVersion bs = 6 ∧ 54 + bigWord (byteAt bs 18) (byteAt bs 19) ≤ bs.length)

instance (bs : Bytes) : Decidable (L3Accepted bs) := by
  unfold L3Accepted
  infer_instance

/-- The answer for a frame whose l4 part is not looked at. -/
def refusal (bs : Bytes) : ChecksumErr :=
  if bs.length ≤ 34 ∨ 65535 < bs.length then .inval
  else if bigWord (byteAt bs 12) (byteAt bs 13) ≠ ETH_P_IP then .unsupported
  else if ipVersion bs = 6 then .unsupported
  else .malformed

/-- The frame once its IPv4 header sum is stored. -/
def headStored (host : Endian) (bs : Bytes) : Bytes :=
  if ipVersion bs = 4 then headSum4 host bs (ipHeadLen bs) else bs

/-- The sum over the pseudo-header. -/
def pseudoSum (host : Endian) (bs : Bytes) : Nat :=
  if ipVersion bs = 4 then pseudo4 host (headStored host bs) (l3Of bs).l4Len else pseudo6 host bs

theorem l3Accepted_fits4 (host : Endian) {bs : Bytes} (hl : bs.length ≤ 65535) :
    (ipHeadLen bs ≤ bigWord (byteAt bs 16) (byteAt bs 17) ∧
        14 + bigWord (byteAt bs 16) (byteAt bs 17) ≤ bs.length) ↔
      14 + ipHeadLen bs + l4Len4 host bs (ipHeadLen bs) ≤ bs.length := by
  have := ipHeadLen_le bs
  have := bigWord_lt (byteAt bs 16) (byteAt bs 17)
  rw [l4Len4_eq]
  omega

theorem l3Of_l4Len4 (host : Endian) {bs : Bytes} (hv : ipVersion bs = 4)
    (h : ipHeadLen bs ≤ bigWord (byteAt bs 16) (byteAt bs 17)) :
    (l3Of bs).l4Len = l4Len4 host bs (ipHeadLen bs) := by
  have := bigWord_lt (byteAt bs 16) (byteAt bs 17)
  rw [l3Of, if_pos hv, l4Len4_eq]
  simp only
  omega

theorem checksumOf_refused {host : Endian} {bs : Bytes} (hin : ChecksumInside host bs)
    (h : ¬ L3Accepted bs) : checksumOf host bs = (refusal bs, bs) := by
  unfold checksumOf refusal
  by_cases hl : bs.length ≤ 34 ∨ 65535 < bs.length
  · rw [if_pos hl, if_pos hl]
  rw [if_neg hl, if_neg hl, etherType_eq]
  by_cases he : bigWord (byteAt bs 12) (byteAt bs 13) = ETH_P_IP
  · have hin := hin ⟨by omega, by omega, by rwa [etherType_eq]⟩
    rw [if_neg (not_not.mpr he), if_neg (not_not.mpr he)]
    unfold L3Accepted at h
    by_cases h4 : ipVersion bs = 4
    · have hfit := l3Accepted_fits4 host (show bs.length ≤ 65535 by omega)
      have h4in := hin.1 h4
      unfold Ip4Inside at h4in
      rw [if_pos h4, if_neg (by omega), checksumIp4Of, if_pos]
      by_contra hg
      exact h ⟨by omega, by omega, he, .inl ⟨h4, by omega, hfit.mpr (by omega)⟩⟩
    · rw [if_neg h4]
      by_cases h6 : ipVersion bs = 6
      · have h6in := hin.2 h6
        rw [if_pos h6, if_pos h6, checksumIp6Of, if_pos]
        rw [l4Len6_eq]
        by_contra hg
        have := h6in.1
        exact h ⟨by omega, by omega, he, .inr ⟨h6, by omega⟩⟩
      · rw [if_neg h6, if_neg h6]
  · rw [if_pos he, if_pos he]

theorem checksumOf_accepted (host : Endian) {bs : Bytes} (h : L3Accepted bs) :
    checksumOf host bs = checksumL4Of host (l3Of bs).proto (l3Of bs).l4 (l3Of bs).l4Len
      (pseudoSum host bs) (headStored host bs) := by
  obtain ⟨hl, hu, he, h⟩ := h
  rw [checksumOf, if_neg (by omega), etherType_eq, if_neg (not_not.mpr he)]
  rcases h with ⟨hv, h20, htot, hfit⟩ | ⟨hv, hfit⟩
  · have hlen := l3Of_l4Len4 host hv htot
    have := (l3Accepted_fits4 host hu).mp ⟨htot, hfit⟩
    have := ipHeadLen_le bs
    rw [if_pos hv, checksumIp4Of, if_neg (by omega), pseudoSum, if_pos hv, headStored, if_pos hv,
      hlen, l3Of, if_pos hv]
  · have hne : ipVersion bs ≠ 4 := by omega
    rw [if_neg hne, if_pos hv, checksumIp6Of, l4Len6_eq, if_neg (by omega), pseudoSum,
      if_neg hne, headStored, if_neg hne, l3Of, if_neg hne]

/-- Two frames of one size with the same bytes where `p` holds. -/
structure Agree (p : Nat → Prop) (bs t : Bytes) : Prop where
  size : t.length = bs.length
  bytes : ∀ i, p i → byteAt t i = byteAt bs i

theorem eq_of_byteAt {bs t : Bytes} (hl : t.length = bs.length)
    (h : ∀ i, byteAt t i = byteAt bs i) : t = bs := by
  apply List.ext_getElem hl
  intro i ht hb
  have := h i
  simpa [byteAt, ht, hb] using this

theorem byteAt_putWord_same {host : Endian} {bs t : Bytes} {i j v : Nat}
    (hl : t.length = bs.length) (h : j = i ∨ j = i + 1) :
    byteAt (putWord host t i v) j = byteAt (putWord host bs i v) j := by
  have hout : ∀ {xs : Bytes}, ¬ j < xs.length → byteAt xs j = 0 := by
    intro xs hj
    simp [byteAt, Nat.le_of_not_lt hj]
  by_cases hj : j < bs.length
  · cases host <;> rcases h with rfl | rfl <;> simp [putWord, byteAt_set, hl, hj]
  · rw [hout (by simpa [hl] using hj), hout (by simpa using hj)]

section Agree

variable {p : Nat → Prop} {bs t : Bytes}

theorem Agree.mono {q : Nat → Prop} (h : Agree p bs t) (hq : ∀ i, q i → p i) : Agree q bs t :=
  ⟨h.size, fun i hi => h.bytes i (hq i hi)⟩

/-- Storing one word in both makes them agree there too. -/
theorem Agree.putWord (h : Agree p bs t) (host : Endian) (k v : Nat) :
    Agree (fun i => p i ∨ i = k ∨ i = k + 1) (putWord host bs k v) (putWord host t k v) := by
  refine ⟨by simpa using h.size, fun i hi => ?_⟩
  by_cases hk : i = k ∨ i = k + 1
  · exact byteAt_putWord_same h.size hk
  · rw [byteAt_putWord_ne (by omega) (by omega), byteAt_putWord_ne (by omega) (by omega)]
    exact h.bytes i (hi.resolve_right hk)

theorem sumWordsOf_congr (host : Endian) {off n : Nat} (sum : Nat)
    (h : ∀ i, off ≤ i → i < off + 2 * n → byteAt t i = byteAt bs i) :
    sumWordsOf host t off n sum = sumWordsOf host bs off n sum := by
  induction n with
  | zero => rfl
  | succ n ih =>
    rw [sumWordsOf, sumWordsOf, ih (fun i hi hn => h i hi (by omega)), wordAt, wordAt,
      h _ (by omega) (by omega), h _ (by omega) (by omega)]

theorem onesSumOf_congr (host : Endian) {off n : Nat} (sum : Nat)
    (h : ∀ i, off ≤ i → i < off + n → byteAt t i = byteAt bs i) :
    onesSumOf host t off n sum = onesSumOf host bs off n sum := by
  unfold onesSumOf
  rw [sumWordsOf_congr host sum (fun i hi hn => h i hi (by omega))]
  split
  · rw [h _ (by omega) (by omega)]
  · rfl

/-- A sum over a range with its own field zeroed does not see the field. -/
theorem Agree.sum_zeroed (h : Agree p bs t) (host : Endian) {check off n : Nat} (sum : Nat)
    (hp : ∀ i, off ≤ i → i < off + n → p i ∨ i = check ∨ i = check + 1) :
    onesSumOf host (Xdpacket.putWord host t check 0) off n sum =
      onesSumOf host (Xdpacket.putWord host bs check 0) off n sum :=
  onesSumOf_congr host sum (fun i hi hn => (h.putWord host check 0).bytes i (hp i hi hn))

theorem Agree.l4 (h : Agree p bs t) (host : Endian) (proto : UInt8) {l4 n : Nat} (l4Sum : Nat)
    (hp : ∀ i, l4 ≤ i → i < l4 + n →
      p i ∨ ∃ o, checkField proto = some o ∧ (i = l4 + o ∨ i = l4 + o + 1)) :
    (checksumL4Of host proto l4 n l4Sum t).1 = (checksumL4Of host proto l4 n l4Sum bs).1 ∧
      Agree (fun i => p i ∨ ∃ o, checkField proto = some o ∧ (i = l4 + o ∨ i = l4 + o + 1))
        (checksumL4Of host proto l4 n l4Sum bs).2 (checksumL4Of host proto l4 n l4Sum t).2 := by
  unfold checksumL4Of
  cases hf : checkField proto with
  | none => exact ⟨rfl, h.mono (by simp)⟩
  | some o =>
    simp only [hf, Option.some.injEq, exists_eq_left'] at hp ⊢
    rw [h.sum_zeroed host _ hp]
    exact ⟨trivial, h.putWord host _ _⟩

end Agree

/-- A byte of a checksum field: the IPv4 header's, or the one of the protocol. -/
def CheckByte (bs : Bytes) (i : Nat) : Prop :=
  ipVersion bs = 4 ∧ (i = 24 ∨ i = 25) ∨
    ∃ o, checkField (l3Of bs).proto = some o ∧ (i = (l3Of bs).l4 + o ∨ i = (l3Of bs).l4 + o + 1)

/-- Only a frame whose header is accepted has its checksums stored. -/
def Stores (bs : Bytes) (i : Nat) : Prop := L3Accepted bs ∧ CheckByte bs i

/-- What the sums are taken over. -/
def Covered (bs : Bytes) (i : Nat) : Prop :=
  i < (l3Of bs).l4 + (l3Of bs).l4Len ∧ ¬ CheckByte bs i

/-- A second frame of the same size that differs in checksum fields and padding
only. Of a frame whose header is refused the first bytes decide. -/
def SameSummed (bs : Bytes) : Bytes → Prop :=
  Agree (fun i => i < 20 ∧ ¬ CheckByte bs i ∨ L3Accepted bs ∧ Covered bs i) bs

theorem CheckByte.cases {bs : Bytes} {i : Nat} (h : CheckByte bs i) :
    i = 24 ∨ i = 25 ∨ (l3Of bs).l4 + 2 ≤ i := by
  rcases h with ⟨-, h⟩ | ⟨o, hf, h⟩
  · omega
  · obtain ⟨j, hj, rfl⟩ := checkField_even hf
    omega

theorem l3Of_l4_ge (bs : Bytes) : 14 ≤ (l3Of bs).l4 := by
  unfold l3Of
  split <;> simp

theorem l3Of_l4_ge_of_head {bs : Bytes} (h : ipVersion bs = 4 → 20 ≤ ipHeadLen bs) :
    34 ≤ (l3Of bs).l4 := by
  unfold l3Of
  split
  · rename_i hv
    have := h hv
    simp only
    omega
  · simp

theorem L3Accepted.head {bs : Bytes} (h : L3Accepted bs) (hv : ipVersion bs = 4) :
    20 ≤ ipHeadLen bs := by
  rcases h.2.2.2 with h | h
  · exact h.2.1
  · omega

namespace SameSummed

variable {bs t : Bytes}

theorem front (h : SameSummed bs t) {i : Nat} (hi : i < 16) : byteAt t i = byteAt bs i := by
  refine h.bytes i (.inl ⟨by omega, fun hc => ?_⟩)
  have := hc.cases
  have := l3Of_l4_ge bs
  omega

theorem version (h : SameSummed bs t) : ipVersion t = ipVersion bs := by
  rw [ipVersion, h.front (by omega), ipVersion]

theorem headLen (h : SameSummed bs t) : ipHeadLen t = ipHeadLen bs := by
  rw [ipHeadLen, h.front (by omega), ipHeadLen]

theorem lengths (h : SameSummed bs t) (hh : ipVersion bs = 4 → 20 ≤ ipHeadLen bs) {i : Nat}
    (hi : i < 20) : byteAt t i = byteAt bs i := by
  refine h.bytes i (.inl ⟨hi, fun hc => ?_⟩)
  have := hc.cases
  have := l3Of_l4_ge_of_head hh
  omega

theorem accepted_iff (h : SameSummed bs t) : L3Accepted t ↔ L3Accepted bs := by
  unfold L3Accepted
  rw [h.size, h.front (show 12 < 16 by omega), h.front (show 13 < 16 by omega), h.version,
    h.headLen]
  by_cases hh : ipVersion bs = 4 → 20 ≤ ipHeadLen bs
  · rw [h.lengths hh (show 16 < 20 by omega), h.lengths hh (show 17 < 20 by omega),
      h.lengths hh (show 18 < 20 by omega), h.lengths hh (show 19 < 20 by omega)]
  · have hv : ipVersion bs = 4 ∧ ¬ 20 ≤ ipHeadLen bs := by simpa using hh
    simp [hv.1, hv.2]

theorem refusal_eq (h : SameSummed bs t) : refusal t = refusal bs := by
  unfold refusal
  rw [h.size, h.front (show 12 < 16 by omega), h.front (show 13 < 16 by omega), h.version]

theorem l3Of_eq (h : SameSummed bs t) (ha : L3Accepted bs) : l3Of t = l3Of bs := by
  have hl4 := l3Of_l4_ge_of_head ha.head
  refine l3Of_congr (h.front (by omega)) (fun hv i _ hi h24 h25 => ?_) (fun hv i _ hi => ?_)
  · refine h.bytes i (.inr ⟨ha, by omega, fun hc => ?_⟩)
    have := hc.cases
    omega
  · have h54 : (l3Of bs).l4 = 54 := by rw [l3Of, if_neg hv]
    refine h.bytes i (.inr ⟨ha, by omega, ?_⟩)
    intro hc
    rcases hc with ⟨h4, -⟩ | ⟨o, hf, ho⟩
    · exact hv h4
    · omega

theorem covered (h : SameSummed bs t) (ha : L3Accepted bs) : Agree (Covered bs) bs t :=
  h.mono (fun _ hi => .inr ⟨ha, hi⟩)

theorem headStored (h : SameSummed bs t) (ha : L3Accepted bs) (host : Endian) :
    Agree (fun i => Covered bs i ∨ ipVersion bs = 4 ∧ (i = 24 ∨ i = 25))
      (Xdpacket.headStored host bs) (Xdpacket.headStored host t) := by
  unfold Xdpacket.headStored
  rw [h.version, h.headLen]
  by_cases hv : ipVersion bs = 4
  · have hl4 : (l3Of bs).l4 = 14 + ipHeadLen bs := by rw [l3Of, if_pos hv]
    rw [if_pos hv, if_pos hv, headSum4, headSum4, (h.covered ha).sum_zeroed host 0]
    · refine ((h.covered ha).putWord host 24 _).mono (fun i hi => ?_)
      rcases hi with hi | ⟨-, hi⟩
      · exact .inl hi
      · exact .inr hi
    · intro i _ hi
      by_cases hf : i = 24 ∨ i = 25
      · exact .inr hf
      · refine .inl ⟨by omega, fun hc => ?_⟩
        have := hc.cases
        omega
  · rw [if_neg hv, if_neg hv]
    exact (h.covered ha).mono (fun i hi => hi.resolve_right (fun h4 => hv h4.1))

theorem pseudoSum_eq (h : SameSummed bs t) (ha : L3Accepted bs) (host : Endian) :
    pseudoSum host t = pseudoSum host bs := by
  have hl4 := l3Of_l4_ge_of_head ha.head
  have hst := h.headStored ha host
  unfold pseudoSum
  rw [h.version, h.l3Of_eq ha]
  by_cases hv : ipVersion bs = 4
  · have hbyte : ∀ i, 20 ≤ i → i < 34 → byteAt (Xdpacket.headStored host t) i =
        byteAt (Xdpacket.headStored host bs) i := by
      intro i _ hi
      refine hst.bytes i ?_
      by_cases hf : i = 24 ∨ i = 25
      · exact .inr ⟨hv, hf⟩
      · refine .inl ⟨by omega, fun hc => ?_⟩
        have := hc.cases
        omega
    rw [if_pos hv, if_pos hv, pseudo4, pseudo4, hbyte 23 (by omega) (by omega),
      onesSumOf_congr host 0 (fun i hi hn => hbyte i (by omega) (by omega)),
      onesSumOf_congr host _ (fun i hi hn => hbyte i (by omega) (by omega))]
  · have h54 : (l3Of bs).l4 = 54 := by rw [l3Of, if_neg hv]
    have hbyte : ∀ i, i < 54 → byteAt t i = byteAt bs i := by
      intro i hi
      refine (h.covered ha).bytes i ⟨by omega, ?_⟩
      intro hc
      rcases hc with ⟨h4, -⟩ | ⟨o, hf, ho⟩
      · exact hv h4
      · omega
    rw [if_neg hv, if_neg hv, pseudo6, pseudo6, hbyte 20 (by omega),
      onesSumOf_congr host 0 (fun i _ hn => hbyte i (by omega)),
      onesSumOf_congr host _ (fun i _ hn => hbyte i (by omega)),
      onesSumOf_congr host _ (fun i _ hn => hbyte i (by omega))]

/-- Both frames get the same code and the same stored bytes. -/
theorem checksumOf_eq (h : SameSummed bs t) (ha : L3Accepted bs) (host : Endian) :
    (checksumOf host t).1 = (checksumOf host bs).1 ∧
      ∀ i, CheckByte bs i → byteAt (checksumOf host t).2 i = byteAt (checksumOf host bs).2 i := by
  rw [checksumOf_accepted host ha, checksumOf_accepted host (h.accepted_iff.mpr ha), h.l3Of_eq ha,
    h.pseudoSum_eq ha]
  have hl4 := l3Of_l4_ge_of_head ha.head
  have hsame : ∀ i, (l3Of bs).l4 ≤ i → i < (l3Of bs).l4 + (l3Of bs).l4Len →
      (Covered bs i ∨ ipVersion bs = 4 ∧ (i = 24 ∨ i = 25)) ∨
        ∃ o, checkField (l3Of bs).proto = some o ∧
          (i = (l3Of bs).l4 + o ∨ i = (l3Of bs).l4 + o + 1) := by
    intro i _ hi
    by_cases hc : CheckByte bs i
    · rcases hc with hc | hc
      · exact .inl (.inr hc)
      · exact .inr hc
    · exact .inl (.inl ⟨hi, hc⟩)
  obtain ⟨hcode, hbytes⟩ := (h.headStored ha host).l4 host (l3Of bs).proto (pseudoSum host bs) hsame
  refine ⟨hcode, fun i hi => hbytes.bytes i ?_⟩
  rcases hi with hi | hi
  · exact .inl (.inr hi)
  · exact .inr hi

theorem inside (h : SameSummed bs t) {host : Endian} (hin : ChecksumInside host bs) :
    ChecksumInside host t := by
  intro ⟨hl, hu, he⟩
  rw [etherType_eq, h.front (show 12 < 16 by omega), h.front (show 13 < 16 by omega)] at he
  rw [h.size] at hl hu
  have hin := hin ⟨hl, hu, by rwa [etherType_eq]⟩
  rw [h.version, h.headLen]
  refine ⟨fun hv => ?_, fun hv => ?_⟩
  · have h4 := hin.1 hv
    unfold Ip4Inside at h4 ⊢
    by_cases hh : 20 ≤ ipHeadLen bs
    · have hlow := fun i hi => h.lengths (fun _ => hh) (i := i) hi
      rw [l4Len4_eq, hlow 16 (by omega), hlow 17 (by omega), ← l4Len4_eq host, h.size]
      by_cases hshort : bs.length - 14 - ipHeadLen bs < l4Len4 host bs (ipHeadLen bs)
      · omega
      · have := ipHeadLen_le bs
        have ha : L3Accepted bs := ⟨hl, hu, he, .inl ⟨hv, hh,
          (l3Accepted_fits4 host hu).mpr (by omega)⟩⟩
        have hproto := congrArg L3.proto (h.l3Of_eq ha)
        rw [l3Of, l3Of, if_pos hv, if_pos (h.version.trans hv)] at hproto
        simp only at hproto
        rwa [hproto]
    · omega
  · have hne : ipVersion bs ≠ 4 := by omega
    have h6 := hin.2 hv
    unfold Ip6Inside at h6 ⊢
    have hlow := fun i hi => h.lengths (fun h4 => absurd h4 hne) (i := i) hi
    rw [l4Len6_eq, hlow 18 (by omega), hlow 19 (by omega), ← l4Len6_eq host, h.size]
    refine ⟨h6.1, ?_⟩
    by_cases hshort : bs.length - 54 < l4Len6 host bs
    · exact .inl hshort
    · rw [l4Len6_eq] at hshort
      have := h6.1
      have ha : L3Accepted bs := ⟨hl, hu, he, .inr ⟨hv, by omega⟩⟩
      have hproto := congrArg L3.proto (h.l3Of_eq ha)
      rw [l3Of, l3Of, if_neg hne, if_neg (by rw [h.version]; exact hne)] at hproto
      simp only at hproto
      rw [hproto]
      exact h6.2

end SameSummed

theorem headStored_kept (host : Endian) {bs : Bytes} {i : Nat}
    (h : ¬ (ipVersion bs = 4 ∧ (i = 24 ∨ i = 25))) :
    byteAt (headStored host bs) i = byteAt bs i := by
  unfold headStored
  split
  · rename_i hv
    exact byteAt_putWord_ne (fun he => h ⟨hv, .inl he⟩) (fun he => h ⟨hv, .inr he⟩)
  · rfl

@[simp] theorem length_headStored (host : Endian) (bs : Bytes) :
    (headStored host bs).length = bs.length := by
  unfold headStored headSum4
  split <;> simp

theorem checksumL4Of_kept (host : Endian) (proto : UInt8) (l4 n l4Sum : Nat) (bs : Bytes) {i : Nat}
    (h : ∀ o, checkField proto = some o → i ≠ l4 + o ∧ i ≠ l4 + o + 1) :
    byteAt (checksumL4Of host proto l4 n l4Sum bs).2 i = byteAt bs i := by
  unfold checksumL4Of
  cases hf : checkField proto with
  | none => rfl
  | some o => exact byteAt_putWord_ne (h o hf).1 (h o hf).2

@[simp] theorem length_checksumL4Of (host : Endian) (proto : UInt8) (l4 n l4Sum : Nat)
    (bs : Bytes) : (checksumL4Of host proto l4 n l4Sum bs).2.length = bs.length := by
  unfold checksumL4Of
  split <;> simp

/-- Only the checksum fields of an accepted frame change. -/
theorem checksumOf_kept {host : Endian} {bs : Bytes} (hin : ChecksumInside host bs) :
    (checksumOf host bs).2.length = bs.length ∧
      ∀ i, ¬ Stores bs i → byteAt (checksumOf host bs).2 i = byteAt bs i := by
  by_cases ha : L3Accepted bs
  · rw [checksumOf_accepted host ha]
    refine ⟨by simp, fun i hi => ?_⟩
    rw [checksumL4Of_kept, headStored_kept]
    · exact fun h => hi ⟨ha, .inl h⟩
    · intro o hf
      constructor
      · exact fun he => hi ⟨ha, .inr ⟨o, hf, .inl he⟩⟩
      · exact fun he => hi ⟨ha, .inr ⟨o, hf, .inr he⟩⟩
  · rw [checksumOf_refused hin ha]
    exact ⟨rfl, fun _ _ => rfl⟩

/-- What a run of `checksum` does to a frame, and what it looks at. -/
structure ChecksumEffect (host : Endian) (frame : Bytes) (code : ChecksumErr) (after : Bytes) :
    Prop where
  size : after.length = frame.length
  only : ∀ i, ¬ Stores frame i → byteAt after i = byteAt frame i
  refused : code = .inval ∨ code = .malformed → after = frame
  unsupported : code = .unsupported → ∀ i, ¬ (ipVersion frame = 4 ∧ (i = 24 ∨ i = 25)) →
    byteAt after i = byteAt frame i
  independent : ∀ other, SameSummed frame other → ∃ after', checksum host other = .ok (code, after') ∧
    after'.length = other.length ∧ ∀ i,
      (Stores frame i → byteAt after' i = byteAt after i) ∧
      (¬ Stores frame i → byteAt after' i = byteAt other i)
  again : checksum host after = .ok (code, after)

theorem checksum_eq {host : Endian} {bs : Bytes} (hin : ChecksumInside host bs) :
    checksum host bs = .ok (checksumOf host bs) := by
  obtain ⟨code, t, hrun, he⟩ := ((checksum_computes host bs).runs hin).exists_ok
  rw [hrun, he]

theorem SameSummed.stores_iff {bs t : Bytes} (h : SameSummed bs t) {i : Nat} :
    Stores t i ↔ Stores bs i := by
  unfold Stores
  rw [h.accepted_iff]
  refine and_congr_right fun ha => ?_
  unfold CheckByte
  rw [h.version, h.l3Of_eq ha]

theorem checksum_independent {host : Endian} {bs t : Bytes} (hin : ChecksumInside host bs)
    (h : SameSummed bs t) :
    ∃ after', checksum host t = .ok ((checksumOf host bs).1, after') ∧
      after'.length = t.length ∧ ∀ i,
        (Stores bs i → byteAt after' i = byteAt (checksumOf host bs).2 i) ∧
        (¬ Stores bs i → byteAt after' i = byteAt t i) := by
  obtain ⟨hsize, hkept⟩ := checksumOf_kept (h.inside hin)
  have hcode : (checksumOf host t).1 = (checksumOf host bs).1 := by
    by_cases ha : L3Accepted bs
    · exact (h.checksumOf_eq ha host).1
    · rw [checksumOf_refused hin ha, checksumOf_refused (h.inside hin) (by rwa [h.accepted_iff]),
        h.refusal_eq]
  refine ⟨(checksumOf host t).2, ?_, hsize, fun i => ⟨fun hi => ?_, fun hi => ?_⟩⟩
  · rw [checksum_eq (h.inside hin), ← hcode]
  · exact (h.checksumOf_eq hi.1 host).2 i hi.2
  · exact hkept i (by rwa [h.stores_iff])

/-- A run changes the checksum fields only, depends neither on them nor on the
padding, and has nothing to do the second time. -/
theorem checksum_effect {host : Endian} {frame : Bytes} (hin : ChecksumInside host frame) :
    ∃ code after, checksum host frame = .ok (code, after) ∧
      ChecksumEffect host frame code after := by
  obtain ⟨hsize, hkept⟩ := checksumOf_kept hin
  refine ⟨(checksumOf host frame).1, (checksumOf host frame).2, checksum_eq hin, hsize, hkept,
    ?_, ?_, fun _ h => checksum_independent hin h, ?_⟩
  · intro hc
    have ha : ¬ L3Accepted frame := by
      intro ha
      rw [checksumOf_accepted host ha, checksumL4Of] at hc
      split at hc <;> simp at hc
    rw [checksumOf_refused hin ha]
  · intro hc i hi
    by_cases ha : L3Accepted frame
    · rw [checksumOf_accepted host ha] at hc ⊢
      have hf : checkField (l3Of frame).proto = none := by
        unfold checksumL4Of at hc
        split at hc
        · assumption
        · cases hc
      rw [checksumL4Of_kept _ _ _ _ _ _ (by simp [hf]), headStored_kept host hi]
    · rw [checksumOf_refused hin ha]
  · have hsame : SameSummed frame (checksumOf host frame).2 := by
      refine ⟨hsize, fun i hi => hkept i (fun hs => ?_)⟩
      rcases hi with ⟨-, hi⟩ | ⟨-, -, hi⟩
      · exact hi hs.2
      · exact hi hs.2
    obtain ⟨after', hrun, hlen, hbytes⟩ := checksum_independent hin hsame
    rw [hrun, eq_of_byteAt hlen]
    intro i
    by_cases hi : Stores frame i
    · exact (hbytes i).1 hi
    · exact (hbytes i).2 hi

theorem oddUdp_inside (host : Endian) : ChecksumInside host oddUdp := by
  intro _
  refine ⟨fun _ => .inr (.inr ⟨?_, .inr (fun o ho => ?_)⟩), fun h => absurd h (by decide)⟩
  · decide
  · cases ho
    decide

theorem checksum_effect_oddUdp : ∃ code after, checksum .big oddUdp = .ok (code, after) ∧
    ChecksumEffect .big oddUdp code after :=
  checksum_effect (oddUdp_inside .big)

end Xdpacket
