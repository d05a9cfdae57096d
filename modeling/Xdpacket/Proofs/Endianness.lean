import Xdpacket.Proofs.ChecksumFrame

namespace Xdpacket

/-- A word with its two bytes exchanged. -/
def swapWord (v : Nat) : Nat := v % 256 * 256 + v / 256

theorem swapWord_lt {v : Nat} (h : v < 65536) : swapWord v < 65536 := by
  unfold swapWord
  omega

theorem swapWord_modEq (v : Nat) : 256 * v ≡ swapWord v [MOD 65535] := by
  unfold swapWord Nat.ModEq
  omega

/-- A little-endian store puts the bytes that a big-endian one puts of the swapped word. -/
theorem putWord_little (bs : Bytes) (i : Nat) {v : Nat} (h : v < 65536) :
    putWord .little bs i v = putWord .big bs i (swapWord v) := by
  have hlo : swapWord v % 256 = v / 256 := by
    unfold swapWord
    omega
  have hhi : swapWord v / 256 = v % 256 := by
    unfold swapWord
    omega
  simp only [putWord, hlo, hhi]

theorem putWord_zero (bs : Bytes) (i : Nat) : putWord .big bs i 0 = putWord .little bs i 0 := rfl

/-- The RFC1071 relation between the sums of the two hosts. -/
theorem hostSum_modEq (bs : Bytes) (off n : Nat) :
    hostSum .big bs off n ≡ 256 * hostSum .little bs off n [MOD 65535] :=
  sum_bigWord_modEq (bytesAt bs off n)

theorem hostSum_eq_zero (bs : Bytes) (off n : Nat) :
    hostSum .big bs off n = 0 ↔ hostSum .little bs off n = 0 :=
  (sum_wordsOf_eq_zero bigWord_eq_zero _).trans (sum_wordsOf_eq_zero littleWord_eq_zero _).symm

/-- Only a zero sum has a complement of all ones. -/
theorem onesFinal_eq_ones {s : Nat} (h : s < 2 ^ 32) : onesFinal s = 65535 ↔ s = 0 := by
  have h1 := foldCarry_eq s
  have h2 := foldCarry_eq (foldCarry s)
  have hz : ∀ a, foldCarry a = 0 ↔ a = 0 := by
    intro a
    unfold foldCarry
    omega
  have hle := foldCarry_twice_le h
  have hz1 := hz s
  have hz2 := hz (foldCarry s)
  rw [onesFinal, Nat.mod_eq_of_lt (by omega)]
  omega

/-- Sums that correspond have complements that are swaps of one another. -/
theorem onesFinal_swap {a b : Nat} (ha : a < 2 ^ 32) (hb : b < 2 ^ 32)
    (hm : b ≡ 256 * a [MOD 65535]) (hz : b = 0 ↔ a = 0) :
    swapWord (onesFinal a) = onesFinal b := by
  have hca := (onesFinal_cancels ha).1
  have hcb := (onesFinal_cancels hb).1
  have hsw := swapWord_modEq (onesFinal a)
  have hoa := onesFinal_eq_ones ha
  have hob := onesFinal_eq_ones hb
  have hla := onesFinal_lt a
  have hlb := onesFinal_lt b
  have hones : swapWord (onesFinal a) = 65535 ↔ onesFinal a = 65535 := by
    unfold swapWord
    omega
  have hls := swapWord_lt hla
  have hsum : onesFinal b ≡ swapWord (onesFinal a) [MOD 65535] := by
    unfold Nat.ModEq at hca hcb hsw hm ⊢
    omega
  unfold Nat.ModEq at hsum
  omega

/-- The other way: equal bytes come from corresponding sums. -/
theorem modEq_of_swap {a b x y : Nat} (ha : a < 2 ^ 32) (hb : b < 2 ^ 32)
    (hx : x ≡ onesFinal a [MOD 65535]) (hy : y ≡ onesFinal b [MOD 65535])
    (h : swapWord x = y) : b ≡ 256 * a [MOD 65535] := by
  have hca := (onesFinal_cancels ha).1
  have hcb := (onesFinal_cancels hb).1
  have hsw := swapWord_modEq x
  unfold Nat.ModEq at *
  omega

/-- A sum with no pseudo-header leaves the same bytes on both hosts. -/
theorem storeSum_hosts (bs : Bytes) (check off : Nat) {n : Nat} (hn : n ≤ 65535) :
    putWord .big bs check (onesFinal (onesSumOf .big (putWord .big bs check 0) off n 0)) =
      putWord .little bs check
        (onesFinal (onesSumOf .little (putWord .little bs check 0) off n 0)) := by
  have hbig := hostSum_le .big (putWord .little bs check 0) off n
  have hlittle := hostSum_le .little (putWord .little bs check 0) off n
  rw [putWord_little bs check (onesFinal_lt _), putWord_zero, onesSumOf_host .big _ off n 0 (by omega),
    onesSumOf_host .little _ off n 0 (by omega), Nat.zero_add, Nat.zero_add,
    onesFinal_swap (by omega) (by omega) (hostSum_modEq _ off n) (hostSum_eq_zero _ off n)]

theorem headStored_hosts (bs : Bytes) : headStored .big bs = headStored .little bs := by
  unfold headStored headSum4
  rw [storeSum_hosts bs 24 14 (by have := ipHeadLen_le bs; omega)]

theorem be16toh_swap (v : Nat) : be16toh .little v = swapWord v := rfl

/-- The protocol is shifted into the high byte of a native word: on a
big-endian host that is the wrong byte. -/
theorem pseudoSum_hosts {bs : Bytes} (h : L3Accepted bs) :
    pseudoSum .big bs ≡ 256 * pseudoSum .little bs + 255 * (l3Of bs).proto.toNat [MOD 65535] := by
  unfold pseudoSum
  rw [headStored_hosts]
  by_cases hv : ipVersion bs = 4
  · have hlen : (l3Of bs).l4Len < 65536 := by
      rcases h.2.2.2 with ⟨-, -, htot, -⟩ | ⟨h6, -⟩
      · rw [l3Of_l4Len4 .big hv htot]
        exact Nat.mod_lt _ (by omega)
      · omega
    have hproto : (byteAt (headStored .little bs) 23).toNat = (l3Of bs).proto.toNat := by
      rw [headStored_kept .little (by omega), l3Of, if_pos hv]
    rw [if_pos hv, if_pos hv, pseudo4_eq .big _ _ hlen, pseudo4_eq .little _ _ hlen, hproto,
      be16toh_swap]
    have h26 := hostSum_modEq (headStored .little bs) 26 4
    have h30 := hostSum_modEq (headStored .little bs) 30 4
    have hn := swapWord_modEq (swapWord (l3Of bs).l4Len)
    have hback : swapWord (swapWord (l3Of bs).l4Len) = (l3Of bs).l4Len := by
      unfold swapWord
      omega
    rw [hback] at hn
    simp only [be16toh]
    unfold Nat.ModEq at *
    omega
  · have hproto : (byteAt bs 20).toNat = (l3Of bs).proto.toNat := by rw [l3Of, if_neg hv]
    rw [if_neg hv, if_neg hv, pseudo6_eq .big, pseudo6_eq .little, hproto]
    have h22 := hostSum_modEq bs 22 16
    have h38 := hostSum_modEq bs 38 16
    have h18 := hostSum_modEq bs 18 2
    unfold Nat.ModEq at *
    omega

theorem pseudoSum_le (host : Endian) {bs : Bytes} (h : L3Accepted bs) :
    pseudoSum host bs ≤ 65535 * 40 := by
  unfold pseudoSum
  by_cases hv : ipVersion bs = 4
  · rw [if_pos hv]
    apply pseudo4_le
    rcases h.2.2.2 with ⟨-, -, htot, -⟩ | ⟨h6, -⟩
    · rw [l3Of_l4Len4 .big hv htot]
      exact Nat.mod_lt _ (by omega)
    · omega
  · rw [if_neg hv]
    exact pseudo6_le host bs

/-- The l4 checksum of the frame starts with a pseudo-header. -/
def SumsPseudo (bs : Bytes) : Prop :=
  L3Accepted bs ∧ ((l3Of bs).proto = IPPROTO_TCP ∨ (l3Of bs).proto = IPPROTO_UDP ∨
    (l3Of bs).proto = IPPROTO_ICMPV6)

instance (bs : Bytes) : Decidable (SumsPseudo bs) := by
  unfold SumsPseudo
  infer_instance

theorem checkField_of_not_pseudo {bs : Bytes} (ha : L3Accepted bs) (h : ¬ SumsPseudo bs) :
    checkField (l3Of bs).proto = none ∨ (l3Of bs).proto = IPPROTO_ICMP := by
  have hp := fun hp => h ⟨ha, hp⟩
  unfold checkField
  rw [if_neg (fun ht => hp (.inl ht)), if_neg (fun hu => hp (.inr (.inl hu)))]
  by_cases hi : (l3Of bs).proto = IPPROTO_ICMP
  · exact .inr hi
  · exact .inl (by rw [if_neg hi, if_neg (fun h6 => hp (.inr (.inr h6)))])

theorem l4Len_le {bs : Bytes} (ha : L3Accepted bs) : (l3Of bs).l4Len ≤ 65535 := by
  obtain ⟨-, hu, -, ha⟩ := ha
  rcases ha with ⟨hv, -, -, hfit⟩ | ⟨hv, hfit⟩
  · rw [l3Of, if_pos hv]
    simp only
    omega
  · rw [l3Of, if_neg (by omega)]
    simp only
    omega

theorem checksumOf_hosts {bs : Bytes} (ha : L3Accepted bs) (h : ¬ SumsPseudo bs) :
    checksumOf .big bs = checksumOf .little bs := by
  rw [checksumOf_accepted .big ha, checksumOf_accepted .little ha, headStored_hosts]
  unfold checksumL4Of
  rcases checkField_of_not_pseudo ha h with hf | hi
  · rw [hf]
  · rw [hi]
    have hf : checkField IPPROTO_ICMP = some 2 := rfl
    have hzero : ∀ v, udpZero IPPROTO_ICMP v = v := fun v => if_neg (fun h => absurd h.1 (by decide))
    have hstart : ∀ s, l4Start IPPROTO_ICMP s = 0 := fun s => if_pos rfl
    simp only [hf, hzero, hstart, storeSum_hosts _ _ _ (l4Len_le ha)]

theorem L3Accepted.field_inside {bs : Bytes} (ha : L3Accepted bs) {host : Endian}
    (hin : ChecksumInside host bs) : CheckFieldInside (l3Of bs).proto (l3Of bs).l4 bs.length := by
  obtain ⟨hl, hu, he, ha⟩ := ha
  have hin := hin ⟨hl, hu, by rwa [etherType_eq]⟩
  rcases ha with ⟨hv, h20, htot, hfit⟩ | ⟨hv, hfit⟩
  · have h4 := hin.1 hv
    have := ipHeadLen_le bs
    have := (l3Accepted_fits4 host hu).mp ⟨htot, hfit⟩
    rw [l3Of, if_pos hv]
    unfold Ip4Inside at h4
    rcases h4 with h | h | ⟨-, h | h⟩
    · omega
    · omega
    · omega
    · exact h
  · have h6 := hin.2 hv
    rw [l3Of, if_neg (by omega)]
    unfold Ip6Inside at h6
    rw [l4Len6_eq] at h6
    rcases h6.2 with h | h
    · omega
    · exact h

theorem pseudo_field {proto : UInt8}
    (h : proto = IPPROTO_TCP ∨ proto = IPPROTO_UDP ∨ proto = IPPROTO_ICMPV6) :
    ∃ o, checkField proto = some o ∧ ¬ 255 * proto.toNat ≡ 0 [MOD 65535] ∧
      ∀ s, l4Start proto s = s := by
  rcases h with rfl | rfl | rfl
  · exact ⟨16, rfl, by decide, fun s => if_neg (by decide)⟩
  · exact ⟨6, rfl, by decide, fun s => if_neg (by decide)⟩
  · exact ⟨2, rfl, by decide, fun s => if_neg (by decide)⟩

/-- Sums that start with a pseudo-header differ by 255 times the protocol. -/
theorem checksumOf_differ {bs : Bytes} {host : Endian} (hin : ChecksumInside host bs)
    (h : SumsPseudo bs) : checksumOf .big bs ≠ checksumOf .little bs := by
  intro heq
  obtain ⟨ha, hp⟩ := h
  obtain ⟨o, hf, hne, hstart⟩ := pseudo_field hp
  have hend := ha.field_inside hin o hf
  have hn := l4Len_le ha
  have hpb := pseudoSum_le .big ha
  have hpl := pseudoSum_le .little ha
  have hpseudo := pseudoSum_hosts ha
  rw [checksumOf_accepted .big ha, checksumOf_accepted .little ha, headStored_hosts] at heq
  simp only [checksumL4Of, hf, hstart, Prod.mk.injEq, true_and] at heq
  have hlen := length_headStored .little bs
  generalize headStored .little bs = head at heq hlen
  generalize (l3Of bs).l4Len = n at heq hn
  generalize (l3Of bs).l4 = l4 at heq hend
  have hbig := hostSum_le .big (putWord .little head (l4 + o) 0) l4 n
  have hlittle := hostSum_le .little (putWord .little head (l4 + o) 0) l4 n
  have hsums := hostSum_modEq (putWord .little head (l4 + o) 0) l4 n
  rw [putWord_zero, onesSumOf_host .big _ l4 n _ (by omega),
    onesSumOf_host .little _ l4 n _ (by omega), putWord_little _ _ (udpZero_lt (onesFinal_lt _))]
    at heq
  have hword := congrArg (fun t => wordAt .big t (l4 + o)) heq
  rw [wordAt_putWord .big _ (by omega) (udpZero_lt (onesFinal_lt _)),
    wordAt_putWord .big _ (by omega) (swapWord_lt (udpZero_lt (onesFinal_lt _)))] at hword
  have hmod := modEq_of_swap (by omega) (by omega) (udpZero_modEq _ _) (udpZero_modEq _ _)
    hword.symm
  apply hne
  unfold Nat.ModEq at *
  omega

theorem inside_hosts (host : Endian) (bs : Bytes) :
    ChecksumInside host bs ↔ ChecksumInside .big bs := by
  unfold ChecksumInside Ip4Inside Ip6Inside
  rw [etherType_eq host, etherType_eq .big, l4Len4_eq host, l4Len4_eq .big, l4Len6_eq host,
    l4Len6_eq .big]

/-- Big-endian and little-endian hosts agree on a frame exactly when no sum
over a pseudo-header goes into it. -/
theorem checksum_hosts_iff {frame : Bytes} (hin : ChecksumInside .little frame) :
    checksum .big frame = checksum .little frame ↔ ¬ SumsPseudo frame := by
  have hbig := (inside_hosts .little frame).mp hin
  rw [checksum_eq hbig, checksum_eq hin]
  constructor
  · intro heq h
    exact checksumOf_differ hin h (Except.ok.inj heq)
  · intro h
    by_cases ha : L3Accepted frame
    · rw [checksumOf_hosts ha h]
    · rw [checksumOf_refused hbig ha, checksumOf_refused hin ha]

theorem checksum_hosts_oddUdp :
    checksum .big oddUdp = checksum .little oddUdp ↔ ¬ SumsPseudo oddUdp :=
  checksum_hosts_iff (oddUdp_inside .little)

/-- The datagram gets another UDP checksum on a big-endian host. -/
theorem checksum_host_dependent :
    ¬ ∀ frame : Bytes, ChecksumInside .little frame → ChecksumInside .big frame →
      checksum .big frame = checksum .little frame := by
  intro h
  have hone := h oddUdp (oddUdp_inside .little) (oddUdp_inside .big)
  rw [checksum_eq (oddUdp_inside .big), checksum_eq (oddUdp_inside .little)] at hone
  exact checksumOf_differ (oddUdp_inside .big) (by decide) (Except.ok.inj hone)

end Xdpacket
