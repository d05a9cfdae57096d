import Xdpacket.Proofs.OnesSum

namespace Xdpacket

variable {host : Endian} {f : Bytes}

/-- The words that an l4 sum starts with, as the host adds them. -/
def pseudoWords (host : Endian) (f : Bytes) : Nat :=
  if ipVersion f = 4 then
    hostSum host f 26 4 + hostSum host f 30 4 + (byteAt f 23).toNat * 256 +
      be16toh host (l3Of f).l4Len
  else
    hostSum host f 22 16 + hostSum host f 38 16 + hostSum host f 18 2 + (byteAt f 20).toNat * 256

/-- A frame with nothing left to store: its ethertype is that of IPv4, its headers lie inside,
its protocol is one that has a checksum, and the sums that it carries are those of its words. -/
structure PassesChecksum (host : Endian) (f : Bytes) : Prop where
  accepted : L3Accepted f
  header : ipVersion f = 4 → wordAt host f 24 =
    65535 - endAround (hostSum host (putWord host f 24 0) 14 (ipHeadLen f))
  l4 : ∃ o, checkField (l3Of f).proto = some o ∧ (l3Of f).l4 + o + 2 ≤ f.length ∧
    wordAt host f ((l3Of f).l4 + o) = udpZero (l3Of f).proto (65535 - endAround
      (l4Start (l3Of f).proto (pseudoWords host f) +
        hostSum host (putWord host f ((l3Of f).l4 + o) 0) (l3Of f).l4 (l3Of f).l4Len))

/-- A word stored where it is already changes nothing. -/
theorem putWord_wordAt (host : Endian) {bs : Bytes} {i : Nat} (hi : i + 2 ≤ bs.length) :
    putWord host bs i (wordAt host bs i) = bs := by
  have hlo : ∀ a b : UInt8, UInt8.ofNat ((a.toNat + 256 * b.toNat) % 256) = a ∧
      UInt8.ofNat ((a.toNat + 256 * b.toNat) / 256) = b := by
    intro a b
    have := a.toNat_lt
    have := b.toNat_lt
    constructor <;> apply UInt8.toNat_inj.mp <;> simp only [UInt8.toNat_ofNat'] <;> omega
  refine eq_of_byteAt (by simp) (fun j => ?_)
  have h0 : i < bs.length := by omega
  have h1 : i + 1 < bs.length := by omega
  by_cases hj : j = i
  · subst hj
    cases host <;>
      simp [putWord, wordAt, hostWord, byteAt_set, h0, hlo, Nat.add_comm (256 * _)]
  by_cases hj' : j = i + 1
  · subst hj'
    cases host <;>
      simp [putWord, wordAt, hostWord, byteAt_set, h1, hlo, Nat.add_comm (256 * _)]
  · exact byteAt_putWord_ne hj hj'

/-- The header sum as the code stores it. -/
theorem headStored_eq (hv : ipVersion f = 4) :
    headStored host f = putWord host f 24
      (65535 - endAround (hostSum host (putWord host f 24 0) 14 (ipHeadLen f))) := by
  have := ipHeadLen_le f
  have hle := hostSum_le host (putWord host f 24 0) 14 (ipHeadLen f)
  rw [headStored, if_pos hv, headSum4, onesSumOf_host host _ 14 _ 0 (by omega), Nat.zero_add,
    onesFinal_eq (by omega)]

theorem pseudoSum_eq_words (h : L3Accepted f) (hs : headStored host f = f) :
    pseudoSum host f = pseudoWords host f := by
  have hlen := l4Len_le h
  unfold pseudoSum pseudoWords
  split
  · rw [hs, pseudo4_eq host f _ (by omega)]
  · exact pseudo6_eq host f

/-- What the l4 part stores, in a frame whose header sum is right. -/
theorem l4_stored (h : L3Accepted f) (hs : headStored host f = f) {o : Nat}
    (hf : checkField (l3Of f).proto = some o) :
    checksumOf host f = (.ok, putWord host f ((l3Of f).l4 + o) (udpZero (l3Of f).proto
      (65535 - endAround (l4Start (l3Of f).proto (pseudoWords host f) +
        hostSum host (putWord host f ((l3Of f).l4 + o) 0) (l3Of f).l4 (l3Of f).l4Len)))) := by
  have hlen := l4Len_le h
  have hle := hostSum_le host (putWord host f ((l3Of f).l4 + o) 0) (l3Of f).l4 (l3Of f).l4Len
  have hstart : l4Start (l3Of f).proto (pseudoWords host f) ≤ 65535 * 40 := by
    rw [← pseudoSum_eq_words h hs]
    have := pseudoSum_le host h
    unfold l4Start
    split <;> omega
  rw [checksumOf_accepted host h, hs, pseudoSum_eq_words h hs]
  simp only [checksumL4Of, hf]
  rw [onesSumOf_host host _ _ _ _ (by omega), onesFinal_eq (by omega)]

/-- The frame is one that `checksum` stays inside. -/
theorem L3Accepted.checksumInside (h : L3Accepted f)
    (hf : CheckFieldInside (l3Of f).proto (l3Of f).l4 f.length) : ChecksumInside host f := by
  obtain ⟨-, hu, -, h⟩ := h
  intro _
  constructor
  · intro hv
    rw [l3Of, if_pos hv] at hf
    rcases h with ⟨-, h20, htot, hfit⟩ | ⟨hv', -⟩
    · exact .inr (.inr ⟨by omega, .inr hf⟩)
    · omega
  · intro hv
    rw [l3Of, if_neg (by omega)] at hf
    rcases h with ⟨hv', -⟩ | ⟨-, hfit⟩
    · omega
    · exact ⟨by omega, .inr hf⟩

namespace PassesChecksum

theorem headStored (h : PassesChecksum host f) : headStored host f = f := by
  by_cases hv : ipVersion f = 4
  · have := h.accepted.1
    rw [headStored_eq hv, ← h.header hv, putWord_wordAt host (by omega)]
  · rw [Xdpacket.headStored, if_neg hv]

/-- Exactly these frames are accepted and left as they are. -/
theorem iff : PassesChecksum host f ↔ checksum host f = .ok (.ok, f) := by
  constructor
  · intro h
    obtain ⟨o, hf, hin, hw⟩ := h.l4
    have hfield : CheckFieldInside (l3Of f).proto (l3Of f).l4 f.length := by
      intro o' ho
      rw [hf] at ho
      cases ho
      exact hin
    rw [checksum_eq (h.accepted.checksumInside hfield), l4_stored h.accepted h.headStored hf, ← hw,
      putWord_wordAt host hin]
  · intro h
    have hin : ChecksumInside host f :=
      (checksum_needs host f).not_bad_iff.mp (Runs.of_ok h trivial)
    rw [checksum_eq hin, Except.ok.injEq] at h
    have ha : L3Accepted f := by
      by_contra hn
      rw [checksumOf_refused hin hn] at h
      have hc := (Prod.mk.inj h).1
      unfold refusal at hc
      split at hc
      · cases hc
      split at hc
      · cases hc
      split at hc <;> cases hc
    have hstart := l3Of_l4_ge_of_head ha.head
    rw [checksumOf_accepted host ha, checksumL4Of] at h
    cases hf : checkField (l3Of f).proto with
    | none =>
      rw [hf] at h
      cases (Prod.mk.inj h).1
    | some o =>
      have hfield := ha.field_inside hin o hf
      rw [hf] at h
      -- the l4 field lies beyond the one of the header, which must have been right before
      have hhead : ipVersion f = 4 → wordAt host f 24 =
          65535 - endAround (hostSum host (putWord host f 24 0) 14 (ipHeadLen f)) := by
        intro hv
        have h24 := ha.1
        have hkept : wordAt host f 24 = wordAt host (Xdpacket.headStored host f) 24 := by
          conv_lhs => rw [← (Prod.mk.inj h).2]
          unfold wordAt
          rw [byteAt_putWord_ne (by omega) (by omega), byteAt_putWord_ne (by omega) (by omega)]
        rw [hkept, headStored_eq hv, wordAt_putWord host 24 (by omega) (by omega)]
      have hs : Xdpacket.headStored host f = f := by
        by_cases hv : ipVersion f = 4
        · have := ha.1
          rw [headStored_eq hv, ← hhead hv, putWord_wordAt host (by omega)]
        · rw [Xdpacket.headStored, if_neg hv]
      refine ⟨ha, hhead, o, hf, hfield, ?_⟩
      have hl4 := l4_stored ha hs hf
      rw [checksumOf_accepted host ha, checksumL4Of, hf] at hl4
      have he := (Prod.mk.inj hl4).2
      rw [(Prod.mk.inj h).2] at he
      have hlt : ∀ s, udpZero (l3Of f).proto (65535 - endAround s) < 65536 :=
        fun s => udpZero_lt (by omega)
      exact (congrArg (fun t => wordAt host t ((l3Of f).l4 + o)) he).trans
        (wordAt_putWord host _ hfield (hlt _))

end PassesChecksum

end Xdpacket
