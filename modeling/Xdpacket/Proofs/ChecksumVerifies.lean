import Xdpacket.Lib.OnesComplement
import Xdpacket.Proofs.ChecksumBounds

namespace Xdpacket

/-- The `n` bytes of a frame at `off`. -/
def bytesAt (bs : Bytes) (off n : Nat) : Bytes := (List.range n).map (fun i => byteAt bs (off + i))

theorem bytesAt_add (bs : Bytes) (off m n : Nat) :
    bytesAt bs off (m + n) = bytesAt bs off m ++ bytesAt bs (off + m) n := by
  unfold bytesAt
  rw [List.range_add, List.map_append, List.map_map]
  simp [Function.comp_def, Nat.add_assoc]

@[simp] theorem length_bytesAt (bs : Bytes) (off n : Nat) : (bytesAt bs off n).length = n := by
  simp [bytesAt]

theorem bytesAt_congr {t : Bytes} {n : Nat} (bs : Bytes) (off : Nat)
    (h : ∀ i, off ≤ i → i < off + n → byteAt t i = byteAt bs i) :
    bytesAt t off n = bytesAt bs off n := by
  unfold bytesAt
  apply List.map_congr_left
  intro i hi
  have := List.mem_range.mp hi
  exact h _ (by omega) (by omega)

/-- The sum of the words of a range, as a host reads them. -/
def hostSum (host : Endian) (bs : Bytes) (off n : Nat) : Nat :=
  (wordsOf (hostWord host) (bytesAt bs off n)).sum

/-- The sum of the words of a range, as a little-endian host reads them. -/
def littleSum (bs : Bytes) (off n : Nat) : Nat := (wordsOf littleWord (bytesAt bs off n)).sum

section HostSum

variable (host : Endian) (bs : Bytes) (off : Nat)

theorem hostSum_le (n : Nat) : hostSum host bs off n ≤ 65535 * ((n + 1) / 2) := by
  have := sum_wordsOf_le (hostWord_lt host) (bytesAt bs off n)
  rwa [length_bytesAt] at this

/-- An even range splits off in front. -/
theorem hostSum_add (m n : Nat) (h : m % 2 = 0) :
    hostSum host bs off (m + n) = hostSum host bs off m + hostSum host bs (off + m) n := by
  unfold hostSum
  rw [bytesAt_add, wordsOf_append (by simpa using h), List.sum_append]

theorem hostSum_two : hostSum host bs off 2 = wordAt host bs off := by
  simp [hostSum, bytesAt, List.range_succ, wordsOf, wordAt]

/-- The 32-bit accumulator does not overflow below 2^32. -/
theorem sumWordsOf_host (n sum : Nat) (h : sum + 65535 * n < 2 ^ 32) :
    sumWordsOf host bs off n sum = sum + hostSum host bs off (2 * n) := by
  induction n with
  | zero => simp [sumWordsOf, hostSum, bytesAt, wordsOf]
  | succ n ih =>
    have hle := hostSum_le host bs off (2 * n)
    have hw := wordAt_lt host bs (off + 2 * n)
    rw [sumWordsOf, ih (by omega), show 2 * (n + 1) = 2 * n + 2 by omega,
      hostSum_add host bs off (2 * n) 2 (by omega), hostSum_two, addWord,
      Nat.mod_eq_of_lt (by omega)]
    omega

theorem onesSumOf_host (n sum : Nat) (h : sum + 65535 * ((n + 1) / 2) < 2 ^ 32) :
    onesSumOf host bs off n sum = sum + hostSum host bs off n := by
  unfold onesSumOf
  rw [sumWordsOf_host host bs off (n / 2) sum (by omega)]
  split
  · rename_i hodd
    have hle := hostSum_le host bs off (2 * (n / 2))
    have hlast : hostSum host bs (off + 2 * (n / 2)) 1 =
        hostWord host (byteAt bs (off + n - 1)) 0 := by
      rw [show off + n - 1 = off + 2 * (n / 2) by omega]
      simp [hostSum, bytesAt, List.range_succ, wordsOf]
    have hw := hostWord_lt host (byteAt bs (off + n - 1)) 0
    have hsplit := hostSum_add host bs off (2 * (n / 2)) 1 (by omega)
    rw [show 2 * (n / 2) + 1 = n by omega, hlast] at hsplit
    rw [addWord, Nat.mod_eq_of_lt (by omega), hsplit]
    omega
  · rw [show 2 * (n / 2) = n by omega]

end HostSum

theorem littleSum_le (bs : Bytes) (off n : Nat) : littleSum bs off n ≤ 65535 * ((n + 1) / 2) :=
  hostSum_le .little bs off n

theorem littleSum_add (bs : Bytes) (off m n : Nat) (h : m % 2 = 0) :
    littleSum bs off (m + n) = littleSum bs off m + littleSum bs (off + m) n :=
  hostSum_add .little bs off m n h

theorem littleSum_two (bs : Bytes) (off : Nat) : littleSum bs off 2 = wordAt .little bs off :=
  hostSum_two .little bs off

theorem littleSum_congr {t : Bytes} {n : Nat} (bs : Bytes) (off : Nat)
    (h : ∀ i, off ≤ i → i < off + n → byteAt t i = byteAt bs i) :
    littleSum t off n = littleSum bs off n := by
  unfold littleSum
  rw [bytesAt_congr bs off h]

theorem onesSumOf_eq (bs : Bytes) (off n sum : Nat) (h : sum + 65535 * ((n + 1) / 2) < 2 ^ 32) :
    onesSumOf .little bs off n sum = sum + littleSum bs off n :=
  onesSumOf_host .little bs off n sum h

theorem foldCarry_eq (s : Nat) : s = foldCarry s + 65535 * (s / 65536) := by
  unfold foldCarry
  omega

/-- Two folds are enough for 32 bits. -/
theorem foldCarry_twice_le {s : Nat} (h : s < 2 ^ 32) : foldCarry (foldCarry s) ≤ 65535 := by
  have hle : foldCarry s ≤ 131070 := by
    unfold foldCarry
    omega
  generalize foldCarry s = a at hle
  unfold foldCarry
  omega

/-- The complement of a sum cancels it. -/
theorem onesFinal_cancels {s : Nat} (h : s < 2 ^ 32) :
    s + onesFinal s ≡ 0 [MOD 65535] ∧ 0 < s + onesFinal s := by
  have h1 := foldCarry_eq s
  have h2 := foldCarry_eq (foldCarry s)
  have hle := foldCarry_twice_le h
  have hk : s + onesFinal s = 65535 * (s / 65536 + foldCarry s / 65536 + 1) := by
    rw [onesFinal, Nat.mod_eq_of_lt (by omega)]
    omega
  rw [hk]
  exact ⟨Nat.modEq_zero_iff_dvd.mpr (Nat.dvd_mul_right _ _), by omega⟩

/-- Storing a word into a range replaces the word that was there. -/
theorem littleSum_putWord {bs : Bytes} {off n j v : Nat} (hj : 2 * j + 2 ≤ n)
    (hn : off + n ≤ bs.length) (hv : v < 65536) :
    littleSum (putWord .little bs (off + 2 * j) v) off n =
      littleSum (putWord .little bs (off + 2 * j) 0) off n + v := by
  have hsplit : ∀ u, u < 65536 → littleSum (putWord .little bs (off + 2 * j) u) off n =
      littleSum bs off (2 * j) + u + littleSum bs (off + 2 * j + 2) (n - 2 * j - 2) := by
    intro u hu
    have hn' : n = 2 * j + (2 + (n - 2 * j - 2)) := by omega
    rw [show littleSum (putWord .little bs (off + 2 * j) u) off n =
      littleSum (putWord .little bs (off + 2 * j) u) off (2 * j + (2 + (n - 2 * j - 2))) by
        rw [← hn']]
    rw [littleSum_add _ _ _ _ (by omega), littleSum_add _ _ _ _ (by omega), littleSum_two,
      wordAt_putWord .little _ (by omega) hu,
      littleSum_congr bs off (fun i _ _ => byteAt_putWord_ne (by omega) (by omega)),
      littleSum_congr bs (off + 2 * j + 2)
        (fun i _ _ => byteAt_putWord_ne (by omega) (by omega))]
    omega
  rw [hsplit v hv, hsplit 0 (by omega)]
  omega

/-- After the sum of a range is stored into it, the range and the start cancel. -/
theorem storeSum_cancels {n : Nat} (bs : Bytes) (off j start : Nat) (hj : 2 * j + 2 ≤ n)
    (hn : off + n ≤ bs.length) (hs : start + 65535 * ((n + 1) / 2) < 2 ^ 32) :
    let v := onesFinal (onesSumOf .little (putWord .little bs (off + 2 * j) 0) off n start)
    let total := start + littleSum (putWord .little bs (off + 2 * j) v) off n
    total ≡ 0 [MOD 65535] ∧ 0 < total := by
  intro v total
  have hle := littleSum_le (putWord .little bs (off + 2 * j) 0) off n
  have hsum := onesSumOf_eq (putWord .little bs (off + 2 * j) 0) off n start hs
  have hput : littleSum (putWord .little bs (off + 2 * j) v) off n =
      littleSum (putWord .little bs (off + 2 * j) 0) off n + v :=
    littleSum_putWord hj hn (onesFinal_lt _)
  have htotal : total = onesSumOf .little (putWord .little bs (off + 2 * j) 0) off n start + v := by
    change start + littleSum (putWord .little bs (off + 2 * j) v) off n = _
    omega
  rw [htotal]
  exact onesFinal_cancels (by omega)

/-- A 16-bit number in network order. -/
def netWord (v : Nat) : Bytes := [UInt8.ofNat (v / 256), UInt8.ofNat (v % 256)]

/-- What the l4 checksum of a frame is taken over, as its IP header says. -/
structure L3 where
  l4 : Nat
  l4Len : Nat
  proto : UInt8
  pseudo : Bytes
deriving DecidableEq, Repr

def l3Of (bs : Bytes) : L3 :=
  if ipVersion bs = 4 then
    let l4Len := bigWord (byteAt bs 16) (byteAt bs 17) - ipHeadLen bs
    ⟨14 + ipHeadLen bs, l4Len, byteAt bs 23,
      bytesAt bs 26 8 ++ [0, byteAt bs 23] ++ netWord l4Len⟩
  else
    let l4Len := bigWord (byteAt bs 18) (byteAt bs 19)
    ⟨54, l4Len, byteAt bs 20,
      bytesAt bs 22 32 ++ [0, 0] ++ netWord l4Len ++ [0, 0, 0, byteAt bs 20]⟩

/-- A receiver accepts the l4 checksum. -/
structure L4Verifies (bs : Bytes) (l3 : L3) : Prop where
  pseudo : l3.proto = IPPROTO_TCP ∨ l3.proto = IPPROTO_UDP ∨ l3.proto = IPPROTO_ICMPV6 →
    onesComplementSum (l3.pseudo ++ bytesAt bs l3.l4 l3.l4Len) = 0xffff
  icmp : l3.proto = IPPROTO_ICMP → onesComplementSum (bytesAt bs l3.l4 l3.l4Len) = 0xffff
  udp : l3.proto = IPPROTO_UDP → bigWord (byteAt bs (l3.l4 + 6)) (byteAt bs (l3.l4 + 7)) ≠ 0

/-- A receiver accepts the frame's checksums. -/
structure Verifies (bs : Bytes) : Prop where
  header : ipVersion bs = 4 → onesComplementSum (bytesAt bs 14 (ipHeadLen bs)) = 0xffff
  l4 : L4Verifies bs (l3Of bs)

theorem checkField_even {proto : UInt8} {o : Nat} (h : checkField proto = some o) :
    ∃ j, 1 ≤ j ∧ o = 2 * j := by
  unfold checkField at h
  split at h
  · exact ⟨8, by omega, by simpa using h.symm⟩
  · split at h
    · exact ⟨3, by omega, by simpa using h.symm⟩
    · split at h
      · exact ⟨1, by omega, by simpa using h.symm⟩
      · split at h
        · exact ⟨1, by omega, by simpa using h.symm⟩
        · cases h

theorem udpZero_lt {proto : UInt8} {v : Nat} (h : v < 65536) : udpZero proto v < 65536 := by
  unfold udpZero
  split <;> omega

/-- Replacing a zero by all ones does not change a sum modulo 65535. -/
theorem udpZero_modEq (proto : UInt8) (v : Nat) : udpZero proto v ≡ v [MOD 65535] := by
  unfold udpZero
  split
  · rename_i h
    rw [h.2]
    rfl
  · rfl

theorem le_udpZero (proto : UInt8) (v : Nat) : v ≤ udpZero proto v := by
  unfold udpZero
  split <;> omega

/-- The stored field cancels the start and the rest of the l4 bytes. -/
theorem l4_cancels {proto : UInt8} {l4 n start o : Nat} {bs t : Bytes}
    (hf : checkField proto = some o) (hr : L4Result .little proto l4 n start bs .ok t)
    (ho : o + 2 ≤ n) (hl : l4 + n ≤ bs.length)
    (hs : l4Start proto start + 65535 * ((n + 1) / 2) < 2 ^ 32) :
    l4Start proto start + littleSum t l4 n ≡ 0 [MOD 65535] ∧
      0 < l4Start proto start + littleSum t l4 n := by
  obtain ⟨j, hj, rfl⟩ := checkField_even hf
  simp only [L4Result, hf] at hr
  obtain ⟨-, rfl⟩ := hr
  obtain ⟨hmod, hpos⟩ := storeSum_cancels bs l4 j _ ho hl hs
  have hv := onesFinal_lt (onesSumOf .little (putWord .little bs (l4 + 2 * j) 0) l4 n
    (l4Start proto start))
  generalize onesFinal (onesSumOf .little (putWord .little bs (l4 + 2 * j) 0) l4 n
    (l4Start proto start)) = v at hmod hpos hv ⊢
  rw [littleSum_putWord ho hl hv] at hmod hpos
  rw [littleSum_putWord ho hl (udpZero_lt hv)]
  constructor
  · exact (((udpZero_modEq proto v).add_left _).add_left _).trans hmod
  · have := le_udpZero proto v
    omega

/-- The l4 part of a frame verifies after `CHK_OK`, and the bytes before its
checksum field are as they were. -/
theorem l4_verifies {bs t : Bytes} {start : Nat} (l3 : L3)
    (hr : L4Result .little l3.proto l3.l4 l3.l4Len start bs .ok t)
    (hin : ∀ o, checkField l3.proto = some o → o + 2 ≤ l3.l4Len)
    (hl : l3.l4 + l3.l4Len ≤ bs.length) (hlen : bs.length ≤ 65535)
    (heven : l3.pseudo.length % 2 = 0) (hstart : (wordsOf littleWord l3.pseudo).sum = start)
    (hbound : start ≤ 65535 * 40) :
    L4Verifies t l3 ∧ ∀ i, i < l3.l4 + 2 → byteAt t i = byteAt bs i := by
  have hs : l4Start l3.proto start + 65535 * ((l3.l4Len + 1) / 2) < 2 ^ 32 := by
    unfold l4Start
    split <;> omega
  cases hf : checkField l3.proto with
  | none =>
    simp only [L4Result, hf] at hr
    cases hr.1
  | some o =>
    obtain ⟨hmod, hpos⟩ := l4_cancels hf hr (hin o hf) hl hs
    obtain ⟨j, hj, rfl⟩ := checkField_even hf
    have ho := hin _ hf
    simp only [L4Result, hf] at hr
    obtain ⟨-, rfl⟩ := hr
    generalize hv : onesFinal (onesSumOf .little (putWord .little bs (l3.l4 + 2 * j) 0) l3.l4
      l3.l4Len (l4Start l3.proto start)) = v at hmod hpos ⊢
    refine ⟨⟨?_, ?_, ?_⟩, ?_⟩
    · intro hp
      have hni : ¬ l3.proto = IPPROTO_ICMP := by
        rcases hp with h | h | h <;> rw [h] <;> decide
      rw [l4Start, if_neg hni, ← hstart] at hmod hpos
      apply verifies_of_little
      · rwa [wordsOf_append heven, List.sum_append]
      · rwa [wordsOf_append heven, List.sum_append]
    · intro hp
      rw [l4Start, if_pos hp, Nat.zero_add] at hmod hpos
      exact verifies_of_little _ hmod hpos
    · intro hp
      have h6 : 2 * j = 6 := by
        rw [hp] at hf
        exact (Option.some.inj hf).symm
      have hlt : udpZero l3.proto v < 65536 := udpZero_lt (hv ▸ onesFinal_lt _)
      have hne : udpZero l3.proto v ≠ 0 := by
        unfold udpZero
        split <;> simp_all
      have hw := wordAt_putWord .little (l3.l4 + 2 * j) (show _ ≤ bs.length by omega) hlt
      rw [h6] at hw ⊢
      intro hz
      obtain ⟨ha, hb⟩ := (bigWord_eq_zero _ _).mp hz
      apply hne
      rw [← hw]
      exact (littleWord_eq_zero _ _).mpr ⟨ha, hb⟩
    · intro i hi
      exact byteAt_putWord_ne (by omega) (by omega)

theorem be16toh_little (a b : UInt8) :
    be16toh .little (hostWord .little a b) = bigWord a b := by
  have := a.toNat_lt
  have := b.toNat_lt
  simp only [be16toh, hostWord, bigWord]
  omega

theorem be16toh_wordAt (host : Endian) (bs : Bytes) (i : Nat) :
    be16toh host (wordAt host bs i) = bigWord (byteAt bs i) (byteAt bs (i + 1)) := by
  cases host with
  | little => exact be16toh_little _ _
  | big => rfl

theorem etherType_eq (host : Endian) (bs : Bytes) :
    etherType host bs = bigWord (byteAt bs 12) (byteAt bs 13) :=
  be16toh_wordAt host bs 12

theorem sum_netWord {v : Nat} (h : v < 65536) :
    (wordsOf littleWord (netWord v)).sum = be16toh .little v := by
  simp only [netWord, wordsOf, littleWord, be16toh, List.sum_cons, List.sum_nil,
    UInt8.toNat_ofNat']
  omega

theorem addWord_of_lt {a b : Nat} (h : a + b < 2 ^ 32) : addWord a b = a + b :=
  Nat.mod_eq_of_lt h

theorem l4Len4_little (bs : Bytes) {headLen : Nat} (hh : headLen ≤ 60)
    (h : 14 + headLen + l4Len4 .little bs headLen ≤ 65535) :
    l4Len4 .little bs headLen = bigWord (byteAt bs 16) (byteAt bs 17) - headLen := by
  have hlt := bigWord_lt (byteAt bs 16) (byteAt bs 17)
  have hw : be16toh .little (wordAt .little bs 16) = bigWord (byteAt bs 16) (byteAt bs 17) :=
    be16toh_little _ _
  rw [l4Len4, hw] at h ⊢
  omega

theorem pseudo4_eq (host : Endian) (bs : Bytes) (l4Len : Nat) (h : l4Len < 65536) :
    pseudo4 host bs l4Len = hostSum host bs 26 4 + hostSum host bs 30 4 +
      (byteAt bs 23).toNat * 256 + be16toh host l4Len := by
  have h1 := hostSum_le host bs 26 4
  have h2 := hostSum_le host bs 30 4
  have hp := (byteAt bs 23).toNat_lt
  have hb := be16toh_lt host h
  have hinner := addWord_of_lt (a := 0 + hostSum host bs 26 4 + hostSum host bs 30 4)
    (b := (byteAt bs 23).toNat * 256) (by omega)
  rw [pseudo4, onesSumOf_host host bs 26 4 0 (by omega), onesSumOf_host host bs 30 4 _ (by omega),
    hinner, addWord_of_lt (by omega)]
  omega

theorem pseudo6_eq (host : Endian) (bs : Bytes) :
    pseudo6 host bs = hostSum host bs 22 16 + hostSum host bs 38 16 + hostSum host bs 18 2 +
      (byteAt bs 20).toNat * 256 := by
  have h1 := hostSum_le host bs 22 16
  have h2 := hostSum_le host bs 38 16
  have h3 := hostSum_le host bs 18 2
  have hp := (byteAt bs 20).toNat_lt
  rw [pseudo6, onesSumOf_host host bs 22 16 0 (by omega), onesSumOf_host host bs 38 16 _ (by omega),
    onesSumOf_host host bs 18 2 _ (by omega), addWord_of_lt (by omega)]
  omega

theorem pseudo4_le (host : Endian) (bs : Bytes) {l4Len : Nat} (h : l4Len < 65536) :
    pseudo4 host bs l4Len ≤ 65535 * 40 := by
  have h1 := hostSum_le host bs 26 4
  have h2 := hostSum_le host bs 30 4
  have hp := (byteAt bs 23).toNat_lt
  have hb := be16toh_lt host h
  rw [pseudo4_eq host bs l4Len h]
  omega

theorem pseudo6_le (host : Endian) (bs : Bytes) : pseudo6 host bs ≤ 65535 * 40 := by
  have h1 := hostSum_le host bs 22 16
  have h2 := hostSum_le host bs 38 16
  have h3 := hostSum_le host bs 18 2
  have hp := (byteAt bs 20).toNat_lt
  rw [pseudo6_eq]
  omega

/-- The words the IPv4 branch adds up are those of the pseudo-header. -/
theorem pseudo4_little (bs : Bytes) (l4Len : Nat) (h : l4Len < 65536) :
    (wordsOf littleWord (bytesAt bs 26 8 ++ [0, byteAt bs 23] ++ netWord l4Len)).sum =
      pseudo4 .little bs l4Len ∧ pseudo4 .little bs l4Len ≤ 65535 * 40 := by
  refine ⟨?_, pseudo4_le .little bs h⟩
  have h8 : littleSum bs 26 8 = littleSum bs 26 4 + littleSum bs 30 4 :=
    littleSum_add bs 26 4 4 (by omega)
  have hproto : (wordsOf littleWord [0, byteAt bs 23]).sum = (byteAt bs 23).toNat * 256 := by
    simp [wordsOf, littleWord, Nat.mul_comm]
  have hsum : pseudo4 .little bs l4Len = littleSum bs 26 4 + littleSum bs 30 4 +
      (byteAt bs 23).toNat * 256 + be16toh .little l4Len := pseudo4_eq .little bs l4Len h
  rw [wordsOf_append (by simp), wordsOf_append (by simp), List.sum_append, List.sum_append,
    hproto, sum_netWord h, hsum, ← h8]
  rfl

theorem pseudo6_little (bs : Bytes) :
    (wordsOf littleWord (bytesAt bs 22 32 ++ [0, 0] ++
        netWord (bigWord (byteAt bs 18) (byteAt bs 19)) ++ [0, 0, 0, byteAt bs 20])).sum =
      pseudo6 .little bs ∧ pseudo6 .little bs ≤ 65535 * 40 := by
  refine ⟨?_, pseudo6_le .little bs⟩
  have h32 : littleSum bs 22 32 = littleSum bs 22 16 + littleSum bs 38 16 :=
    littleSum_add bs 22 16 16 (by omega)
  have hlen : (wordsOf littleWord (netWord (bigWord (byteAt bs 18) (byteAt bs 19)))).sum =
      littleSum bs 18 2 := by
    have ha := (byteAt bs 18).toNat_lt
    have hb := (byteAt bs 19).toNat_lt
    have hw : wordAt .little bs 18 = (byteAt bs 18).toNat + 256 * (byteAt bs 19).toNat := rfl
    rw [sum_netWord (bigWord_lt _ _), littleSum_two, hw]
    simp only [be16toh, bigWord]
    omega
  have hzero : (wordsOf littleWord [0, 0]).sum = 0 := rfl
  have hproto : (wordsOf littleWord [0, 0, 0, byteAt bs 20]).sum =
      (byteAt bs 20).toNat * 256 := by
    simp [wordsOf, littleWord, Nat.mul_comm]
  have hsum : pseudo6 .little bs = littleSum bs 22 16 + littleSum bs 38 16 + littleSum bs 18 2 +
      (byteAt bs 20).toNat * 256 := pseudo6_eq .little bs
  rw [wordsOf_append (by simp [netWord]), wordsOf_append (by simp), wordsOf_append (by simp),
    List.sum_append, List.sum_append, List.sum_append, hproto, hlen, hzero, hsum, Nat.add_zero,
    ← h32]
  rfl

theorem l3Of_congr {bs t : Bytes} (h14 : byteAt t 14 = byteAt bs 14)
    (h4 : ipVersion bs = 4 → ∀ i, 16 ≤ i → i < 34 → i ≠ 24 → i ≠ 25 → byteAt t i = byteAt bs i)
    (h6 : ipVersion bs ≠ 4 → ∀ i, 18 ≤ i → i < 54 → byteAt t i = byteAt bs i) :
    l3Of t = l3Of bs := by
  have hv : ipVersion t = ipVersion bs := by rw [ipVersion, h14, ipVersion]
  have hh : ipHeadLen t = ipHeadLen bs := by rw [ipHeadLen, h14, ipHeadLen]
  unfold l3Of
  rw [hv, hh]
  by_cases h : ipVersion bs = 4
  · have h4 := h4 h
    rw [if_pos h, if_pos h, h4 16 (by omega) (by omega) (by omega) (by omega),
      h4 17 (by omega) (by omega) (by omega) (by omega),
      h4 23 (by omega) (by omega) (by omega) (by omega),
      bytesAt_congr bs 26 (fun i _ _ => h4 i (by omega) (by omega) (by omega)
        (by omega))]
  · have h6 := h6 h
    rw [if_neg h, if_neg h, h6 18 (by omega) (by omega), h6 19 (by omega) (by omega),
      h6 20 (by omega) (by omega),
      bytesAt_congr bs 22 (fun i _ _ => h6 i (by omega) (by omega))]

/-- The l4 checksum field, if the protocol has one, lies inside the l4 length. -/
def CheckFieldInL4 (bs : Bytes) : Prop :=
  ∀ o, checkField (l3Of bs).proto = some o → o + 2 ≤ (l3Of bs).l4Len

theorem ip4_verifies {bs t : Bytes} (hv : ipVersion bs = 4)
    (hr : Ip4Result .little bs (ipHeadLen bs) .ok t) (hlen : bs.length ≤ 65535)
    (hin : CheckFieldInL4 bs) : Verifies t := by
  rcases hr with ⟨h, -⟩ | ⟨h20, h60, hfit, hr⟩
  · cases h
  have hn := l4Len4_little bs h60 (by omega)
  have hl3 : l3Of bs = ⟨14 + ipHeadLen bs, l4Len4 .little bs (ipHeadLen bs), byteAt bs 23,
      bytesAt bs 26 8 ++ [0, byteAt bs 23] ++ netWord (l4Len4 .little bs (ipHeadLen bs))⟩ := by
    rw [l3Of, if_pos hv, hn]
  have hkeep : ∀ i, i ≠ 24 → i ≠ 25 →
      byteAt (headSum4 .little bs (ipHeadLen bs)) i = byteAt bs i :=
    fun i h h' => byteAt_putWord_ne h h'
  have hpseudo : bytesAt (headSum4 .little bs (ipHeadLen bs)) 26 8 = bytesAt bs 26 8 :=
    bytesAt_congr bs 26 (fun i _ _ => hkeep i (by omega) (by omega))
  obtain ⟨hstart, hbound⟩ := pseudo4_little (headSum4 .little bs (ipHeadLen bs))
    (l4Len4 .little bs (ipHeadLen bs)) (Nat.mod_lt _ (by omega))
  rw [hpseudo, hkeep 23 (by omega) (by omega)] at hstart
  obtain ⟨hl4, hframe⟩ := l4_verifies (l3Of bs) (by rw [hl3]; exact hr) hin
    (by rw [hl3, headSum4, length_putWord]; exact hfit)
    (by rw [headSum4, length_putWord]; exact hlen) (by rw [hl3]; simp [netWord])
    (by rw [hl3]; exact hstart) hbound
  have hafter : ∀ i, i < 16 + ipHeadLen bs →
      byteAt t i = byteAt (headSum4 .little bs (ipHeadLen bs)) i := by
    intro i hi
    refine hframe i ?_
    rw [hl3]
    simp only
    omega
  have h14 : byteAt t 14 = byteAt bs 14 := by
    rw [hafter 14 (by omega), hkeep 14 (by omega) (by omega)]
  have hsame : l3Of t = l3Of bs := by
    refine l3Of_congr h14 ?_ (fun h => absurd hv h)
    intro _ i _ _ h h'
    rw [hafter i (by omega), hkeep i h h']
  refine ⟨fun _ => ?_, hsame ▸ hl4⟩
  rw [show ipHeadLen t = ipHeadLen bs by rw [ipHeadLen, h14, ipHeadLen],
    bytesAt_congr _ 14 (fun i _ hi => hafter i (by omega))]
  obtain ⟨hmod, hpos⟩ := @storeSum_cancels (ipHeadLen bs) bs 14 5 0 (by omega)
    (by omega) (by omega)
  rw [Nat.zero_add] at hmod hpos
  exact verifies_of_little _ hmod hpos

theorem ip6_verifies {bs t : Bytes} (hv : ipVersion bs = 6) (hr : Ip6Result .little bs .ok t)
    (hlen : bs.length ≤ 65535) (hin : CheckFieldInL4 bs) : Verifies t := by
  rcases hr with ⟨h, -⟩ | ⟨hfit, hr⟩
  · cases h
  have hne : ipVersion bs ≠ 4 := by omega
  have hn : l4Len6 .little bs = bigWord (byteAt bs 18) (byteAt bs 19) := be16toh_little _ _
  have hl3 : l3Of bs = ⟨54, l4Len6 .little bs, byteAt bs 20, bytesAt bs 22 32 ++ [0, 0] ++
      netWord (bigWord (byteAt bs 18) (byteAt bs 19)) ++ [0, 0, 0, byteAt bs 20]⟩ := by
    rw [l3Of, if_neg hne, hn]
  obtain ⟨hstart, hbound⟩ := pseudo6_little bs
  obtain ⟨hl4, hframe⟩ := l4_verifies (l3Of bs) (by rw [hl3]; exact hr) hin
    (by rw [hl3]; exact hfit) hlen (by rw [hl3]; simp [netWord]) (by rw [hl3]; exact hstart) hbound
  have hafter : ∀ i, i < 56 → byteAt t i = byteAt bs i := by
    intro i hi
    refine hframe i ?_
    rw [hl3]
    exact hi
  have h14 := hafter 14 (by omega)
  have hsame : l3Of t = l3Of bs :=
    l3Of_congr h14 (fun h => absurd h hne) (fun _ i _ hi => hafter i (by omega))
  refine ⟨fun h => ?_, hsame ▸ hl4⟩
  rw [ipVersion, h14] at h
  exact absurd h hne

/-- On a little-endian host a frame verifies after `CHK_OK`, whenever its l4
checksum field lies inside its l4 length. -/
theorem checksum_verifies {frame after : Bytes} (h : checksum .little frame = .ok (.ok, after))
    (hlen : frame.length ≤ 65535) (hin : CheckFieldInL4 frame) : Verifies after := by
  obtain ⟨-, hr⟩ := (checksum_needs .little frame).ok h
  rcases hr with ⟨hne, -⟩ | ⟨hv, hr⟩ | ⟨hv, hr⟩
  · exact absurd rfl hne
  · exact ip4_verifies hv hr hlen hin
  · exact ip6_verifies hv hr hlen hin

/-- A UDP datagram of one byte, checksums not yet filled in. -/
def oddUdp : Bytes :=
  [0, 0, 0, 0, 0, 0, 0, 0, 0, 0, 0, 0, 8, 0, 0x45, 0, 0, 29, 0, 0, 0, 0, 64, 17, 0, 0,
    10, 0, 0, 1, 10, 0, 0, 2, 0, 53, 0, 54, 0, 9, 0, 0, 0xab]

def oddUdpSent : Bytes :=
  [0, 0, 0, 0, 0, 0, 0, 0, 0, 0, 0, 0, 8, 0, 0x45, 0, 0, 29, 0, 0, 0, 0, 64, 17, 0x66, 0xce,
    10, 0, 0, 1, 10, 0, 0, 2, 0, 53, 0, 54, 0, 9, 0x40, 0x6e, 0xab]

theorem checksum_verifies_oddUdp : Verifies oddUdpSent := by
  have hf : checkField (l3Of oddUdp).proto = some 6 := by decide
  refine @checksum_verifies oddUdp oddUdpSent (by decide) (by decide) ?_
  intro o ho
  rw [hf] at ho
  cases ho
  decide

end Xdpacket
