import Xdpacket.Proofs.Access
import Xdpacket.Model.Checksum

namespace Xdpacket

def byteAt (bs : Bytes) (i : Nat) : UInt8 := bs.getD i 0

def wordAt (host : Endian) (bs : Bytes) (i : Nat) : Nat :=
  hostWord host (byteAt bs i) (byteAt bs (i + 1))

/-- The frame after `store16`. -/
def putWord (host : Endian) (bs : Bytes) (i v : Nat) : Bytes :=
  match host with
  | .little => (bs.set i (UInt8.ofNat (v % 256))).set (i + 1) (UInt8.ofNat (v / 256))
  | .big => (bs.set i (UInt8.ofNat (v / 256))).set (i + 1) (UInt8.ofNat (v % 256))

@[simp] theorem length_putWord (host : Endian) (bs : Bytes) (i v : Nat) :
    (putWord host bs i v).length = bs.length := by
  cases host <;> simp [putWord]

theorem byteAt_set (bs : Bytes) (i j : Nat) (v : UInt8) :
    byteAt (bs.set i v) j = if i = j ∧ i < bs.length then v else byteAt bs j := by
  unfold byteAt
  simp only [List.getD_eq_getElem?_getD, List.getElem?_set]
  by_cases hij : i = j
  · subst hij
    by_cases hi : i < bs.length
    · simp [hi]
    · simp [hi]
  · simp [hij]

/-- A word store changes its own two bytes only. -/
theorem byteAt_putWord_ne {host : Endian} {bs : Bytes} {i v j : Nat} (h : j ≠ i) (h' : j ≠ i + 1) :
    byteAt (putWord host bs i v) j = byteAt bs j := by
  cases host <;> simp [putWord, byteAt_set, Ne.symm h, Ne.symm h']

theorem wordAt_putWord (host : Endian) {bs : Bytes} {v : Nat} (i : Nat) (hi : i + 2 ≤ bs.length)
    (hv : v < 65536) : wordAt host (putWord host bs i v) i = v := by
  have h0 : i < bs.length := by omega
  have h1 : i + 1 < bs.length := by omega
  have hlo : (UInt8.ofNat (v % 256)).toNat = v % 256 := by
    simp [UInt8.toNat_ofNat']
  have hhi : (UInt8.ofNat (v / 256)).toNat = v / 256 := by
    simp only [UInt8.toNat_ofNat']
    omega
  cases host with
  | little =>
    simp only [wordAt, hostWord, putWord, byteAt_set, List.length_set, h0, h1, and_true, if_true,
      if_false, hlo, hhi, show ¬(i + 1 = i) by omega]
    omega
  | big =>
    simp only [wordAt, hostWord, putWord, byteAt_set, List.length_set, h0, h1, and_true, if_true,
      if_false, hlo, hhi, show ¬(i + 1 = i) by omega]
    omega

theorem putWord_putWord (host : Endian) (bs : Bytes) (i u v : Nat) :
    putWord host (putWord host bs i u) i v = putWord host bs i v := by
  cases host <;>
    simp only [putWord] <;>
    rw [List.set_comm _ _ (show i + 1 ≠ i by omega), List.set_set, List.set_set]

/-- What the loop of `ones_sum` computes over words inside the frame. -/
def sumWordsOf (host : Endian) (bs : Bytes) (off : Nat) : Nat → Nat → Nat
  | 0, sum => sum
  | n + 1, sum => addWord (sumWordsOf host bs off n sum) (wordAt host bs (off + 2 * n))

def onesSumOf (host : Endian) (bs : Bytes) (off n sum : Nat) : Nat :=
  if n % 2 = 1 then
    addWord (sumWordsOf host bs off (n / 2) sum) (hostWord host (byteAt bs (off + n - 1)) 0)
  else sumWordsOf host bs off (n / 2) sum

theorem frameLoad_needs (i : Nat) (bs : Bytes) :
    Needs Fault.IsOutOfBounds (i < bs.length) (frameLoad i) bs
      (fun b t => t = bs ∧ b = byteAt bs i) := by
  unfold Needs Runs frameLoad
  by_cases hi : i < bs.length
  · simp [byteAt, hi]
  · simp [Fault.IsOutOfBounds, hi]

theorem frameStore_needs (i : Nat) (v : UInt8) (bs : Bytes) :
    Needs Fault.IsOutOfBounds (i < bs.length) (frameStore i v) bs (fun _ t => t = bs.set i v) := by
  unfold Needs Runs frameStore
  by_cases hi : i < bs.length
  · simp [hi]
  · simp [hi, Fault.IsOutOfBounds]

theorem load16_needs (host : Endian) (i : Nat) (bs : Bytes) :
    Needs Fault.IsOutOfBounds (i + 2 ≤ bs.length) (load16 host i) bs
      (fun v t => t = bs ∧ v = wordAt host bs i) := by
  unfold load16
  refine (frameLoad_needs i bs).bind (B := i + 1 < bs.length) ?_ (by omega)
  rintro a _ _ ⟨rfl, rfl⟩
  refine (frameLoad_needs (i + 1) _).bind_pure ?_
  rintro b _ _ ⟨rfl, rfl⟩
  exact ⟨rfl, rfl⟩

theorem store16_needs (host : Endian) (i v : Nat) (bs : Bytes) :
    Needs Fault.IsOutOfBounds (i + 2 ≤ bs.length) (store16 host i v) bs
      (fun _ t => t = putWord host bs i v) := by
  unfold store16
  cases host with
  | little =>
    refine (frameStore_needs i _ bs).bind (B := i + 1 < bs.length) ?_ (by omega)
    rintro _ _ _ rfl
    exact (frameStore_needs (i + 1) _ _).congr (by simp)
  | big =>
    refine (frameStore_needs i _ bs).bind (B := i + 1 < bs.length) ?_ (by omega)
    rintro _ _ _ rfl
    exact (frameStore_needs (i + 1) _ _).congr (by simp)

theorem sumWords_needs (host : Endian) (off n sum : Nat) (bs : Bytes) :
    Needs Fault.IsOutOfBounds (n = 0 ∨ off + 2 * n ≤ bs.length) (sumWords host off n sum) bs
      (fun v t => t = bs ∧ v = sumWordsOf host bs off n sum) := by
  induction n with
  | zero => exact Needs.pure (by simp) ⟨rfl, rfl⟩
  | succ n ih =>
    unfold sumWords
    refine ih.bind (B := off + 2 * n + 2 ≤ bs.length) ?_ (by omega)
    rintro _ _ _ ⟨rfl, rfl⟩
    refine (load16_needs host (off + 2 * n) _).bind_pure ?_
    rintro _ _ _ ⟨rfl, rfl⟩
    exact ⟨rfl, rfl⟩

/-- `ones_sum` needs its whole range, unless that is empty. -/
theorem onesSum_needs (host : Endian) (off n sum : Nat) (bs : Bytes) :
    Needs Fault.IsOutOfBounds (n = 0 ∨ off + n ≤ bs.length) (onesSum host off n sum) bs
      (fun v t => t = bs ∧ v = onesSumOf host bs off n sum) := by
  unfold onesSum
  by_cases hodd : n % 2 = 1
  · simp only [if_pos hodd]
    refine (sumWords_needs host off (n / 2) sum bs).bind (B := off + n - 1 < bs.length) ?_
      (by omega)
    rintro _ _ _ ⟨rfl, rfl⟩
    refine (frameLoad_needs (off + n - 1) _).bind_pure ?_
    rintro _ _ _ ⟨rfl, rfl⟩
    exact ⟨rfl, by simp [onesSumOf, hodd]⟩
  · simp only [if_neg hodd]
    refine ((sumWords_needs host off (n / 2) sum bs).bind_pure ?_).congr (by omega)
    rintro _ _ _ ⟨rfl, rfl⟩
    exact ⟨rfl, by simp [onesSumOf, hodd]⟩

theorem storeSum_needs (host : Endian) (check l4 n sum : Nat) (bs : Bytes) :
    Needs Fault.IsOutOfBounds (check + 2 ≤ bs.length ∧ (n = 0 ∨ l4 + n ≤ bs.length))
      (storeSum host check l4 n sum) bs
      (fun _ t => t = putWord host bs check
        (onesFinal (onesSumOf host (putWord host bs check 0) l4 n sum))) := by
  unfold storeSum
  refine (store16_needs host check 0 bs).bind (B := n = 0 ∨ l4 + n ≤ bs.length) ?_ Iff.rfl
  rintro _ _ hc rfl
  refine (onesSum_needs host l4 n sum _).bind (B := True) ?_ (by simp)
  rintro _ _ _ ⟨rfl, rfl⟩
  exact ((store16_needs host check _ _).congr (by simpa using hc)).imp
    (fun _ _ _ ht => by rw [ht, putWord_putWord])

theorem hostWord_lt (host : Endian) (a b : UInt8) : hostWord host a b < 65536 := by
  have := a.toNat_lt
  have := b.toNat_lt
  cases host <;> simp only [hostWord] <;> omega

theorem wordAt_lt (host : Endian) (bs : Bytes) (i : Nat) : wordAt host bs i < 65536 :=
  hostWord_lt host _ _

theorem onesFinal_lt (sum : Nat) : onesFinal sum < 65536 := by
  unfold onesFinal
  omega

/-- Where an l4 header keeps its checksum. -/
def checkField (proto : UInt8) : Option Nat :=
  if proto = IPPROTO_TCP then some 16
  else if proto = IPPROTO_UDP then some 6
  else if proto = IPPROTO_ICMP then some 2
  else if proto = IPPROTO_ICMPV6 then some 2
  else none

/-- The sum that starts an l4 checksum: ICMP has no pseudo-header. -/
def l4Start (proto : UInt8) (l4Sum : Nat) : Nat := if proto = IPPROTO_ICMP then 0 else l4Sum

/-- A zero UDP checksum is sent as all ones. -/
def udpZero (proto : UInt8) (v : Nat) : Nat := if proto = IPPROTO_UDP ∧ v = 0 then 0xffff else v

/-- What the l4 part answers, and the frame it leaves. -/
def L4Result (host : Endian) (proto : UInt8) (l4 n l4Sum : Nat) (bs : Bytes) (code : ChecksumErr)
    (t : Bytes) : Prop :=
  match checkField proto with
  | none => code = .unsupported ∧ t = bs
  | some o => code = .ok ∧ t = putWord host bs (l4 + o) (udpZero proto
      (onesFinal (onesSumOf host (putWord host bs (l4 + o) 0) l4 n (l4Start proto l4Sum))))

/-- The same as a function. -/
def checksumL4Of (host : Endian) (proto : UInt8) (l4 n l4Sum : Nat) (bs : Bytes) :
    ChecksumErr × Bytes :=
  match checkField proto with
  | none => (.unsupported, bs)
  | some o => (.ok, putWord host bs (l4 + o) (udpZero proto
      (onesFinal (onesSumOf host (putWord host bs (l4 + o) 0) l4 n (l4Start proto l4Sum)))))

theorem L4Result.iff {host : Endian} {proto : UInt8} {l4 n l4Sum : Nat} {bs t : Bytes}
    {code : ChecksumErr} :
    L4Result host proto l4 n l4Sum bs code t ↔ (code, t) = checksumL4Of host proto l4 n l4Sum bs := by
  unfold L4Result checksumL4Of
  cases checkField proto with
  | none => simp
  | some o => simp

/-- The checksum field, if the protocol has one, ends inside the frame. -/
def CheckFieldInside (proto : UInt8) (l4 len : Nat) : Prop :=
  ∀ o, checkField proto = some o → l4 + o + 2 ≤ len

theorem checksumL4_needs (host : Endian) (proto : UInt8) (l4 n l4Sum : Nat) (bs : Bytes)
    (hn : n = 0 ∨ l4 + n ≤ bs.length) :
    Needs Fault.IsOutOfBounds (CheckFieldInside proto l4 bs.length)
      (checksumL4 host proto l4 n l4Sum) bs (L4Result host proto l4 n l4Sum bs) := by
  have hp : ∀ o, l4 + o + 2 ≤ bs.length ∧ (n = 0 ∨ l4 + n ≤ bs.length) ↔
      ∀ o', some o = some o' → l4 + o' + 2 ≤ bs.length := by
    intro o
    simp only [Option.some.injEq, forall_eq', hn, and_true]
  unfold checksumL4 CheckFieldInside
  by_cases ht : proto = IPPROTO_TCP
  · subst ht
    have hf : checkField IPPROTO_TCP = some 16 := rfl
    rw [hf, if_pos rfl]
    refine ((storeSum_needs host (l4 + 16) l4 n l4Sum bs).bind_pure ?_).congr (hp 16)
    rintro _ _ _ rfl
    exact ⟨rfl, rfl⟩
  rw [if_neg ht]
  by_cases hu : proto = IPPROTO_UDP
  · subst hu
    have hf : checkField IPPROTO_UDP = some 6 := rfl
    rw [hf, if_pos rfl]
    refine (storeSum_needs host (l4 + 6) l4 n l4Sum bs).bind (B := True) ?_
      ((and_iff_left trivial).trans (hp 6))
    rintro _ _ ⟨hc, _⟩ rfl
    refine (load16_needs host (l4 + 6) _).bind_met (by simpa using hc) ?_
    rintro _ _ ⟨rfl, rfl⟩
    rw [wordAt_putWord host _ hc (onesFinal_lt _)]
    split
    · rename_i hz
      refine ((store16_needs host (l4 + 6) 0xffff _).bind_pure ?_).congr (by simpa using hc)
      rintro _ _ _ rfl
      refine ⟨rfl, ?_⟩
      rw [putWord_putWord]
      simp [udpZero, l4Start, IPPROTO_UDP, IPPROTO_ICMP, hz]
    · rename_i hz
      refine Needs.pure trivial ⟨rfl, ?_⟩
      simp [udpZero, l4Start, IPPROTO_UDP, IPPROTO_ICMP, hz]
  rw [if_neg hu]
  by_cases hi : proto = IPPROTO_ICMP
  · subst hi
    have hf : checkField IPPROTO_ICMP = some 2 := rfl
    rw [hf, if_pos rfl]
    refine ((storeSum_needs host (l4 + 2) l4 n 0 bs).bind_pure ?_).congr (hp 2)
    rintro _ _ _ rfl
    exact ⟨rfl, rfl⟩
  rw [if_neg hi]
  by_cases h6 : proto = IPPROTO_ICMPV6
  · subst h6
    have hf : checkField IPPROTO_ICMPV6 = some 2 := rfl
    rw [hf, if_pos rfl]
    refine ((storeSum_needs host (l4 + 2) l4 n l4Sum bs).bind_pure ?_).congr (hp 2)
    rintro _ _ _ rfl
    exact ⟨rfl, rfl⟩
  rw [if_neg h6]
  have hf : checkField proto = none := by simp [checkField, ht, hu, hi, h6]
  refine Needs.pure (by simp [hf]) ?_
  simp [L4Result, hf]

theorem sizeSub_of_le {a b : Nat} (h : b ≤ a) (ha : a < 2 ^ 64) : sizeSub a b = a - b := by
  unfold sizeSub
  omega

/-- A `size_t` difference below zero is larger than any 16-bit length. -/
theorem sizeSub_wraps {a b : Nat} (h : a < b) (hb : b ≤ 60) : 65535 < sizeSub a b := by
  unfold sizeSub
  omega

/-- The l4 length that an IPv4 header claims, as the `uint16_t` the code keeps. -/
def l4Len4 (host : Endian) (bs : Bytes) (headLen : Nat) : Nat :=
  (be16toh host (wordAt host bs 16) + 65536 - headLen) % 65536

def headSum4 (host : Endian) (bs : Bytes) (headLen : Nat) : Bytes :=
  putWord host bs 24 (onesFinal (onesSumOf host (putWord host bs 24 0) 14 headLen 0))

def pseudo4 (host : Endian) (bs : Bytes) (l4Len : Nat) : Nat :=
  addWord (addWord (onesSumOf host bs 30 4 (onesSumOf host bs 26 4 0))
    ((byteAt bs 23).toNat * 256)) (be16toh host l4Len)

/-- The IPv4 branch stays inside the frame: it gives up before it follows the
header length, or the header ends inside the frame and either the length check
refuses or the l4 checksum field ends inside the frame as well. -/
def Ip4Inside (host : Endian) (bs : Bytes) (headLen : Nat) : Prop :=
  headLen < 20 ∨ 60 < headLen ∨
    14 + headLen ≤ bs.length ∧ (bs.length - 14 - headLen < l4Len4 host bs headLen ∨
      CheckFieldInside (byteAt bs 23) (14 + headLen) bs.length)

/-- What the IPv4 branch answers, and the frame it leaves. -/
def Ip4Result (host : Endian) (bs : Bytes) (headLen : Nat) (code : ChecksumErr) (t : Bytes) :
    Prop :=
  code = .malformed ∧ t = bs ∨
    20 ≤ headLen ∧ headLen ≤ 60 ∧ 14 + headLen + l4Len4 host bs headLen ≤ bs.length ∧
      L4Result host (byteAt bs 23) (14 + headLen) (l4Len4 host bs headLen)
        (pseudo4 host (headSum4 host bs headLen) (l4Len4 host bs headLen))
        (headSum4 host bs headLen) code t

/-- The branch as a function, while it stays inside the frame. -/
def checksumIp4Of (host : Endian) (bs : Bytes) (headLen : Nat) : ChecksumErr × Bytes :=
  if headLen < 20 ∨ 60 < headLen ∨ bs.length - 14 - headLen < l4Len4 host bs headLen then
    (.malformed, bs)
  else
    checksumL4Of host (byteAt bs 23) (14 + headLen) (l4Len4 host bs headLen)
      (pseudo4 host (headSum4 host bs headLen) (l4Len4 host bs headLen)) (headSum4 host bs headLen)

theorem checksumIp4_computes (host : Endian) (bs : Bytes) (ihl : Nat) (hl : 34 < bs.length)
    (hu : bs.length ≤ 65535) :
    Needs Fault.IsOutOfBounds (Ip4Inside host bs (ihl * 4)) (checksumIp4 host bs.length ihl) bs
      (fun code t => (code, t) = checksumIp4Of host bs (ihl * 4)) := by
  unfold checksumIp4 Ip4Inside checksumIp4Of
  generalize ihl * 4 = headLen
  simp only
  by_cases hb : headLen < 20 ∨ 60 < headLen
  · rw [if_pos hb]
    exact Needs.pure (by omega) (by rw [if_pos (by omega)])
  rw [if_neg hb]
  refine (load16_needs host 16 bs).bind_met (by omega) ?_
  rintro word t ⟨ht, hw⟩
  have hdef : (be16toh host (wordAt host bs 16) + 65536 - headLen) % 65536 =
      l4Len4 host bs headLen := rfl
  have hlen : l4Len4 host bs headLen < 65536 := Nat.mod_lt _ (by omega)
  rw [ht, hw, hdef, sizeSub_of_le (show 14 ≤ bs.length by omega) (by omega)]
  by_cases hfit : 14 + headLen ≤ bs.length
  · rw [sizeSub_of_le (by omega) (by omega)]
    split
    · rename_i hg
      exact Needs.pure (.inr (.inr ⟨hfit, .inl hg⟩)) (by rw [if_pos (by omega)])
    · rename_i hg
      refine (storeSum_needs host 24 14 headLen 0 bs).bind_met (by omega) ?_
      rintro _ _ rfl
      refine (onesSum_needs host 26 4 0 _).bind_met (by rw [length_putWord]; omega) ?_
      rintro _ _ ⟨rfl, rfl⟩
      refine (onesSum_needs host 30 4 _ _).bind_met (by rw [length_putWord]; omega) ?_
      rintro _ _ ⟨rfl, rfl⟩
      refine (frameLoad_needs 23 _).bind_met (by rw [length_putWord]; omega) ?_
      rintro _ _ ⟨rfl, rfl⟩
      rw [byteAt_putWord_ne (by omega) (by omega)]
      have hn : l4Len4 host bs headLen = 0 ∨ 14 + headLen + l4Len4 host bs headLen ≤
          (headSum4 host bs headLen).length := by
        rw [headSum4, length_putWord]
        omega
      refine ((checksumL4_needs host (byteAt bs 23) (14 + headLen) _ _ _ hn).congr ?_).imp ?_
      · rw [headSum4, length_putWord]
        simp only [not_or] at hb
        simp [hb, hfit, hg]
      · intro code t _ hr
        have hproto : byteAt (headSum4 host bs headLen) 23 = byteAt bs 23 :=
          byteAt_putWord_ne (by omega) (by omega)
        rw [if_neg (by omega), pseudo4, hproto]
        exact L4Result.iff.mp hr
  · have hwrap := sizeSub_wraps (a := bs.length - 14) (b := headLen) (by omega) (by omega)
    rw [if_neg (by omega)]
    refine (storeSum_needs host 24 14 headLen 0 bs).bind (B := False) ?_ ?_
    · intro _ _ hneed
      omega
    · simp only [not_or] at hb
      simp [hb, hfit]

theorem checksumIp4Of_result {host : Endian} {bs t : Bytes} {headLen : Nat} {code : ChecksumErr}
    (hin : Ip4Inside host bs headLen) (he : (code, t) = checksumIp4Of host bs headLen) :
    Ip4Result host bs headLen code t := by
  unfold checksumIp4Of at he
  split at he
  · exact .inl (by simpa using he)
  · rename_i hg
    unfold Ip4Inside at hin
    exact .inr ⟨by omega, by omega, by omega, L4Result.iff.mpr he⟩

/-- The l4 length that an IPv6 header claims. -/
def l4Len6 (host : Endian) (bs : Bytes) : Nat := be16toh host (wordAt host bs 18)

def pseudo6 (host : Endian) (bs : Bytes) : Nat :=
  addWord (onesSumOf host bs 18 2 (onesSumOf host bs 38 16 (onesSumOf host bs 22 16 0)))
    ((byteAt bs 20).toNat * 256)

def Ip6Inside (host : Endian) (bs : Bytes) : Prop :=
  54 ≤ bs.length ∧ (bs.length - 54 < l4Len6 host bs ∨ CheckFieldInside (byteAt bs 20) 54 bs.length)

def Ip6Result (host : Endian) (bs : Bytes) (code : ChecksumErr) (t : Bytes) : Prop :=
  code = .unsupported ∧ t = bs ∨
    54 + l4Len6 host bs ≤ bs.length ∧
      L4Result host (byteAt bs 20) 54 (l4Len6 host bs) (pseudo6 host bs) bs code t

theorem be16toh_lt (host : Endian) {v : Nat} (h : v < 65536) : be16toh host v < 65536 := by
  cases host <;> simp only [be16toh] <;> omega

/-- The branch as a function, while it stays inside the frame. -/
def checksumIp6Of (host : Endian) (bs : Bytes) : ChecksumErr × Bytes :=
  if bs.length - 54 < l4Len6 host bs then (.unsupported, bs)
  else checksumL4Of host (byteAt bs 20) 54 (l4Len6 host bs) (pseudo6 host bs) bs

theorem checksumIp6_computes (host : Endian) (bs : Bytes) (hl : 34 < bs.length)
    (hu : bs.length ≤ 65535) :
    Needs Fault.IsOutOfBounds (Ip6Inside host bs) (checksumIp6 host bs.length) bs
      (fun code t => (code, t) = checksumIp6Of host bs) := by
  unfold checksumIp6 Ip6Inside checksumIp6Of
  simp only
  refine (load16_needs host 18 bs).bind_met (by omega) ?_
  rintro word t ⟨ht, hw⟩
  have hdef : be16toh host (wordAt host bs 18) = l4Len6 host bs := rfl
  have hlen : l4Len6 host bs < 65536 := be16toh_lt host (wordAt_lt host bs 18)
  rw [ht, hw, hdef, sizeSub_of_le (show 14 ≤ bs.length by omega) (by omega)]
  by_cases hfit : 54 ≤ bs.length
  · rw [sizeSub_of_le (by omega) (by omega)]
    split
    · exact Needs.pure ⟨hfit, .inl (by omega)⟩ (by rw [if_pos (by omega)])
    · refine (onesSum_needs host 22 16 0 bs).bind_met (by omega) ?_
      rintro _ _ ⟨rfl, rfl⟩
      refine (onesSum_needs host 38 16 _ _).bind_met (by omega) ?_
      rintro _ _ ⟨rfl, rfl⟩
      refine (onesSum_needs host 18 2 _ _).bind_met (by omega) ?_
      rintro _ _ ⟨rfl, rfl⟩
      refine (frameLoad_needs 20 _).bind_met (by omega) ?_
      rintro _ s ⟨rfl, rfl⟩
      refine ((checksumL4_needs host (byteAt s 20) 54 _ _ _ (by omega)).congr ?_).imp ?_
      · have hg : ¬ s.length - 54 < l4Len6 host s := by omega
        simp [hfit, hg]
      · intro code t _ hr
        rw [if_neg (by omega)]
        exact L4Result.iff.mp hr
  · have hwrap := sizeSub_wraps (a := bs.length - 14) (b := 40) (by omega) (by omega)
    rw [if_neg (by omega)]
    refine (onesSum_needs host 22 16 0 bs).bind (B := False) ?_ (by simp [hfit])
    rintro _ _ _ ⟨rfl, rfl⟩
    refine (onesSum_needs host 38 16 _ _).bind (B := False) ?_ (by simp)
    intro _ _ hneed
    omega

theorem checksumIp6Of_result {host : Endian} {bs t : Bytes} {code : ChecksumErr}
    (hin : Ip6Inside host bs) (he : (code, t) = checksumIp6Of host bs) :
    Ip6Result host bs code t := by
  unfold checksumIp6Of at he
  split at he
  · exact .inl (by simpa using he)
  · have := hin.1
    exact .inr ⟨by omega, L4Result.iff.mpr he⟩

def etherType (host : Endian) (bs : Bytes) : Nat := be16toh host (wordAt host bs 12)

def ipVersion (bs : Bytes) : Nat := (byteAt bs 14).toNat / 16

def ipHeadLen (bs : Bytes) : Nat := (byteAt bs 14).toNat % 16 * 4

/-- The frames on which `checksum` stays inside. -/
def ChecksumInside (host : Endian) (bs : Bytes) : Prop :=
  34 < bs.length ∧ bs.length ≤ 65535 ∧ etherType host bs = ETH_P_IP →
    (ipVersion bs = 4 → Ip4Inside host bs (ipHeadLen bs)) ∧
    (ipVersion bs = 6 → Ip6Inside host bs)

/-- What `checksum` answers, and the frame it leaves. -/
def ChecksumResult (host : Endian) (bs : Bytes) (code : ChecksumErr) (t : Bytes) : Prop :=
  code ≠ .ok ∧ t = bs ∨
    ipVersion bs = 4 ∧ Ip4Result host bs (ipHeadLen bs) code t ∨
    ipVersion bs = 6 ∧ Ip6Result host bs code t

/-- `checksum` as a function of the frame, while it stays inside. -/
def checksumOf (host : Endian) (bs : Bytes) : ChecksumErr × Bytes :=
  if bs.length ≤ 34 ∨ 65535 < bs.length then (.inval, bs)
  else if etherType host bs ≠ ETH_P_IP then (.unsupported, bs)
  else if ipVersion bs = 4 then checksumIp4Of host bs (ipHeadLen bs)
  else if ipVersion bs = 6 then checksumIp6Of host bs
  else (.malformed, bs)

theorem checksum_computes (host : Endian) (bs : Bytes) :
    Needs Fault.IsOutOfBounds (ChecksumInside host bs) (checksum host) bs
      (fun code t => (code, t) = checksumOf host bs) := by
  unfold checksum ChecksumInside
  rw [Needs.get_bind]
  simp only
  by_cases hl : bs.length ≤ 34 ∨ 65535 < bs.length
  · rw [if_pos hl]
    exact Needs.pure (by omega) (by rw [checksumOf, if_pos hl])
  rw [if_neg hl]
  refine (load16_needs host 12 bs).bind_met (by omega) ?_
  rintro _ _ ⟨rfl, rfl⟩
  rename_i bs
  by_cases he : etherType host bs = ETH_P_IP
  · have he' : be16toh host (wordAt host bs 12) = ETH_P_IP := he
    rw [if_neg (by simp [he'])]
    refine (frameLoad_needs 14 bs).bind_met (by omega) ?_
    rintro _ s ⟨rfl, rfl⟩
    have hlen : 34 < s.length ∧ s.length ≤ 65535 := by omega
    rw [show (byteAt s 14).toNat / 16 = ipVersion s from rfl, checksumOf, if_neg hl,
      if_neg (not_not.mpr he)]
    by_cases h4 : ipVersion s = 4
    · rw [if_pos h4, if_pos h4]
      refine (checksumIp4_computes host s _ hlen.1 hlen.2).congr ?_
      simp [hlen, he, h4, ipHeadLen]
    rw [if_neg h4, if_neg h4]
    by_cases h6 : ipVersion s = 6
    · rw [if_pos h6, if_pos h6]
      refine (checksumIp6_computes host s hlen.1 hlen.2).congr ?_
      simp [hlen, he, h6]
    rw [if_neg h6, if_neg h6]
    exact Needs.pure (by simp [h4, h6]) rfl
  · have he' : be16toh host (wordAt host bs 12) ≠ ETH_P_IP := he
    rw [if_pos he']
    exact Needs.pure (by simp [he]) (by rw [checksumOf, if_neg hl, if_pos he])

theorem checksum_needs (host : Endian) (bs : Bytes) :
    Needs Fault.IsOutOfBounds (ChecksumInside host bs) (checksum host) bs
      (ChecksumResult host bs) := by
  refine (checksum_computes host bs).imp ?_
  intro code t hin heq
  unfold checksumOf at heq
  split at heq
  · exact .inl (by simp [(Prod.mk.inj heq).1, (Prod.mk.inj heq).2])
  · split at heq
    · exact .inl (by simp [(Prod.mk.inj heq).1, (Prod.mk.inj heq).2])
    · rename_i hl he
      have hin := hin ⟨by omega, by omega, not_not.mp he⟩
      split at heq
      · rename_i h4
        exact .inr (.inl ⟨h4, checksumIp4Of_result (hin.1 h4) heq⟩)
      · split at heq
        · rename_i h6
          exact .inr (.inr ⟨h6, checksumIp6Of_result (hin.2 h6) heq⟩)
        · exact .inl (by simp [(Prod.mk.inj heq).1, (Prod.mk.inj heq).2])

/-- `checksum` touches only bytes of the frame exactly on these frames. -/
theorem checksum_inside_iff (host : Endian) (frame : Bytes) :
    Runs (fun e => ¬ e.IsOutOfBounds) (checksum host) frame (fun _ _ => True) ↔
      ChecksumInside host frame :=
  (checksum_needs host frame).not_bad_iff

/-- A TCP segment of one byte, in the shortest frame that is looked at. -/
def oneByteTcp : Bytes :=
  [0, 0, 0, 0, 0, 0, 0, 0, 0, 0, 0, 0, 8, 0, 0x45, 0, 0, 21, 0, 0, 0, 0, 64, 6, 0, 0,
    10, 0, 0, 1, 10, 0, 0, 2, 0]

/-- Its checksum field would start 15 bytes past the end of the frame. -/
theorem checksum_leaves_frame :
    ¬ ∀ (host : Endian) (frame : Bytes),
      Runs (fun e => ¬ e.IsOutOfBounds) (checksum host) frame (fun _ _ => True) := by
  intro h
  have hrun : checksum .little oneByteTcp = .error (.outOfBounds .pkt 50) := by decide
  exact (h .little oneByteTcp).fault hrun trivial

end Xdpacket
