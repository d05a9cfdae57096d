import Mathlib.Data.Int.ModEq
import Xdpacket.Proofs.Endianness

namespace Xdpacket

/-- `ones_sum` of a whole block. -/
def onesSumBlock (host : Endian) (block : Bytes) (sum : Nat) : Except Fault Nat :=
  Prod.fst <$> onesSum host 0 block.length sum block

/-- Calls of `ones_sum` on one block after another, each on the previous output. -/
def onesSumChain (host : Endian) : List Bytes → Nat → Except Fault Nat
  | [], sum => .ok sum
  | b :: bs, sum => onesSumBlock host b sum >>= onesSumChain host bs

/-- No addition in `ones_sum` of a block wraps. -/
structure AddsExactly (host : Endian) (block : Bytes) (sum : Nat) : Prop where
  words : ∀ n, n < block.length / 2 → ∃ acc word, sumWords host 0 n sum block = .ok (acc, block) ∧
    load16 host (2 * n) block = .ok (word, block) ∧ acc + word < 2 ^ 32
  tail : block.length % 2 = 1 → ∃ acc b,
    sumWords host 0 (block.length / 2) sum block = .ok (acc, block) ∧
      frameLoad (block.length - 1) block = .ok (b, block) ∧ acc + hostWord host b 0 < 2 ^ 32

/-- Nor does any in a chain of calls. -/
inductive ChainExact (host : Endian) : List Bytes → Nat → Prop where
  | nil (sum : Nat) : ChainExact host [] sum
  | cons {b : Bytes} {bs : List Bytes} {sum sum' : Nat} (here : AddsExactly host b sum)
      (call : onesSumBlock host b sum = .ok sum') (rest : ChainExact host bs sum') :
      ChainExact host (b :: bs) sum

/-- All blocks but the last are of even length. -/
def EvenBlocks (blocks : List Bytes) : Prop := ∀ b ∈ blocks.dropLast, b.length % 2 = 0

instance (blocks : List Bytes) : Decidable (EvenBlocks blocks) :=
  inferInstanceAs (Decidable (∀ b ∈ blocks.dropLast, b.length % 2 = 0))

/-- The exact sum of the words of a block. -/
def blockWords (host : Endian) (block : Bytes) : Nat := (wordsOf (hostWord host) block).sum

theorem bytesAt_self (bs : Bytes) : bytesAt bs 0 bs.length = bs := by
  apply List.ext_getElem?
  intro i
  by_cases hi : i < bs.length
  · simp [bytesAt, byteAt, hi]
  · simp [bytesAt, hi]

theorem hostSum_self (host : Endian) (bs : Bytes) :
    hostSum host bs 0 bs.length = blockWords host bs := by
  simp [hostSum, blockWords, bytesAt_self]

theorem blockWords_le (host : Endian) (block : Bytes) :
    blockWords host block ≤ 65535 * ((block.length + 1) / 2) :=
  sum_wordsOf_le (hostWord_lt host) block

theorem blockWords_append (host : Endian) {b : Bytes} (c : Bytes) (h : b.length % 2 = 0) :
    blockWords host (b ++ c) = blockWords host b + blockWords host c := by
  simp [blockWords, wordsOf_append h]

theorem EvenBlocks.tail {b : Bytes} {bs : List Bytes} (h : EvenBlocks (b :: bs)) :
    EvenBlocks bs := by
  intro c hc
  cases bs with
  | nil => cases hc
  | cons d ds => exact h c (by simp [hc])

theorem EvenBlocks.head {b c : Bytes} {bs : List Bytes} (h : EvenBlocks (b :: c :: bs)) :
    b.length % 2 = 0 :=
  h b (by simp)

section Block

variable (host : Endian) (block : Bytes) (sum : Nat)

theorem sumWords_run {n : Nat} (hn : 2 * n ≤ block.length) :
    sumWords host 0 n sum block = .ok (sumWordsOf host block 0 n sum, block) := by
  obtain ⟨v, t, hrun, rfl, rfl⟩ :=
    ((sumWords_needs host 0 n sum block).runs (.inr (by omega))).exists_ok
  exact hrun

theorem load16_run {i : Nat} (hi : i + 2 ≤ block.length) :
    load16 host i block = .ok (wordAt host block i, block) := by
  obtain ⟨v, t, hrun, rfl, rfl⟩ := ((load16_needs host i block).runs hi).exists_ok
  exact hrun

theorem frameLoad_run {i : Nat} (hi : i < block.length) :
    frameLoad i block = .ok (byteAt block i, block) := by
  obtain ⟨v, t, hrun, rfl, rfl⟩ := ((frameLoad_needs i block).runs hi).exists_ok
  exact hrun

theorem onesSumBlock_run :
    onesSumBlock host block sum = .ok (onesSumOf host block 0 block.length sum) := by
  obtain ⟨v, t, hrun, rfl, rfl⟩ :=
    ((onesSum_needs host 0 block.length sum block).runs (.inr (by omega))).exists_ok
  simp [onesSumBlock, hrun]

variable {sum} (h : sum + 65535 * ((block.length + 1) / 2) < 2 ^ 32)
include h

theorem onesSumBlock_eq : onesSumBlock host block sum = .ok (sum + blockWords host block) := by
  rw [onesSumBlock_run, onesSumOf_host host block 0 block.length sum h, hostSum_self]

/-- Every accumulator is bounded by the words added so far. -/
theorem addsExactly_of_lt : AddsExactly host block sum := by
  have hacc : ∀ n, n ≤ (block.length + 1) / 2 →
      sumWordsOf host block 0 n sum ≤ sum + 65535 * n := by
    intro n hn
    have hle := hostSum_le host block 0 (2 * n)
    rw [sumWordsOf_host host block 0 n sum (by omega)]
    omega
  constructor
  · intro n hn
    have hle := hacc n (by omega)
    have hw := wordAt_lt host block (2 * n)
    exact ⟨_, _, sumWords_run host block sum (by omega), load16_run host block (by omega), by omega⟩
  · intro hodd
    have hle := hacc (block.length / 2) (by omega)
    have hw := hostWord_lt host (byteAt block (block.length - 1)) 0
    exact ⟨_, _, sumWords_run host block sum (by omega), frameLoad_run block (by omega), by omega⟩

end Block

/-- From a start that leaves room for its words, a chain adds exactly, and
comes to the sum of the words of all blocks. -/
theorem onesSumChain_exact (host : Endian) {blocks : List Bytes} {sum : Nat}
    (he : EvenBlocks blocks) (h : sum + 65535 * ((blocks.flatten.length + 1) / 2) < 2 ^ 32) :
    ChainExact host blocks sum ∧
      onesSumChain host blocks sum = .ok (sum + blockWords host blocks.flatten) := by
  induction blocks generalizing sum with
  | nil => exact ⟨.nil sum, rfl⟩
  | cons b bs ih =>
    simp only [List.flatten_cons, List.length_append] at h ⊢
    have hb : sum + 65535 * ((b.length + 1) / 2) < 2 ^ 32 := by omega
    have hcall := onesSumBlock_eq host b hb
    have hle := blockWords_le host b
    have hsplit : blockWords host (b ++ bs.flatten) =
        blockWords host b + blockWords host bs.flatten ∧
        sum + blockWords host b + 65535 * ((bs.flatten.length + 1) / 2) < 2 ^ 32 := by
      cases bs with
      | nil =>
        simp only [List.flatten_nil, List.append_nil, List.length_nil]
        exact ⟨rfl, by omega⟩
      | cons c cs =>
        have heven := he.head
        exact ⟨blockWords_append host _ heven, by omega⟩
    obtain ⟨hrest, hchain⟩ := ih he.tail hsplit.2
    refine ⟨.cons (addsExactly_of_lt host b hb) hcall hrest, ?_⟩
    rw [onesSumChain, hcall, hsplit.1, ← Nat.add_assoc]
    exact hchain

/-- Zero leaves room for the words of a packet and a pseudo-header. -/
theorem sum_room {n : Nat} (h : n ≤ 65535 + 40) : 0 + 65535 * ((n + 1) / 2) < 2 ^ 32 := by
  omega

/-- Two folds leave no carry. -/
theorem foldCarry_twice_eq {s : Nat} (h : s < 2 ^ 32) : foldCarry (foldCarry s) = endAround s := by
  have hle := foldCarry_twice_le h
  rw [← endAround_carry s, ← endAround_carry]
  exact (endAround_of_lt (by omega)).symm

theorem onesFinal_eq {s : Nat} (h : s < 2 ^ 32) : onesFinal s = 65535 - endAround s := by
  rw [onesFinal, foldCarry_twice_eq h, Nat.mod_eq_of_lt (endAround_lt s)]

theorem onesFinal_neg {s : Nat} (h : s < 2 ^ 32) : (onesFinal s : ℤ) ≡ -s [ZMOD 65535] := by
  have hc := (onesFinal_cancels h).1
  unfold Nat.ModEq at hc
  unfold Int.ModEq
  omega

/-- The checksum of a chain is the complement of the ones-complement sum of all its words. -/
theorem onesFinal_chain (host : Endian) {blocks : List Bytes} {sum : Nat} (he : EvenBlocks blocks)
    (hlen : blocks.flatten.length ≤ 65535 + 40) (h : onesSumChain host blocks 0 = .ok sum) :
    onesFinal sum = 65535 - (wordsOf (hostWord host) blocks.flatten).foldl onesAdd 0 := by
  obtain ⟨-, hchain⟩ := onesSumChain_exact host he (sum_room hlen)
  have hle := blockWords_le host blocks.flatten
  obtain rfl : 0 + blockWords host blocks.flatten = sum := by simpa [hchain] using h
  rw [onesFinal_eq (by omega), foldl_onesAdd_eq (wordsOf_lt (hostWord_lt host) _), Nat.zero_add]
  rfl

/-- The 32-bit accumulator holds the words of any blocks that one packet and a
pseudo-header have, however they are cut, and comes to the checksum of their words; two folds
complement any such sum. -/
theorem onesSum_incremental (host : Endian) :
    (∀ blocks : List Bytes, EvenBlocks blocks → blocks.flatten.length ≤ 65535 + 40 →
      ChainExact host blocks 0 ∧ ∃ sum, sum < 2 ^ 32 ∧ onesSumChain host blocks 0 = .ok sum ∧
        onesSumBlock host blocks.flatten 0 = .ok sum ∧
          onesFinal sum = 65535 - (wordsOf (hostWord host) blocks.flatten).foldl onesAdd 0) ∧
    ∀ s, s < 2 ^ 32 → foldCarry (foldCarry s) < 65536 ∧ onesFinal s = 65535 - endAround s ∧
      (onesFinal s : ℤ) ≡ -s [ZMOD 65535] ∧ (onesFinal s = 65535 ↔ s = 0) := by
  constructor
  · intro blocks he hlen
    have hroom := sum_room hlen
    have hle := blockWords_le host blocks.flatten
    obtain ⟨hexact, hchain⟩ := onesSumChain_exact host he hroom
    exact ⟨hexact, _, by omega, hchain, onesSumBlock_eq host _ hroom,
      onesFinal_chain host he hlen hchain⟩
  · intro s hs
    have hle := foldCarry_twice_le hs
    exact ⟨by omega, onesFinal_eq hs, onesFinal_neg hs, onesFinal_eq_ones hs⟩

/-- The words 1 and 2, and a padded 3. -/
theorem onesSum_incremental_abc :
    (ChainExact .big [[0, 1], [0, 2, 3]] 0 ∧
      ∃ sum, sum < 2 ^ 32 ∧ onesSumChain .big [[0, 1], [0, 2, 3]] 0 = .ok sum ∧
        onesSumBlock .big [0, 1, 0, 2, 3] 0 = .ok sum ∧
          onesFinal sum = 65535 - (wordsOf (hostWord .big) [0, 1, 0, 2, 3]).foldl onesAdd 0) ∧
    foldCarry (foldCarry 131071) < 65536 ∧ onesFinal 131071 = 65535 - endAround 131071 ∧
      (onesFinal 131071 : ℤ) ≡ -(131071 : Nat) [ZMOD 65535] ∧
      (onesFinal 131071 = 65535 ↔ 131071 = 0) :=
  ⟨(onesSum_incremental .big).1 [[0, 1], [0, 2, 3]] (by decide) (by decide),
    (onesSum_incremental .big).2 131071 (by decide)⟩

end Xdpacket
