import Mathlib.Data.List.Count
import Xdpacket.Proofs.Framing

namespace Xdpacket

/-- The reads of an input that its sender closes after `chunks`. -/
def closedReads (chunks : List Bytes) : Input := ⟨chunks.map .bytes ++ [.bytes []], []⟩

/-- Closure hands nothing over. -/
theorem parseRun_closed {p : Parse} (h : p.Sound) : parseRun p ⟨[.bytes []], []⟩ = [] := by
  have hroom : ∀ p : Parse, p.Sound → p.data.length + PIPE_BUF ≤ PARSE_BUF_MAX →
      parseRun p ⟨[.bytes []], []⟩ = [] := by
    intro p h hroom
    obtain ⟨p', hcb⟩ := callback_closed [] h hroom
    rw [parseRun_cons, hcb]
    simp
  by_cases hfull : PARSE_BUF_MAX < p.data.length + PIPE_BUF
  · rw [parseRun_die h _ hfull]
    exact hroom _ h.reset (by simp [PIPE_BUF, PARSE_BUF_MAX])
  · exact hroom p h (by omega)

theorem parseRun_closedReads {p : Parse} (h : p.Sound) {chunks : List Bytes}
    (hc : Delivered chunks) : parseRun p (closedReads chunks) = framing p.data chunks :=
  parseRun_chunks h hc (fun _ hp => parseRun_closed hp)

/-- The last read is short, and the bytes pending before it leave room for a block. -/
def EndsShort (data : Bytes) (chunks : List Bytes) : Prop :=
  ∃ before last, chunks = before ++ [last] ∧ last.length < PIPE_BUF ∧
    data.length + before.flatten.length + PIPE_BUF ≤ PARSE_BUF_MAX

theorem Segmented.no_documents {cs : List Bytes} (h : Segmented [] cs []) (hc : Delivered cs) :
    cs = [] := by
  cases h with
  | done => rfl
  | more _ c cs _ _ rest =>
    obtain ⟨d, ds, hdocs, -⟩ := rest.pending hc.tail (by simp [(hc c (by simp)).1])
    cases hdocs

theorem Segmented.endsShort {data d : Bytes} {cs : List Bytes} (h : Segmented data cs [d])
    (hc : Delivered cs) : EndsShort data cs := by
  generalize hdocs : [d] = docs at h
  induction h with
  | done => cases hdocs
  | more data c cs docs room rest ih =>
    obtain ⟨before, last, rfl, hshort, hfits⟩ := ih hc.tail hdocs
    refine ⟨c :: before, last, rfl, hshort, ?_⟩
    simp only [List.length_append, List.flatten_cons] at hfits ⊢
    omega
  | last data c cs docs room short rest ih =>
    obtain ⟨-, rfl⟩ := List.cons.inj hdocs
    obtain rfl := rest.no_documents hc.tail
    exact ⟨[], c, rfl, short, by simpa using room⟩

theorem EndsShort.segmented {data : Bytes} {cs : List Bytes} (h : EndsShort data cs) :
    Segmented data cs [data ++ cs.flatten] := by
  obtain ⟨before, last, rfl, hshort, hfits⟩ := h
  induction before generalizing data with
  | nil =>
    have := Segmented.last data last [] [] (by simpa using hfits) hshort .done
    simpa using this
  | cons c before ih =>
    simp only [List.flatten_cons, List.length_append] at hfits
    have hfits : (data ++ c).length + before.flatten.length + PIPE_BUF ≤ PARSE_BUF_MAX := by
      simp only [List.length_append]
      omega
    simpa using Segmented.more data c (before ++ [last]) _ (by omega) (ih hfits)

/-- A document sent alone before the input is closed is handed to `parse`
exactly when its last read is short and found room. -/
theorem end_of_stream_iff {d : Bytes} {chunks : List Bytes} (hd : IsDocument d)
    (hc : Delivered chunks) (hs : chunks.flatten = d) :
    parseRun Parse.new (closedReads chunks) = [d] ↔ EndsShort [] chunks := by
  rw [parseRun_closedReads .new hc]
  constructor
  · intro hf
    exact (segmented_of_framing hc hf (by simpa [Parse.new] using hs)).endsShort hc
  · intro h
    have hseg := h.segmented
    rw [hs, List.nil_append] at hseg
    exact framing_of_segmented hseg hc (by simpa using hd)

theorem end_of_stream_lineDocument :
    parseRun Parse.new (closedReads [[97, 10], [10]]) = [lineDocument] ↔
      EndsShort [] [[97, 10], [10]] :=
  end_of_stream_iff lineDocument_isDocument (by decide) rfl

/-- It ends where its first terminator does, however long it is. -/
structure Terminated (d : Bytes) : Prop where
  ends : EndsDocument d
  first : ∀ p, p <+: d → p ≠ d → ¬ EndsDocument p

/-- A line of `n` letters before a blank line. -/
def lineOf (n : Nat) : Bytes := List.replicate n 97 ++ [10, 10]

@[simp] theorem length_lineOf (n : Nat) : (lineOf n).length = n + 2 := by
  simp [lineOf]

theorem lineOf_terminated (n : Nat) : Terminated (lineOf n) where
  ends := ⟨[10, 10], by decide, List.suffix_append _ _⟩
  first := by
    intro p hp hne ⟨t, ht, hsuf⟩
    have hline : p <+: List.replicate n 97 ++ [10] := by
      have hcat : lineOf n = List.replicate n 97 ++ [10] ++ [10] := by simp [lineOf]
      rw [hcat, List.prefix_concat_iff, ← hcat] at hp
      rcases hp with rfl | hp
      · exact absurd rfl hne
      · exact hp
    have hsub := hsuf.sublist.trans hline.sublist
    simp only [terminators, List.mem_cons, List.not_mem_nil, or_false] at ht
    rcases ht with rfl | rfl | rfl | rfl
    · have := hsub.count_le 10
      simp [List.count_replicate] at this
    · simpa using hsub.subset (show (13 : UInt8) ∈ _ by simp)
    · simpa using hsub.subset (show (46 : UInt8) ∈ _ by simp)
    · simpa using hsub.subset (show (46 : UInt8) ∈ _ by simp)

theorem lineOf_isDocument {n : Nat} (h : n + 2 ≤ PARSE_BUF_MAX) : IsDocument (lineOf n) :=
  ⟨(lineOf_terminated n).ends, (lineOf_terminated n).first, by simpa using h⟩

/-- A document of exactly one block is lost: its read says that more is to come. -/
theorem full_block_lost :
    ¬ ∀ (d : Bytes) (chunks : List Bytes), IsDocument d → Delivered chunks →
      chunks.flatten = d → parseRun Parse.new (closedReads chunks) = [d] := by
  intro h
  have hlen : (lineOf 4094).length = PIPE_BUF := length_lineOf 4094
  have hc : Delivered [lineOf 4094] := by
    intro c hm
    obtain rfl := List.mem_singleton.mp hm
    exact ⟨List.ne_nil_of_length_pos (by rw [hlen]; decide), hlen.le⟩
  have hone := h _ _ (lineOf_isDocument (by decide : 4094 + 2 ≤ PARSE_BUF_MAX)) hc (by simp)
  rw [parseRun_closedReads .new hc, framing] at hone
  simp [framing, hlen] at hone

end Xdpacket
