import Mathlib.Data.List.Infix
import Xdpacket.Model.Stream

namespace Xdpacket

/-- Between reads the buffer holds what was read, in whole blocks up to the maximum. -/
structure Parse.Sound (p : Parse) : Prop where
  fits : p.data.length ≤ p.bufLen
  blocks : p.bufLen % PIPE_BUF = 0
  max : p.bufLen ≤ PARSE_BUF_MAX

theorem Parse.Sound.new : Parse.new.Sound := ⟨Nat.le_refl _, rfl, Nat.zero_le _⟩

theorem Parse.Sound.reset {p : Parse} (h : p.Sound) : Parse.Sound { p with data := [] } :=
  ⟨Nat.zero_le _, h.blocks, h.max⟩

/-- Growth leaves room for a block. -/
theorem Parse.Sound.grown {p q : Parse} {i j : Input} (h : p.Sound)
    (hg : growBuf p i = (true, q, j)) :
    q.Sound ∧ q.data = p.data ∧ q.data.length + PIPE_BUF ≤ q.bufLen := by
  have hrun := growBuf_run p i
  rw [hg] at hrun
  cases hrun with
  | room fits => exact ⟨h, rfl, fits⟩
  | grew need below =>
    obtain ⟨hfits, hblocks, hmax⟩ := h
    have hlen : p.bufLen + PIPE_BUF ≤ PARSE_BUF_MAX := by
      simp only [PIPE_BUF, PARSE_BUF_MAX] at hblocks below ⊢
      omega
    exact ⟨⟨Nat.le_add_right_of_le hfits, by rw [Nat.add_mod_right, hblocks], hlen⟩, rfl,
      Nat.add_le_add_right hfits _⟩

/-- Growth fails exactly when another block would not fit the maximum. -/
theorem grow_fails {p : Parse} (h : p.Sound) {reads : List ReadResult}
    (hfull : PARSE_BUF_MAX < p.data.length + PIPE_BUF) :
    growBuf p ⟨reads, []⟩ = (false, p, ⟨reads, []⟩) := by
  have hrun := growBuf_run p ⟨reads, []⟩
  cases hg : growBuf p ⟨reads, []⟩ with
  | mk ok left =>
    cases ok with
    | true =>
      obtain ⟨hs, hd, hroom⟩ := h.grown hg
      have := hs.max
      rw [hd] at hroom
      omega
    | false =>
      rw [hg] at hrun
      cases hrun with
      | full => rfl
      | failed _ _ realloc => cases realloc

theorem grow_succeeds {p : Parse} (reads : List ReadResult) (h : p.Sound)
    (hroom : p.data.length + PIPE_BUF ≤ PARSE_BUF_MAX) :
    ∃ p', growBuf p ⟨reads, []⟩ = (true, p', ⟨reads, []⟩) ∧ p'.data = p.data ∧ p'.Sound ∧
      p.data.length + PIPE_BUF ≤ p'.bufLen := by
  have hok : ∃ q, growBuf p ⟨reads, []⟩ = (true, q, ⟨reads, []⟩) := by
    have hrun := growBuf_run p ⟨reads, []⟩
    generalize growBuf p ⟨reads, []⟩ = g at hrun ⊢
    cases hrun with
    | room => exact ⟨_, rfl⟩
    | full _ max => omega
    | failed _ _ realloc => cases realloc
    | grew => exact ⟨_, rfl⟩
  obtain ⟨q, hq⟩ := hok
  obtain ⟨hs, hd, hlen⟩ := h.grown hq
  exact ⟨q, hq, hd, hs, hd ▸ hlen⟩

/-- The reads of an open connection on which every allocation succeeds. -/
def openReads (chunks : List Bytes) : Input := ⟨chunks.map .bytes, []⟩

/-- The framing without its buffer: what is handed to `parse` when `data` is
pending and `chunks` come in. -/
def framing (data : Bytes) : List Bytes → List Bytes
  | [] => []
  | c :: cs =>
    let data := if PARSE_BUF_MAX < data.length + PIPE_BUF then [] else data
    if c.length ≠ PIPE_BUF ∧ documentComplete (data ++ c) then (data ++ c) :: framing [] cs
    else framing (data ++ c) cs

/-- A buffer without room for a block is dropped before the next read. -/
theorem framing_full {data c : Bytes} {cs : List Bytes}
    (h : PARSE_BUF_MAX < data.length + PIPE_BUF) :
    framing data (c :: cs) = framing [] (c :: cs) := by
  rw [framing, framing, if_pos h, ite_self]

theorem Parse.Sound.read {p : Parse} (h : p.Sound) {c : Bytes} (hc : c.length ≤ PIPE_BUF)
    (hroom : p.data.length + PIPE_BUF ≤ p.bufLen) :
    Parse.Sound { p with data := p.data ++ c } :=
  ⟨by simp only [List.length_append]; omega, h.blocks, h.max⟩

theorem callback_die {p : Parse} (h : p.Sound) {reads : List ReadResult}
    (hfull : PARSE_BUF_MAX < p.data.length + PIPE_BUF) :
    parseCallback p ⟨reads, []⟩ = ⟨some 0, [], { p with data := [] }, ⟨reads, []⟩⟩ := by
  simp only [parseCallback]
  unfold readLoop
  rw [grow_fails h hfull]

/-- A full block keeps the loop going. -/
theorem callback_full {p : Parse} {c : Bytes} (reads : List ReadResult) (h : p.Sound)
    (hroom : p.data.length + PIPE_BUF ≤ PARSE_BUF_MAX) (hc : c.length = PIPE_BUF) :
    ∃ p', p'.Sound ∧ p'.data = p.data ++ c ∧
      parseCallback p ⟨.bytes c :: reads, []⟩ = parseCallback p' ⟨reads, []⟩ := by
  obtain ⟨p₁, hg, hd, hs, hlen⟩ := grow_succeeds _ h hroom
  refine ⟨{ p₁ with data := p₁.data ++ c }, hs.read (by omega) (by rw [hd]; exact hlen), by rw [hd],
    ?_⟩
  have hl : readLoop p (.bytes c :: reads) [] =
      readLoop { p₁ with data := p₁.data ++ c } reads [] := by
    conv_lhs => unfold readLoop
    rw [hg]
    simp only [if_pos hc]
  simp only [parseCallback, hl]

/-- A short read ends the loop; a document that is complete goes to `parse`. -/
theorem callback_short {p : Parse} {c : Bytes} (reads : List ReadResult) (h : p.Sound)
    (hroom : p.data.length + PIPE_BUF ≤ PARSE_BUF_MAX) (hc : c.length < PIPE_BUF) (hne : c ≠ []) :
    ∃ p', p'.Sound ∧ p'.data = (if documentComplete (p.data ++ c) then [] else p.data ++ c) ∧
      parseCallback p ⟨.bytes c :: reads, []⟩ =
        ⟨some 0, if documentComplete (p.data ++ c) then [p.data ++ c] else [], p',
          ⟨reads, []⟩⟩ := by
  obtain ⟨p₁, hg, hd, hs, hlen⟩ := grow_succeeds _ h hroom
  have hl : readLoop p (.bytes c :: reads) [] =
      .done (.bytes c) { p₁ with data := p₁.data ++ c } ⟨reads, []⟩ := by
    unfold readLoop
    rw [hg]
    simp only [if_neg (show ¬ c.length = PIPE_BUF by omega)]
  have hs' := hs.read (c := c) (by omega) (by rw [hd]; exact hlen)
  simp only [parseCallback, hl, hd]
  have hres : ReadResult.bytes c ≠ .bytes [] := by simpa using hne
  rw [if_neg hres]
  by_cases hdoc : documentComplete (p.data ++ c)
  · exact ⟨_, hs'.reset, by simp [hdoc], by simp [hdoc]⟩
  · exact ⟨_, hs', by simp [hdoc, hd], by simp [hdoc, hd]⟩

/-- A read of nothing deregisters the callback, whatever is in the buffer. -/
theorem callback_closed {p : Parse} (reads : List ReadResult) (h : p.Sound)
    (hroom : p.data.length + PIPE_BUF ≤ PARSE_BUF_MAX) :
    ∃ p', parseCallback p ⟨.bytes [] :: reads, []⟩ = ⟨some 1, [], p', ⟨reads, []⟩⟩ := by
  obtain ⟨p₁, hg, -⟩ := grow_succeeds _ h hroom
  refine ⟨{ p₁ with data := p₁.data ++ [] }, ?_⟩
  have hl : readLoop p (.bytes [] :: reads) [] =
      .done (.bytes []) { p₁ with data := p₁.data ++ [] } ⟨reads, []⟩ := by
    unfold readLoop
    rw [hg]
    simp [PIPE_BUF]
  simp only [parseCallback, hl, if_true]

/-- With no answer left the callback waits in `read`. -/
theorem callback_blocked {p : Parse} (h : p.Sound)
    (hroom : p.data.length + PIPE_BUF ≤ PARSE_BUF_MAX) :
    ∃ p', parseCallback p ⟨[], []⟩ = ⟨none, [], p', ⟨[], []⟩⟩ := by
  obtain ⟨p₁, hg, -⟩ := grow_succeeds [] h hroom
  refine ⟨p₁, ?_⟩
  simp only [parseCallback]
  unfold readLoop
  rw [hg]

/-- Chunks that an open connection can deliver. -/
def Delivered (chunks : List Bytes) : Prop := ∀ c ∈ chunks, c ≠ [] ∧ c.length ≤ PIPE_BUF

instance (chunks : List Bytes) : Decidable (Delivered chunks) :=
  inferInstanceAs (Decidable (∀ c ∈ chunks, c ≠ [] ∧ c.length ≤ PIPE_BUF))

theorem Delivered.tail {c : Bytes} {chunks : List Bytes} (h : Delivered (c :: chunks)) :
    Delivered chunks :=
  fun d hd => h d (by simp [hd])

theorem parseRun_nil (p : Parse) : parseRun p ⟨[], []⟩ = [] := by
  unfold parseRun
  simp

theorem parseRun_cons (p : Parse) (r : ReadResult) (reads : List ReadResult) :
    parseRun p ⟨r :: reads, []⟩ =
      (let cb := parseCallback p ⟨r :: reads, []⟩
      if cb.ret = some 0 then cb.calls ++ parseRun cb.parse cb.input else cb.calls) := by
  conv_lhs => unfold parseRun
  rw [if_neg (by simp)]
  simp

/-- A buffer without room is emptied before the next read. -/
theorem parseRun_die {p : Parse} (h : p.Sound) (reads : List ReadResult)
    (hfull : PARSE_BUF_MAX < p.data.length + PIPE_BUF) :
    parseRun p ⟨reads, []⟩ = parseRun { p with data := [] } ⟨reads, []⟩ := by
  cases reads with
  | nil => rw [parseRun_nil, parseRun_nil]
  | cons r reads =>
    rw [parseRun_cons, callback_die h hfull]
    simp

theorem parseRun_full {p : Parse} {c : Bytes} (reads : List ReadResult) (h : p.Sound)
    (hroom : p.data.length + PIPE_BUF ≤ PARSE_BUF_MAX) (hc : c.length = PIPE_BUF) :
    ∃ p', p'.Sound ∧ p'.data = p.data ++ c ∧
      parseRun p ⟨.bytes c :: reads, []⟩ = parseRun p' ⟨reads, []⟩ := by
  obtain ⟨p', hs, hd, hcb⟩ := callback_full reads h hroom hc
  refine ⟨p', hs, hd, ?_⟩
  rw [parseRun_cons, hcb]
  cases reads with
  | nil =>
    rw [parseRun_nil]
    by_cases hm : PARSE_BUF_MAX < p'.data.length + PIPE_BUF
    · rw [callback_die hs hm]
      simp [parseRun_nil]
    · obtain ⟨p₂, hb⟩ := callback_blocked hs (by omega)
      simp [hb]
  | cons r reads => rw [parseRun_cons]

/-- With room for a block, one chunk takes the run one step of the framing on. -/
theorem parseRun_step {p : Parse} (h : p.Sound) {c : Bytes} {chunks : List Bytes}
    {reads : List ReadResult} (hroom : p.data.length + PIPE_BUF ≤ PARSE_BUF_MAX)
    (hc : c ≠ [] ∧ c.length ≤ PIPE_BUF)
    (ih : ∀ p' : Parse, p'.Sound → parseRun p' ⟨reads, []⟩ = framing p'.data chunks) :
    parseRun p ⟨.bytes c :: reads, []⟩ = framing p.data (c :: chunks) := by
  rw [framing, if_neg (show ¬ PARSE_BUF_MAX < p.data.length + PIPE_BUF by omega)]
  by_cases hfull : c.length = PIPE_BUF
  · obtain ⟨p', hs, hd, hr⟩ := parseRun_full reads h hroom hfull
    simp only [ne_eq, hfull, not_true_eq_false, false_and, if_false]
    rw [hr, ih p' hs, hd]
  · obtain ⟨p', hs, hd, hcb⟩ := callback_short reads h hroom (by omega) hc.1
    rw [parseRun_cons, hcb]
    simp only [if_true, ih p' hs, hd]
    by_cases hdoc : documentComplete (p.data ++ c) <;> simp [hdoc, hfull]

/-- A run whose end adds no call follows the framing of its chunks. -/
theorem parseRun_chunks {p : Parse} (h : p.Sound) {chunks : List Bytes} (hc : Delivered chunks)
    {rest : List ReadResult} (hrest : ∀ p : Parse, p.Sound → parseRun p ⟨rest, []⟩ = []) :
    parseRun p ⟨chunks.map .bytes ++ rest, []⟩ = framing p.data chunks := by
  induction chunks generalizing p with
  | nil => exact hrest p h
  | cons c chunks ih =>
    have hstep : ∀ p' : Parse, p'.Sound → p'.data.length + PIPE_BUF ≤ PARSE_BUF_MAX →
        parseRun p' ⟨.bytes c :: (chunks.map .bytes ++ rest), []⟩ = framing p'.data (c :: chunks) :=
      fun p' hs hroom => parseRun_step hs hroom (hc c (by simp)) (fun _ hs' => ih hs' hc.tail)
    rw [List.map_cons, List.cons_append]
    by_cases hfull : PARSE_BUF_MAX < p.data.length + PIPE_BUF
    · rw [parseRun_die h _ hfull, hstep _ h.reset (by simp [PIPE_BUF, PARSE_BUF_MAX]),
        framing_full hfull]
    · exact hstep p h (by omega)

theorem parseRun_framing {p : Parse} (h : p.Sound) {chunks : List Bytes} (hc : Delivered chunks) :
    parseRun p (openReads chunks) = framing p.data chunks := by
  have hnil : ∀ p : Parse, p.Sound → parseRun p ⟨[], []⟩ = [] := fun p _ => parseRun_nil p
  have := parseRun_chunks h hc hnil
  rwa [List.append_nil] at this

def EndsDocument (bs : Bytes) : Prop := ∃ t ∈ terminators, t <:+ bs

theorem parseCmptail_iff (check buf : Bytes) : parseCmptail check buf = true ↔ check <:+ buf := by
  unfold parseCmptail
  simp only
  split
  · rename_i hlen
    simp only [Bool.false_eq_true, false_iff]
    intro hs
    have := hs.length_le
    omega
  · rename_i hlen
    rw [beq_iff_eq, List.take_of_length_le (by omega), List.suffix_iff_eq_drop,
      show min check.length (buf.length + 1) = check.length by omega]

theorem documentComplete_iff (bs : Bytes) : documentComplete bs = true ↔ EndsDocument bs := by
  simp [documentComplete, EndsDocument, parseCmptail_iff]

/-- A document of the stream: it ends where its first terminator does. -/
structure IsDocument (d : Bytes) : Prop where
  ends : EndsDocument d
  first : ∀ p, p <+: d → p ≠ d → ¬ EndsDocument p
  size : d.length ≤ PARSE_BUF_MAX

/-- With `data` pending, the chunks can be cut into the documents: no chunk
holds bytes of two, the last chunk of each is short, and each read finds room
for a block. -/
inductive Segmented : Bytes → List Bytes → List Bytes → Prop where
  | done : Segmented [] [] []
  | more (data c cs docs) (room : data.length + PIPE_BUF ≤ PARSE_BUF_MAX)
      (rest : Segmented (data ++ c) cs docs) : Segmented data (c :: cs) docs
  | last (data c cs docs) (room : data.length + PIPE_BUF ≤ PARSE_BUF_MAX)
      (short : c.length < PIPE_BUF) (rest : Segmented [] cs docs) :
      Segmented data (c :: cs) ((data ++ c) :: docs)

/-- Pending bytes are a proper beginning of the next document. -/
theorem Segmented.pending {data : Bytes} {cs docs : List Bytes} (h : Segmented data cs docs)
    (hc : Delivered cs) (hne : data ≠ []) :
    ∃ d ds, docs = d :: ds ∧ data <+: d ∧ data ≠ d := by
  induction h with
  | done => exact absurd rfl hne
  | more data c cs docs _ rest ih =>
    obtain ⟨d, ds, hdocs, hp, _⟩ := ih hc.tail (by simp [hne])
    refine ⟨d, ds, hdocs, (List.prefix_append data c).trans hp, ?_⟩
    rintro rfl
    have hlen := hp.length_le
    have := List.length_pos_of_ne_nil (hc c (by simp)).1
    simp only [List.length_append] at hlen
    omega
  | last data c cs docs _ _ rest ih =>
    refine ⟨_, _, rfl, List.prefix_append data c, ?_⟩
    intro he
    have hlen := congrArg List.length he
    have := List.length_pos_of_ne_nil (hc c (by simp)).1
    simp only [List.length_append] at hlen
    omega

theorem framing_of_segmented {data : Bytes} {cs docs : List Bytes} (h : Segmented data cs docs)
    (hc : Delivered cs) (hd : ∀ d ∈ docs, IsDocument d) : framing data cs = docs := by
  induction h with
  | done => rfl
  | more data c cs docs room rest ih =>
    rw [framing, if_neg (show ¬ PARSE_BUF_MAX < data.length + PIPE_BUF by omega)]
    have hnot : ¬ documentComplete (data ++ c) = true := by
      rw [documentComplete_iff]
      obtain ⟨d, ds, hdocs, hp, hne⟩ := rest.pending hc.tail
        (by simp [(hc c (by simp)).1])
      exact (hd d (by simp [hdocs])).first _ hp hne
    rw [if_neg (fun hb => hnot hb.2)]
    exact ih hc.tail hd
  | last data c cs docs room short rest ih =>
    rw [framing, if_neg (show ¬ PARSE_BUF_MAX < data.length + PIPE_BUF by omega)]
    have hend : documentComplete (data ++ c) = true :=
      (documentComplete_iff _).mpr (hd _ (by simp)).ends
    rw [if_pos ⟨by omega, hend⟩, ih hc.tail (fun d hm => hd d (by simp [hm]))]

/-- The framing hands over no more bytes than came in. -/
theorem length_framing_le (data : Bytes) (cs : List Bytes) :
    (framing data cs).flatten.length ≤ data.length + cs.flatten.length := by
  induction cs generalizing data with
  | nil => simp [framing]
  | cons c cs ih =>
    rw [framing]
    have hdrop : (if PARSE_BUF_MAX < data.length + PIPE_BUF then [] else data).length ≤
        data.length := by
      split <;> simp
    generalize (if PARSE_BUF_MAX < data.length + PIPE_BUF then [] else data) = kept at hdrop ⊢
    split
    · have := ih []
      simp only [List.flatten_cons, List.length_append, List.length_nil] at this ⊢
      omega
    · have := ih (kept ++ c)
      simp only [List.flatten_cons, List.length_append] at this ⊢
      omega

/-- A framing that lost nothing cut the chunks into what it handed over. -/
theorem segmented_of_framing {data : Bytes} {cs docs : List Bytes} (hc : Delivered cs)
    (hf : framing data cs = docs) (hs : data ++ cs.flatten = docs.flatten) :
    Segmented data cs docs := by
  induction cs generalizing data docs with
  | nil =>
    obtain rfl : [] = docs := hf
    obtain rfl : data = [] := by simpa using hs
    exact .done
  | cons c cs ih =>
    have hroom : data.length + PIPE_BUF ≤ PARSE_BUF_MAX := by
      by_contra hfull
      have hlt : PARSE_BUF_MAX < data.length + PIPE_BUF := by omega
      have hle := length_framing_le [] (c :: cs)
      rw [← framing_full hlt, hf, ← hs] at hle
      simp only [List.length_append, List.length_nil, PIPE_BUF, PARSE_BUF_MAX] at hle hlt
      omega
    rw [framing, if_neg (show ¬ PARSE_BUF_MAX < data.length + PIPE_BUF by omega)] at hf
    split at hf
    · rename_i hlast
      subst hf
      have hle := (hc c (by simp)).2
      refine .last data c cs _ hroom (by omega) (ih hc.tail rfl ?_)
      simpa using hs
    · refine .more data c cs docs hroom (ih hc.tail hf ?_)
      simpa using hs

/-- The calls to `parse` are the documents exactly when the reads were cut
along the documents. -/
theorem parse_calls_iff {docs chunks : List Bytes} (hd : ∀ d ∈ docs, IsDocument d)
    (hc : Delivered chunks) (hs : chunks.flatten = docs.flatten) :
    parseRun Parse.new (openReads chunks) = docs ↔ Segmented [] chunks docs := by
  rw [parseRun_framing .new hc]
  exact ⟨fun hf => segmented_of_framing hc hf hs, fun h => framing_of_segmented h hc hd⟩

/-- The line `a`, then a blank line. -/
def lineDocument : Bytes := [97, 10, 10]

theorem lineDocument_isDocument : IsDocument lineDocument where
  ends := ⟨[10, 10], by decide, by decide⟩
  first := by
    intro p hp hne
    have h : ∀ p ∈ List.inits lineDocument, p ≠ lineDocument → ¬ documentComplete p = true := by
      decide
    rw [← documentComplete_iff]
    exact h p ((List.mem_inits _ _).mpr hp) hne
  size := by decide

theorem parse_calls_lineDocuments :
    parseRun Parse.new (openReads [[97, 10], [10], lineDocument]) = [lineDocument, lineDocument] ↔
      Segmented [] [[97, 10], [10], lineDocument] [lineDocument, lineDocument] :=
  parse_calls_iff (by simpa using lineDocument_isDocument) (by decide) (by decide)

/-- Two documents in one read are handed to `parse` as one buffer. -/
theorem documents_coalesce :
    ¬ ∀ docs chunks : List Bytes, (∀ d ∈ docs, IsDocument d) → Delivered chunks →
      chunks.flatten = docs.flatten → parseRun Parse.new (openReads chunks) = docs := by
  intro h
  have hone := h [lineDocument, lineDocument] [lineDocument ++ lineDocument]
    (by simpa using lineDocument_isDocument) (by decide) (by decide)
  rw [parseRun_framing .new (by decide)] at hone
  revert hone
  decide

end Xdpacket