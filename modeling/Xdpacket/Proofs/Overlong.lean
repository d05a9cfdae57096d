import Xdpacket.Proofs.EndOfStream

namespace Xdpacket

structure Overlong (d : Bytes) : Prop extends Terminated d where
  long : PARSE_BUF_MAX < d.length

/-- Documents that arrive one at a time, each in reads of its own. -/
def Arriving (parts : List (List Bytes)) : Prop :=
  ∀ part ∈ parts, Delivered part ∧ Terminated part.flatten

/-- Nothing of `long` reaches `parse`, and what follows is handled as if it had
not been sent. -/
def Discarded (p : Parse) (long : List Bytes) : Prop :=
  ∀ parts, Arriving parts →
    parseRun p (openReads (long ++ parts.flatten)) = parseRun p (openReads parts.flatten)

/-- What the next read finds in the buffer: nothing when a block would not fit. -/
def kept (data : Bytes) : Bytes :=
  if PARSE_BUF_MAX < data.length + PIPE_BUF then [] else data

theorem kept_room {data : Bytes} (h : data.length + PIPE_BUF ≤ PARSE_BUF_MAX) :
    kept data = data := if_neg (by omega)

theorem kept_full {data : Bytes} (h : PARSE_BUF_MAX < data.length + PIPE_BUF) :
    kept data = [] := if_pos h

theorem kept_suffix (data : Bytes) : kept data <:+ data := by
  unfold kept
  split
  · exact List.nil_suffix
  · exact List.suffix_rfl

theorem framing_cons (data c : Bytes) (cs : List Bytes) :
    framing data (c :: cs) =
      if c.length ≠ PIPE_BUF ∧ documentComplete (kept data ++ c) then
        (kept data ++ c) :: framing [] cs
      else framing (kept data ++ c) cs := rfl

theorem framing_kept {data : Bytes} (h : kept data = []) (cs : List Bytes) :
    framing data cs = framing [] cs := by
  cases cs with
  | nil => rfl
  | cons c cs => simp only [framing_cons, h, show kept [] = [] from rfl]

/-- The bytes pending after reads of which none completed a document. -/
def pendingAfter (data : Bytes) (cs : List Bytes) : Bytes :=
  cs.foldl (fun data c => kept data ++ c) data

@[simp] theorem pendingAfter_nil (data : Bytes) : pendingAfter data [] = data := rfl

@[simp] theorem pendingAfter_cons (data c : Bytes) (cs : List Bytes) :
    pendingAfter data (c :: cs) = pendingAfter (kept data ++ c) cs :=
  List.foldl_cons ..

@[simp] theorem pendingAfter_concat (data c : Bytes) (cs : List Bytes) :
    pendingAfter data (cs ++ [c]) = kept (pendingAfter data cs) ++ c := by
  simp [pendingAfter]

theorem pendingAfter_append (data : Bytes) (cs ds : List Bytes) :
    pendingAfter data (cs ++ ds) = pendingAfter (pendingAfter data cs) ds :=
  List.foldl_append

theorem pendingAfter_suffix (data : Bytes) (cs : List Bytes) :
    pendingAfter data cs <:+ data ++ cs.flatten := by
  induction cs generalizing data with
  | nil => simp
  | cons c cs ih =>
    obtain ⟨x, hx⟩ := kept_suffix data
    obtain ⟨y, hy⟩ := ih (kept data ++ c)
    refine ⟨x ++ y, ?_⟩
    rw [pendingAfter_cons, List.append_assoc, hy, List.flatten_cons]
    simp only [← List.append_assoc, hx]

theorem EndsDocument.of_suffix {b d : Bytes} (h : EndsDocument b) (hs : b <:+ d) :
    EndsDocument d := by
  obtain ⟨t, ht, hsuf⟩ := h
  exact ⟨t, ht, hsuf.trans hs⟩

/-- Reads inside a document hand nothing over. -/
theorem framing_silent {d before data : Bytes} {cs : List Bytes} (hd : Terminated d)
    (hp : before ++ data ++ cs.flatten <+: d) (hne : before ++ data ++ cs.flatten ≠ d)
    (rest : List Bytes) : framing data (cs ++ rest) = framing (pendingAfter data cs) rest := by
  induction cs generalizing before data with
  | nil => rfl
  | cons c cs ih =>
    obtain ⟨x, hx⟩ := kept_suffix data
    have hcat : before ++ data ++ (c :: cs).flatten =
        (before ++ x) ++ (kept data ++ c) ++ cs.flatten := by
      conv_lhs => rw [← hx]
      simp only [List.flatten_cons, List.append_assoc]
    rw [hcat] at hp hne
    rw [List.cons_append, framing_cons, if_neg, pendingAfter_cons]
    · exact ih hp hne
    · intro hend
      have hcut := ((documentComplete_iff _).mp hend.2).of_suffix
        (List.suffix_append (before ++ x) (kept data ++ c))
      refine hd.first _ ((List.prefix_append _ _).trans hp) ?_ hcut
      intro he
      have hall : cs.flatten = [] := by
        have := hp.length_le
        rw [he, List.length_append] at this
        exact List.length_eq_zero_iff.mp (by omega)
      exact hne (by rw [hall, List.append_nil, he])

/-- What follows an over-long document finds the rest of it in the buffer,
unless its last read was short: then the rest is taken for a document. -/
theorem framing_over {init cs : List Bytes} {last : Bytes} (hne : last ≠ [])
    (hd : Terminated (init ++ [last]).flatten) :
    framing [] (init ++ [last] ++ cs) =
      if last.length ≠ PIPE_BUF ∧ documentComplete (pendingAfter [] (init ++ [last])) then
        pendingAfter [] (init ++ [last]) :: framing [] cs
      else framing (pendingAfter [] (init ++ [last])) cs := by
  have hpre : [] ++ [] ++ init.flatten <+: (init ++ [last]).flatten := by simp
  have hproper : [] ++ [] ++ init.flatten ≠ (init ++ [last]).flatten := by simpa using hne
  rw [List.append_assoc, framing_silent hd hpre hproper, List.singleton_append, framing_cons,
    pendingAfter_concat]

/-- The shortest run of reads that leaves no room for another block. -/
def FillsBuffer (g : List Bytes) : Prop :=
  ∃ init last, g = init ++ [last] ∧ init.flatten.length + PIPE_BUF ≤ PARSE_BUF_MAX ∧
    PARSE_BUF_MAX < g.flatten.length + PIPE_BUF

theorem kept_pending_room {data : Bytes} (hk : kept data = []) {init : List Bytes}
    (h : init.flatten.length + PIPE_BUF ≤ PARSE_BUF_MAX) :
    kept (pendingAfter data init) = init.flatten := by
  induction init using List.reverseRecOn with
  | nil => simpa using hk
  | append_singleton init c ih =>
    simp only [List.flatten_append, List.flatten_singleton, List.length_append] at h ⊢
    rw [pendingAfter_concat, ih (by omega), kept_room (by simpa using h)]

theorem FillsBuffer.dropped {g : List Bytes} (h : FillsBuffer g) {data : Bytes}
    (hk : kept data = []) : kept (pendingAfter data g) = [] := by
  obtain ⟨init, last, rfl, hroom, hfull⟩ := h
  rw [pendingAfter_concat, kept_pending_room hk hroom]
  exact kept_full (by simpa using hfull)

theorem fills_dropped {groups : List (List Bytes)} (h : ∀ g ∈ groups, FillsBuffer g)
    {data : Bytes} (hk : kept data = []) : kept (pendingAfter data groups.flatten) = [] := by
  induction groups generalizing data with
  | nil => exact hk
  | cons g groups ih =>
    rw [List.flatten_cons, pendingAfter_append]
    exact ih (fun g hg => h g (by simp [hg])) ((h g (by simp)).dropped hk)

/-- Reads cut into runs that fill the buffer, and a rest that is still kept. -/
theorem cut_reads (cs : List Bytes) :
    ∃ groups rest, cs = List.flatten groups ++ rest ∧ (∀ g ∈ groups, FillsBuffer g) ∧
      rest.flatten.length + PIPE_BUF ≤ PARSE_BUF_MAX ∧
      kept (pendingAfter [] cs) = rest.flatten := by
  induction cs using List.reverseRecOn with
  | nil => exact ⟨[], [], rfl, by simp, by decide, rfl⟩
  | append_singleton cs c ih =>
    obtain ⟨groups, rest, hcs, hg, hroom, hk⟩ := ih
    have hflat : rest.flatten ++ c = (rest ++ [c]).flatten := by simp
    rw [pendingAfter_concat, hk, hflat]
    by_cases hfull : PARSE_BUF_MAX < (rest ++ [c]).flatten.length + PIPE_BUF
    · refine ⟨groups ++ [rest ++ [c]], [], by simp [hcs], ?_, by decide, kept_full hfull⟩
      intro g hm
      rcases List.mem_append.mp hm with hm | hm
      · exact hg g hm
      · obtain rfl := List.mem_singleton.mp hm
        exact ⟨rest, c, rfl, hroom, hfull⟩
    · exact ⟨groups, rest ++ [c], by simp [hcs], hg, by omega, kept_room (by omega)⟩

/-- The reads of an over-long document fill the buffer again and again, and
the last of them is a full block. -/
def EndsOnBoundary (long : List Bytes) : Prop :=
  (∃ groups, long = List.flatten groups ∧ ∀ g ∈ groups, FillsBuffer g) ∧
    ∃ init last, long = init ++ [last] ∧ last.length = PIPE_BUF

theorem fills_iff {cs : List Bytes} (hc : Delivered cs) :
    (∃ groups, cs = List.flatten groups ∧ ∀ g ∈ groups, FillsBuffer g) ↔
      kept (pendingAfter [] cs) = [] := by
  constructor
  · intro ⟨groups, hcs, hg⟩
    rw [hcs]
    exact fills_dropped hg rfl
  · intro hk
    obtain ⟨groups, rest, hcs, hg, -, hrest⟩ := cut_reads cs
    rw [hk] at hrest
    refine ⟨groups, ?_, hg⟩
    cases rest with
    | nil => simpa using hcs
    | cons c rest =>
      have hnil : c = [] := (List.append_eq_nil_iff.mp hrest.symm).1
      exact absurd hnil (hc c (by simp [hcs])).1

theorem Terminated.ne_nil {d : Bytes} (h : Terminated d) : d ≠ [] := by
  intro he
  obtain ⟨t, ht, hs⟩ := h.ends
  rw [he, List.suffix_nil] at hs
  subst hs
  exact absurd ht (by decide)

/-- A long enough rest of a document still ends it. -/
theorem Terminated.rest_ends {d r : Bytes} (h : Terminated d) (hs : r <:+ d)
    (hlen : 4 < r.length) : EndsDocument r := by
  obtain ⟨t, ht, hsuf⟩ := h.ends
  refine ⟨t, ht, List.suffix_of_suffix_length_le hsuf hs ?_⟩
  have hsize : ∀ t ∈ terminators, t.length ≤ 5 := by decide
  have := hsize t ht
  omega

theorem nil_arriving : Arriving [] := by
  simp [Arriving]

theorem blank_arriving : Arriving [[lineOf 0]] := by
  intro part hm
  obtain rfl := List.mem_singleton.mp hm
  exact ⟨by decide, by simpa using lineOf_terminated 0⟩

theorem Arriving.delivered {parts : List (List Bytes)} (h : Arriving parts) :
    Delivered parts.flatten := by
  intro c hm
  obtain ⟨part, hp, hc⟩ := List.mem_flatten.mp hm
  exact (h part hp).1 c hc

theorem framing_blank (data : Bytes) :
    framing data [lineOf 0] = [kept data ++ lineOf 0] := by
  have hend : documentComplete (kept data ++ lineOf 0) = true :=
    (documentComplete_iff _).mpr ⟨[10, 10], by decide, List.suffix_append _ _⟩
  rw [framing_cons, if_pos ⟨by decide, hend⟩]
  rfl

/-- An over-long document leaves no trace exactly when its reads fill the
buffer again and again, the last of them with a full block. -/
theorem overlong_discarded_iff {p : Parse} {long : List Bytes} (hp : p.Sound) (he : p.data = [])
    (hc : Delivered long) (hd : Overlong long.flatten) :
    Discarded p long ↔ EndsOnBoundary long := by
  have hlong : long ≠ [] := by
    intro h
    exact hd.ne_nil (by simp [h])
  obtain ⟨init, last, rfl⟩ : ∃ init last, long = init ++ [last] :=
    ⟨_, _, (List.dropLast_append_getLast hlong).symm⟩
  have hlast : last ≠ [] := (hc last (by simp)).1
  have hrun : Discarded p (init ++ [last]) ↔ ∀ parts, Arriving parts →
      framing [] (init ++ [last] ++ parts.flatten) = framing [] parts.flatten := by
    refine forall_congr' fun parts => imp_congr_right fun ha => ?_
    have hall : Delivered (init ++ [last] ++ parts.flatten) := by
      intro c hm
      rcases List.mem_append.mp hm with hm | hm
      · exact hc c hm
      · exact ha.delivered c hm
    rw [parseRun_framing hp hall, parseRun_framing hp ha.delivered, he]
  rw [hrun, EndsOnBoundary, fills_iff hc]
  simp only [framing_over hlast hd.toTerminated]
  constructor
  · intro h
    have hcut : ¬ (last.length ≠ PIPE_BUF ∧
        documentComplete (pendingAfter [] (init ++ [last]))) := by
      intro hcut
      have := h [] nil_arriving
      rw [if_pos hcut] at this
      cases this
    have hk : kept (pendingAfter [] (init ++ [last])) = [] := by
      have := h [[lineOf 0]] blank_arriving
      rw [if_neg hcut, List.flatten_singleton, framing_blank, framing_blank] at this
      simpa [kept] using this
    refine ⟨hk, init, last, rfl, ?_⟩
    by_contra hshort
    -- an empty remainder is one without room, so it still holds the terminator
    have hfull : PARSE_BUF_MAX < (pendingAfter [] (init ++ [last])).length + PIPE_BUF := by
      by_contra hroom
      rw [kept_room (by omega), pendingAfter_concat] at hk
      exact hlast (List.append_eq_nil_iff.mp hk).2
    refine hcut ⟨hshort, (documentComplete_iff _).mpr ?_⟩
    refine hd.rest_ends (by simpa using pendingAfter_suffix [] (init ++ [last])) ?_
    simp only [PARSE_BUF_MAX, PIPE_BUF] at hfull
    omega
  · intro h parts ha
    obtain ⟨hk, init', last', he', hblock⟩ := h
    obtain rfl : last = last' := by simpa using congrArg List.getLast? he'
    rw [if_neg (fun h => h.1 hblock)]
    exact framing_kept hk _

/-- A line of 128 blocks, then a blank line. -/
def longLine : List Bytes := List.replicate 128 (List.replicate 4096 97) ++ [lineOf 0]

theorem longLine_flatten : longLine.flatten = lineOf (128 * 4096) := by
  rw [longLine, List.flatten_append, List.flatten_replicate_replicate, List.flatten_singleton]
  rfl

theorem longLine_delivered : Delivered longLine := by
  intro c hm
  rcases List.mem_append.mp hm with hm | hm
  · obtain rfl := (List.mem_replicate.mp hm).2
    exact ⟨List.ne_nil_of_length_pos (by rw [List.length_replicate]; decide),
      List.length_replicate.le⟩
  · obtain rfl := List.mem_singleton.mp hm
    decide

theorem lineOf_overlong {n : Nat} (h : PARSE_BUF_MAX < n + 2) : Overlong (lineOf n) where
  toTerminated := lineOf_terminated n
  long := by simpa using h

theorem longLine_overlong : Overlong longLine.flatten := by
  rw [longLine_flatten]
  exact lineOf_overlong (by decide)

theorem longLine_discarded_iff : Discarded Parse.new longLine ↔ EndsOnBoundary longLine :=
  overlong_discarded_iff .new rfl longLine_delivered longLine_overlong

/-- The blank line after 128 full blocks is handed over as a document. -/
theorem longLine_tail_parsed :
    ¬ ∀ (p : Parse) (long : List Bytes), p.Sound → p.data = [] → Delivered long →
      Overlong long.flatten → Discarded p long := by
  intro h
  have hone := h Parse.new longLine .new rfl longLine_delivered longLine_overlong [] nil_arriving
  have hblocks : kept (pendingAfter [] (List.replicate 128 (List.replicate 4096 97))) = [] := by
    have hfill : FillsBuffer (List.replicate 128 (List.replicate 4096 97)) := by
      refine ⟨List.replicate 127 (List.replicate 4096 97), List.replicate 4096 97,
        List.replicate_succ', ?_, ?_⟩
      · rw [List.flatten_replicate_replicate, List.length_replicate]
        decide
      · rw [List.flatten_replicate_replicate, List.length_replicate]
        decide
    exact hfill.dropped rfl
  have hend : documentComplete (lineOf 0) = true := by decide
  rw [List.flatten_nil, List.append_nil, parseRun_framing .new longLine_delivered] at hone
  have hover : framing [] (longLine ++ []) = _ :=
    framing_over (show lineOf 0 ≠ [] by decide) longLine_overlong.toTerminated
  rw [pendingAfter_concat, hblocks, List.nil_append, if_pos ⟨by decide, hend⟩,
    List.append_nil] at hover
  rw [show framing Parse.new.data longLine = lineOf 0 :: framing [] [] from hover] at hone
  cases hone.trans (parseRun_nil _)

end Xdpacket
