import Xdpacket.Proofs.Framing

namespace Xdpacket

/-- One `read` never answers with more than it was asked for. -/
def Input.Answers (input : Input) : Prop := ∀ bs, .bytes bs ∈ input.reads → bs.length ≤ PIPE_BUF

/-- The callbacks of one connection, from `parse_new` for as long as they stay registered. -/
inductive CalledWith (input : Input) : Parse → Input → Prop where
  | first : CalledWith input Parse.new input
  | next {p : Parse} {i : Input} (before : CalledWith input p i)
      (ret : (parseCallback p i).ret = some 0) :
      CalledWith input (parseCallback p i).parse (parseCallback p i).input

/-- The callback issues a `read` into `q`. -/
def ReadsInto (p : Parse) (i : Input) (q : Parse) : Prop :=
  ∃ p' j k, LoopHead p i p' j ∧ growBuf p' j = (true, q, k)

/-- The callback stores the terminating NUL behind the bytes of `q`. -/
def StoresNul (p : Parse) (i : Input) (q : Parse) : Prop :=
  ∃ res j, readLoop p i.reads i.reallocs = .done res q j ∧ res ≠ .bytes [] ∧
    documentComplete q.data = true

/-- `buf` is an allocation of `buf_len` bytes with room for a block. -/
structure Buffered (q : Parse) : Prop where
  allocated : q.allocated = q.bufLen
  room : q.data.length + PIPE_BUF ≤ q.bufLen
  max : q.bufLen ≤ PARSE_BUF_MAX

structure BufferSafe (p : Parse) (i : Input) : Prop where
  reads : ∀ q, ReadsInto p i q → Buffered q
  nul : ∀ q, StoresNul p i q → q.data.length < q.bufLen

/-- The buffer has to grow, may grow, and its `realloc` fails. -/
def ReallocFails (q : Parse) (j : Input) : Prop :=
  q.bufLen < q.data.length + PIPE_BUF ∧ q.bufLen < PARSE_BUF_MAX ∧ ∃ rest, j.reallocs = false :: rest

/-- No `realloc` that the callback asks for fails. -/
def ReallocsSucceed (p : Parse) (i : Input) : Prop :=
  ∀ q j, LoopHead p i q j → ¬ ReallocFails q j

/-- Between reads `buf` is an allocation of `buf_len` bytes. -/
structure Parse.Backed (p : Parse) : Prop extends p.Sound where
  allocated : p.allocated = p.bufLen

theorem Parse.Backed.new : Parse.new.Backed := ⟨.new, rfl⟩

theorem Parse.Backed.reset {p : Parse} (h : p.Backed) : Parse.Backed { p with data := [] } :=
  ⟨h.toSound.reset, h.allocated⟩

theorem Parse.Backed.read {p : Parse} (h : p.Backed) {bs : Bytes} (hb : bs.length ≤ PIPE_BUF)
    (hroom : p.data.length + PIPE_BUF ≤ p.bufLen) :
    Parse.Backed { p with data := p.data ++ bs } :=
  ⟨h.toSound.read hb hroom, h.allocated⟩

section Grow

variable {p q : Parse} {i j : Input}

theorem ReallocFails.grow (h : ReallocFails p i) :
    ∃ j, growBuf p i = (false, ⟨p.data, p.bufLen + PIPE_BUF, 0⟩, j) := by
  obtain ⟨hneed, hmax, rest, hr⟩ := h
  have hrun := growBuf_run p i
  generalize growBuf p i = g at hrun
  cases hrun with
  | room fits => omega
  | full _ max => omega
  | failed => exact ⟨_, rfl⟩
  | grew _ _ realloc => exact absurd hr (realloc rest)

theorem growBuf_allocated (hg : growBuf p i = (true, q, j)) (h : p.allocated = p.bufLen) :
    q.allocated = q.bufLen := by
  have hrun := growBuf_run p i
  rw [hg] at hrun
  cases hrun with
  | room => exact h
  | grew => rfl

/-- Growth leaves a buffer with room for a block. -/
theorem Parse.Backed.grown (h : p.Backed) (hg : growBuf p i = (true, q, j)) :
    q.Backed ∧ Buffered q := by
  obtain ⟨hs, -, hroom⟩ := h.toSound.grown hg
  have halloc := growBuf_allocated hg h.allocated
  exact ⟨⟨hs, halloc⟩, ⟨halloc, hroom, hs.max⟩⟩

/-- At the maximum the context is left as it was. -/
theorem growBuf_refuses (hg : growBuf p i = (false, q, j)) (hr : ¬ ReallocFails p i) : q = p := by
  have hrun := growBuf_run p i
  rw [hg] at hrun
  cases hrun with
  | full => rfl
  | failed need below realloc => exact absurd ⟨need, below, _, realloc⟩ hr

end Grow

/-- Every read of a callback finds what the callback began with. -/
theorem LoopHead.backed {p q : Parse} {i j : Input} (h : LoopHead p i q j) (hp : p.Backed)
    (hi : i.Answers) : q.Backed ∧ j.Answers := by
  induction h with
  | first p i => exact ⟨hp, hi⟩
  | @again p p' q bs rest reallocs i j grown full head ih =>
    obtain ⟨hback, hbuf⟩ := hp.grown grown
    refine ih (hback.read full.le hbuf.room) ?_
    intro cs hc
    exact hi cs (List.mem_cons_of_mem _ hc)

/-- From a buffer that is there, one callback is safe. -/
theorem Parse.Backed.safe {p : Parse} {i : Input} (hp : p.Backed) (hi : i.Answers) :
    BufferSafe p i := by
  constructor
  · intro q h
    obtain ⟨p', j, k, hhead, hgrow⟩ := h
    exact ((hhead.backed hp hi).1.grown hgrow).2
  · intro q h
    obtain ⟨res, k, hloop, -⟩ := h
    obtain ⟨p', j, hhead, hends⟩ := readLoop_ends p i.reads i.reallocs
    obtain ⟨hback, hans⟩ := hhead.backed hp hi
    rw [hloop] at hends
    cases hends with
    | failed grown =>
      have hroom := (hback.grown grown).2.room
      simp only [PIPE_BUF] at hroom
      omega
    | @short p bs rest reallocs k grown short =>
      have hroom := (hback.grown grown).2.room
      have hlen := hans bs (by simp)
      simp only [List.length_append]
      omega

theorem callback_dies {p q : Parse} {i k : Input} (h : readLoop p i.reads i.reallocs = .die q k) :
    parseCallback p i = ⟨some 0, [], { q with data := [] }, k⟩ := by
  simp [parseCallback, h]

/-- After the last read the context is left as it is, or emptied. -/
theorem callback_done {p q : Parse} {i k : Input} {res : ReadResult}
    (h : readLoop p i.reads i.reallocs = .done res q k) :
    ((parseCallback p i).parse = q ∨ (parseCallback p i).parse = { q with data := [] }) ∧
      (parseCallback p i).input = k := by
  unfold parseCallback
  rw [h]
  simp only
  split
  · exact ⟨.inl rfl, rfl⟩
  · split
    · exact ⟨.inl rfl, rfl⟩
    · exact ⟨.inr rfl, rfl⟩

/-- What the loop leaves when its allocations succeed. -/
theorem LoopEnds.backed {q : Parse} {j : Input} {l : ReadLoop} (h : LoopEnds q j l) (hq : q.Backed)
    (hj : j.Answers) (hr : ¬ ReallocFails q j) {p : Parse} {k : Input}
    (hl : l = .die p k ∨ ∃ res, l = .done res p k) : p.Backed ∧ k.Answers := by
  cases h with
  | blocked => simp at hl
  | @die p' _ k' refused =>
    obtain ⟨rfl, rfl⟩ : p' = p ∧ k' = k := by simpa using hl
    have hin := (growBuf_input q j).1
    rw [refused] at hin
    obtain rfl := growBuf_refuses refused hr
    refine ⟨hq, ?_⟩
    intro bs hb
    exact hj bs (hin ▸ hb)
  | @failed p' rest reallocs k' grown =>
    obtain ⟨rfl, rfl⟩ : p' = p ∧ ⟨rest, k'.reallocs⟩ = k := by simpa using hl
    refine ⟨(hq.grown grown).1, ?_⟩
    intro bs hb
    exact hj bs (List.mem_cons_of_mem _ hb)
  | @short p' bs rest reallocs k' grown short =>
    obtain ⟨rfl, rfl⟩ : { p' with data := p'.data ++ bs } = p ∧ ⟨rest, k'.reallocs⟩ = k := by
      simpa using hl
    obtain ⟨hback, hbuf⟩ := hq.grown grown
    refine ⟨hback.read (hj bs (by simp)) hbuf.room, ?_⟩
    intro cs hc
    exact hj cs (List.mem_cons_of_mem _ hc)

/-- A callback whose allocations succeed leaves a buffer that is there. -/
theorem Parse.Backed.callback {p : Parse} {i : Input} (hp : p.Backed) (hi : i.Answers)
    (hs : ReallocsSucceed p i) (hret : (parseCallback p i).ret = some 0) :
    (parseCallback p i).parse.Backed ∧ (parseCallback p i).input.Answers := by
  obtain ⟨q, j, hhead, hends⟩ := readLoop_ends p i.reads i.reallocs
  obtain ⟨hback, hans⟩ := hhead.backed hp hi
  have hleft := fun p' k hl => hends.backed (p := p') (k := k) hback hans (hs q j hhead) hl
  cases hl : readLoop p i.reads i.reallocs with
  | blocked p' => simp [parseCallback, hl] at hret
  | die p' k =>
    obtain ⟨hp', hk⟩ := hleft p' k (.inl hl)
    rw [callback_dies hl]
    exact ⟨hp'.reset, hk⟩
  | done res p' k =>
    obtain ⟨hp', hk⟩ := hleft p' k (.inr ⟨res, hl⟩)
    obtain ⟨hparse, hinput⟩ := callback_done hl
    rw [hinput]
    rcases hparse with h | h
    · exact ⟨h ▸ hp', hk⟩
    · exact ⟨h ▸ hp'.reset, hk⟩

theorem CalledWith.backed {input p i} (h : CalledWith input p i) (ha : input.Answers)
    (hs : ∀ p i, CalledWith input p i → ReallocsSucceed p i) : p.Backed ∧ i.Answers := by
  induction h with
  | first => exact ⟨.new, ha⟩
  | @next p i before ret ih => exact ih.1.callback ih.2 (hs p i before) ret

/-- The iteration whose `realloc` fails is the last one. -/
theorem LoopHead.loses {p q : Parse} {i j : Input} (h : LoopHead p i q j) (hr : ReallocFails q j) :
    ∃ k, readLoop p i.reads i.reallocs = .die ⟨q.data, q.bufLen + PIPE_BUF, 0⟩ k := by
  induction h with
  | first q j =>
    obtain ⟨k, hg⟩ := hr.grow
    refine ⟨k, ?_⟩
    unfold readLoop
    rw [show (⟨j.reads, j.reallocs⟩ : Input) = j from rfl, hg]
  | @again p p' q bs rest reallocs i j grown full head ih =>
    obtain ⟨k, hk⟩ := ih hr
    refine ⟨k, ?_⟩
    unfold readLoop
    rw [grown]
    simp only [if_pos full]
    exact hk

/-- The length was advanced and the pointer lost: the next callback reads at once, into null. -/
theorem LoopHead.next_unbuffered {p q : Parse} {i j : Input} (h : LoopHead p i q j)
    (hr : ReallocFails q j) :
    (parseCallback p i).ret = some 0 ∧
      ¬ BufferSafe (parseCallback p i).parse (parseCallback p i).input := by
  obtain ⟨k, hl⟩ := h.loses hr
  rw [callback_dies hl]
  refine ⟨rfl, ?_⟩
  intro hsafe
  have hgrow : growBuf ⟨[], q.bufLen + PIPE_BUF, 0⟩ k =
      (true, ⟨[], q.bufLen + PIPE_BUF, 0⟩, k) := by
    unfold growBuf
    rw [if_neg (by simp)]
  have hnull := (hsafe.reads _ ⟨_, _, _, .first _ _, hgrow⟩).allocated
  simp [PIPE_BUF] at hnull

/-- Every `read` of a connection has a buffer, and every NUL room, exactly when
no `realloc` that is asked for fails. -/
theorem buffer_safe_iff {input : Input} (ha : input.Answers) :
    (∀ p i, CalledWith input p i → BufferSafe p i) ↔
      ∀ p i, CalledWith input p i → ReallocsSucceed p i := by
  constructor
  · intro hsafe p i hcall q j hhead hfails
    obtain ⟨hret, hun⟩ := hhead.next_unbuffered hfails
    exact hun (hsafe _ _ (hcall.next hret))
  · intro hs p i hcall
    obtain ⟨hback, hans⟩ := hcall.backed ha hs
    exact hback.safe hans

/-- One letter, for which no memory is left. -/
def starvedRead : Input := ⟨[.bytes [97]], [false]⟩

theorem starvedRead_answers : starvedRead.Answers := by
  intro bs hb
  obtain rfl : bs = [97] := by simpa [starvedRead] using hb
  decide

theorem buffer_safe_starvedRead :
    (∀ p i, CalledWith starvedRead p i → BufferSafe p i) ↔
      ∀ p i, CalledWith starvedRead p i → ReallocsSucceed p i :=
  buffer_safe_iff starvedRead_answers

/-- After the failed growth the next callback reads into null. -/
theorem buffer_lost :
    ¬ ∀ input : Input, input.Answers → ∀ p i, CalledWith input p i → BufferSafe p i := by
  intro h
  have hfails : ReallocFails Parse.new starvedRead := ⟨by decide, by decide, [], rfl⟩
  obtain ⟨hret, hun⟩ := (LoopHead.first Parse.new starvedRead).next_unbuffered hfails
  exact hun (h starvedRead starvedRead_answers _ _ (CalledWith.first.next hret))

end Xdpacket
