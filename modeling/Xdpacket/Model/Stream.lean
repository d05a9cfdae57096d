import Xdpacket.Model.Memory

namespace Xdpacket

/-- The most one `read` asks for. -/
def PIPE_BUF : Nat := 4096

def PARSE_BUF_MAX : Nat := 524288

/-- `struct parse`: the bytes before `buf_pos`, the length that `buf` is taken
to have, and the size of the allocation behind it (zero when `buf` is null). -/
structure Parse where
  data : Bytes
  bufLen : Nat
  allocated : Nat
deriving DecidableEq, Repr

/-- `parse_new` -/
def Parse.new : Parse := ⟨[], 0, 0⟩

/-- What one `read` answered. No bytes means end of file. -/
inductive ReadResult where
  | failed
  | bytes (bs : Bytes)
deriving DecidableEq, Repr

/-- What is still to come on an input: the answers of its `read`s (into a null
buffer that is `failed`) and the outcomes of the `realloc`s, which succeed when
nothing is said. -/
structure Input where
  reads : List ReadResult
  reallocs : List Bool
deriving DecidableEq, Repr

/-- `parse_cmptail`: true when the tail of `buf` is `check`. -/
def parseCmptail (check buf : Bytes) : Bool :=
  let checkLen := min check.length (buf.length + 1)
  if checkLen > buf.length then false
  else check.take checkLen == buf.drop (buf.length - checkLen)

/-- The four ends of a document: blank line or `...`, with LF or CRLF. -/
def terminators : List Bytes :=
  [[10, 10], [13, 10, 13, 10], [46, 46, 46, 10], [46, 46, 46, 13, 10]]

/-- The test for a complete document. -/
def documentComplete (buf : Bytes) : Bool := terminators.any (fun check => parseCmptail check buf)

/-- The head of the loop: extend the buffer as needed. False means `die`. A
failed `realloc` leaves the new length and a null pointer. -/
def growBuf (p : Parse) (input : Input) : Bool × Parse × Input :=
  if p.data.length + PIPE_BUF > p.bufLen then
    if p.bufLen ≥ PARSE_BUF_MAX then (false, p, input)
    else
      let bufLen := p.bufLen + PIPE_BUF
      match input.reallocs with
      | false :: rest => (false, ⟨p.data, bufLen, 0⟩, { input with reallocs := rest })
      | _ => (true, ⟨p.data, bufLen, bufLen⟩, { input with reallocs := input.reallocs.tail })
  else (true, p, input)

/-- How the loop ended: no `read` has an answer yet, at `die`, or with the
answer of the last `read`. -/
inductive ReadLoop where
  | blocked (p : Parse)
  | die (p : Parse) (input : Input)
  | done (res : ReadResult) (p : Parse) (input : Input)
deriving DecidableEq, Repr

/-- The loop of `parse_callback`, over the answers of the reads to come. A read
shorter than `PIPE_BUF` ends it. -/
def readLoop (p : Parse) : List ReadResult → List Bool → ReadLoop
  | reads, reallocs =>
    match growBuf p ⟨reads, reallocs⟩ with
    | (false, p, input) => .die p input
    | (true, p, input) =>
      match reads with
      | [] => .blocked p
      | .failed :: rest => .done .failed p ⟨rest, input.reallocs⟩
      | .bytes bs :: rest =>
        let p := { p with data := p.data ++ bs }
        if bs.length = PIPE_BUF then readLoop p rest input.reallocs
        else .done (.bytes bs) p ⟨rest, input.reallocs⟩

/-- What one `parse_callback` did: its answer (none while it waits in `read`),
the buffers it handed to `parse`, and what it left. -/
structure Callback where
  ret : Option Nat
  calls : List Bytes
  parse : Parse
  input : Input
deriving DecidableEq, Repr

/-- `parse_callback` -/
def parseCallback (p : Parse) (input : Input) : Callback :=
  match readLoop p input.reads input.reallocs with
  | .blocked p => ⟨none, [], p, ⟨[], []⟩⟩
  | .die p input => ⟨some 0, [], { p with data := [] }, input⟩
  | .done res p input =>
    if res = .bytes [] then ⟨some 1, [], p, input⟩
    else if !documentComplete p.data then ⟨some 0, [], p, input⟩
    else ⟨some 0, [p.data], { p with data := [] }, input⟩

/-- The answers still to come. -/
def Input.size (input : Input) : Nat := input.reads.length + input.reallocs.length

/-- What the head of the loop can do: nothing, give up at the maximum, lose the
buffer, or grow it. -/
inductive GrowRun (p : Parse) (input : Input) : Bool × Parse × Input → Prop where
  | room (fits : p.data.length + PIPE_BUF ≤ p.bufLen) : GrowRun p input (true, p, input)
  | full (need : p.bufLen < p.data.length + PIPE_BUF) (max : PARSE_BUF_MAX ≤ p.bufLen) :
      GrowRun p input (false, p, input)
  | failed (need : p.bufLen < p.data.length + PIPE_BUF) (below : p.bufLen < PARSE_BUF_MAX)
      {rest : List Bool} (realloc : input.reallocs = false :: rest) :
      GrowRun p input (false, ⟨p.data, p.bufLen + PIPE_BUF, 0⟩, { input with reallocs := rest })
  | grew (need : p.bufLen < p.data.length + PIPE_BUF) (below : p.bufLen < PARSE_BUF_MAX)
      (realloc : ∀ rest, input.reallocs ≠ false :: rest) :
      GrowRun p input (true, ⟨p.data, p.bufLen + PIPE_BUF, p.bufLen + PIPE_BUF⟩,
        { input with reallocs := input.reallocs.tail })

theorem growBuf_run (p : Parse) (input : Input) : GrowRun p input (growBuf p input) := by
  unfold growBuf
  split
  · rename_i hneed
    split
    · rename_i hmax
      exact .full hneed hmax
    · rename_i hmax
      simp only
      split
      · rename_i hfail
        exact .failed hneed (Nat.not_le.mp hmax) hfail
      · rename_i hok
        exact .grew hneed (Nat.not_le.mp hmax) hok
  · rename_i hroom
    exact .room (Nat.not_lt.mp hroom)

theorem growBuf_input (p : Parse) (input : Input) :
    (growBuf p input).2.2.reads = input.reads ∧
      (growBuf p input).2.2.reallocs.length ≤ input.reallocs.length := by
  have h := growBuf_run p input
  generalize growBuf p input = g at h
  cases h with
  | room => exact ⟨rfl, Nat.le_refl _⟩
  | full => exact ⟨rfl, Nat.le_refl _⟩
  | failed _ _ realloc => simp [realloc]
  | grew => simp

/-- Growth that fails uses up a `realloc`, or finds bytes in the buffer. -/
theorem growBuf_fails {p p' : Parse} {input input' : Input}
    (h : growBuf p input = (false, p', input')) :
    input'.size < input.size ∨ input' = input ∧ p.data ≠ [] := by
  have hr := growBuf_run p input
  rw [h] at hr
  cases hr with
  | full need max =>
    refine .inr ⟨rfl, ?_⟩
    intro hnil
    simp only [hnil, List.length_nil, PIPE_BUF, PARSE_BUF_MAX] at need max
    omega
  | failed _ _ realloc => exact .inl (by simp [Input.size, realloc])

/-- The loop of a callback on `p` comes to the head of an iteration with `q`, the
answers in `j` still to come: every read before it was full. -/
inductive LoopHead : Parse → Input → Parse → Input → Prop where
  | first (p i) : LoopHead p i p i
  | again {p p' q : Parse} {bs : Bytes} {rest : List ReadResult} {reallocs : List Bool}
      {i j : Input} (grown : growBuf p ⟨.bytes bs :: rest, reallocs⟩ = (true, p', i))
      (full : bs.length = PIPE_BUF)
      (head : LoopHead { p' with data := p'.data ++ bs } ⟨rest, i.reallocs⟩ q j) :
      LoopHead p ⟨.bytes bs :: rest, reallocs⟩ q j

/-- How an iteration that begins with `q` ends the loop. -/
inductive LoopEnds (q : Parse) : Input → ReadLoop → Prop where
  | blocked {p : Parse} {reallocs : List Bool} {k : Input}
      (grown : growBuf q ⟨[], reallocs⟩ = (true, p, k)) : LoopEnds q ⟨[], reallocs⟩ (.blocked p)
  | die {p : Parse} {j k : Input} (refused : growBuf q j = (false, p, k)) :
      LoopEnds q j (.die p k)
  | failed {p : Parse} {rest : List ReadResult} {reallocs : List Bool} {k : Input}
      (grown : growBuf q ⟨.failed :: rest, reallocs⟩ = (true, p, k)) :
      LoopEnds q ⟨.failed :: rest, reallocs⟩ (.done .failed p ⟨rest, k.reallocs⟩)
  | short {p : Parse} {bs : Bytes} {rest : List ReadResult} {reallocs : List Bool} {k : Input}
      (grown : growBuf q ⟨.bytes bs :: rest, reallocs⟩ = (true, p, k))
      (short : bs.length ≠ PIPE_BUF) :
      LoopEnds q ⟨.bytes bs :: rest, reallocs⟩
        (.done (.bytes bs) { p with data := p.data ++ bs } ⟨rest, k.reallocs⟩)

theorem readLoop_ends (p : Parse) (reads : List ReadResult) (reallocs : List Bool) :
    ∃ q j, LoopHead p ⟨reads, reallocs⟩ q j ∧ LoopEnds q j (readLoop p reads reallocs) := by
  induction reads generalizing p reallocs with
  | nil =>
    refine ⟨p, _, .first _ _, ?_⟩
    unfold readLoop
    split
    · rename_i hg
      exact .die hg
    · rename_i hg
      exact .blocked hg
  | cons r rest ih =>
    unfold readLoop
    split
    · rename_i hg
      exact ⟨p, _, .first _ _, .die hg⟩
    · rename_i p' i hg
      cases r with
      | failed => exact ⟨p, _, .first _ _, .failed hg⟩
      | bytes bs =>
        simp only
        split
        · rename_i hfull
          obtain ⟨q, j, hhead, hends⟩ := ih { p' with data := p'.data ++ bs } i.reallocs
          exact ⟨q, j, .again hg hfull hhead, hends⟩
        · rename_i hshort
          exact ⟨p, _, .first _ _, .short hg hshort⟩

/-- Every full read has used up an answer. -/
theorem LoopHead.size {p q : Parse} {i j : Input} (h : LoopHead p i q j) :
    j.size < i.size ∨ j = i ∧ q = p := by
  induction h with
  | first p i => exact .inr ⟨rfl, rfl⟩
  | @again p p' q bs rest reallocs i j grown full head ih =>
    have hle := (growBuf_input p ⟨.bytes bs :: rest, reallocs⟩).2
    rw [grown] at hle
    left
    rcases ih with hlt | ⟨rfl, -⟩
    · simp only [Input.size, List.length_cons] at hlt hle ⊢
      omega
    · simp only [Input.size, List.length_cons] at hle ⊢
      omega

theorem readLoop_die {p p' : Parse} {reads : List ReadResult} {reallocs : List Bool}
    {input : Input} (h : readLoop p reads reallocs = .die p' input) :
    input.size < reads.length + reallocs.length ∨
      input.size = reads.length + reallocs.length ∧ p.data ≠ [] := by
  obtain ⟨q, j, hhead, hends⟩ := readLoop_ends p reads reallocs
  have hsize := hhead.size
  rw [h] at hends
  cases hends with
  | die refused =>
    rcases hsize with hlt | ⟨rfl, rfl⟩
    · rcases growBuf_fails refused with hlt' | ⟨rfl, -⟩
      · exact .inl (hlt'.trans hlt)
      · exact .inl hlt
    · rcases growBuf_fails refused with hlt' | ⟨rfl, hne⟩
      · exact .inl hlt'
      · exact .inr ⟨rfl, hne⟩

theorem LoopEnds.size {q p : Parse} {j k : Input} {res : ReadResult}
    (h : LoopEnds q j (.done res p k)) : k.size < j.size := by
  cases h with
  | @failed p rest reallocs k grown =>
    have hle := (growBuf_input q ⟨.failed :: rest, reallocs⟩).2
    rw [grown] at hle
    simp only [Input.size, List.length_cons] at hle ⊢
    omega
  | @short p bs rest reallocs k grown short =>
    have hle := (growBuf_input q ⟨.bytes bs :: rest, reallocs⟩).2
    rw [grown] at hle
    simp only [Input.size, List.length_cons] at hle ⊢
    omega

theorem readLoop_done {p p' : Parse} {reads : List ReadResult} {reallocs : List Bool}
    {res : ReadResult} {input : Input} (h : readLoop p reads reallocs = .done res p' input) :
    input.size < reads.length + reallocs.length := by
  obtain ⟨q, j, hhead, hends⟩ := readLoop_ends p reads reallocs
  rw [h] at hends
  rcases hhead.size with hlt | ⟨rfl, rfl⟩
  · exact hends.size.trans hlt
  · exact hends.size

/-- A callback that stays registered consumes an answer, or empties the buffer. -/
theorem parseCallback_progress {p : Parse} {input : Input}
    (h : (parseCallback p input).ret = some 0) :
    (parseCallback p input).input.size < input.size ∨
      (parseCallback p input).input.size = input.size ∧
        (parseCallback p input).parse.data.length < p.data.length := by
  unfold parseCallback at h ⊢
  cases hl : readLoop p input.reads input.reallocs with
  | blocked p' => rw [hl] at h; cases h
  | die p' input' =>
    rcases readLoop_die hl with hlt | ⟨heq, hne⟩
    · exact .inl hlt
    · exact .inr ⟨heq, List.length_pos_of_ne_nil hne⟩
  | done res p' input' =>
    have hlt := readLoop_done hl
    left
    simp only
    split
    · exact hlt
    · split <;> exact hlt

/-- Callbacks on one input for as long as answers are left and none asks to be
deregistered: the buffers handed to `parse`, in order. -/
def parseRun (p : Parse) (input : Input) : List Bytes :=
  if input.reads = [] then []
  else
    let cb := parseCallback p input
    if _ret : cb.ret = some 0 then cb.calls ++ parseRun cb.parse cb.input else cb.calls
termination_by (input.size, p.data.length)
decreasing_by
  rcases parseCallback_progress _ret with hlt | ⟨heq, hlt⟩
  · exact .left _ _ hlt
  · rw [heq]
    exact .right _ hlt

end Xdpacket
