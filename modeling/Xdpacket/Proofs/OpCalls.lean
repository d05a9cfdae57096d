import Xdpacket.Proofs.AllOrNothing
import Xdpacket.Proofs.NoLeaks

namespace Xdpacket

variable {w w₀ v : World} {live : Multiset Ref} {env : Env} {ops : List Op} {op : Op} {a : Addr}
  {n : Text}

/-- A call of `op_new`, or of `op_free` on the live operation at an index. -/
inductive OpCall where
  | new (dstFieldName dstStateName srcFieldName srcStateName srcValue : Option Text)
  | free (i : Nat)
deriving DecidableEq, Repr

/-- One call, and the operations that are live after it. -/
def opCall (env : Env) (call : OpCall) (ops : List Op) : M (List Op) := do
  match call with
  | .new dstFieldName dstStateName srcFieldName srcStateName srcValue =>
    match ← opNew env dstFieldName dstStateName srcFieldName srcStateName srcValue with
    | some op => return ops ++ [op]
    | none => return ops
  | .free i =>
    match ops[i]? with
    | some op => opFree op; return ops.eraseIdx i
    | none => return ops

def opCalls (env : Env) : List OpCall → List Op → M (List Op)
  | [], ops => return ops
  | call :: calls, ops => do
    let ops ← opCall env call ops
    opCalls env calls ops

section Runs

/-- What every call keeps: the live operations are held, and finished. -/
structure Held (w₀ : World) (live : Multiset Ref) (ops : List Op) (w : World) : Prop where
  consistent : Consistent w (opsRefs ops + live)
  same : Same w₀ w
  ok : ∀ op ∈ ops, OpOk w op

theorem opsRefs_eraseIdx {i : Nat} (h : ops[i]? = some op) :
    opsRefs ops = op.refs + opsRefs (ops.eraseIdx i) := by
  have hperm : ops.Perm (op :: ops.eraseIdx i) := by
    obtain ⟨hi, he⟩ := List.getElem?_eq_some_iff.mp h
    rw [← he]
    exact (List.getElem_cons_eraseIdx_perm hi).symm
  unfold opsRefs
  rw [(hperm.map Op.refs).sum_eq, List.map_cons, List.sum_cons]

/-- One call keeps the live operations held. -/
theorem opCall_held {call : OpCall} (h : Held w₀ live ops w) :
    Runs NoDangle (opCall env call ops) w (fun ops v => Held w₀ live ops v) := by
  cases call with
  | new df ds sf ss sv =>
    refine Runs.bind (opNew_does h.consistent) ?_
    intro r v hv
    obtain ⟨hsame, hc, hok⟩ := hv
    have hops : ∀ op ∈ ops, OpOk v op := fun op ho => (h.ok op ho).mono hsame.toGrows
    cases r with
    | none =>
      rw [Option.elim_none, zero_add] at hc
      exact ⟨hc, h.same.trans hsame, hops⟩
    | some op =>
      refine ⟨?_, h.same.trans hsame, ?_⟩
      · rw [opsRefs_append, opsRefs_cons, opsRefs_nil, add_zero, add_comm (opsRefs ops), add_assoc]
        exact hc
      · intro o ho
        rcases List.mem_append.mp ho with ho | ho
        · exact hops o ho
        · exact hok o (by rw [List.mem_singleton.mp ho])
  | free i =>
    unfold opCall
    cases hi : ops[i]? with
    | none =>
      simp only [hi]
      exact h
    | some op =>
      simp only [hi]
      have hc := h.consistent
      rw [opsRefs_eraseIdx hi, add_assoc] at hc
      refine Runs.bind (opFree_does hc) ?_
      intro _ v hv
      obtain ⟨hsame, hc⟩ := hv
      exact ⟨hc, h.same.trans hsame,
        fun o ho => (h.ok o (List.mem_of_mem_eraseIdx ho)).mono hsame.toGrows⟩

/-- Every sequence of calls does. -/
theorem opCalls_held {calls : List OpCall} (h : Held w₀ live ops w) :
    Runs NoDangle (opCalls env calls ops) w (fun ops v => Held w₀ live ops v) := by
  induction calls generalizing ops w with
  | nil => exact h
  | cons call calls ih => exact (opCall_held h).bind (fun _ _ hv => ih hv)

end Runs

section Accounts

/-- The sides of operations that hold the field at `a`. -/
def fieldSides (ops : List Op) (a : Addr) : Nat :=
  (ops.map (fun op => [op.dstField, op.srcField].count (some a))).sum

/-- The sides of operations that refer to the memref at `a`. -/
def memrefSides (ops : List Op) (a : Addr) : Nat :=
  (ops.map (fun op => [op.dst, op.src].count (some a))).sum

theorem count_holdOpt {ref : Addr → Ref} (hi : Function.Injective ref) (o : Option Addr) :
    (holdOpt ref o).count (ref a) = [o].count (some a) := by
  cases o with
  | none => simp [holdOpt]
  | some b =>
    by_cases hb : b = a
    · subst hb
      simp [holdOpt]
    · have hr : ref a ≠ ref b := fun he => hb (hi he).symm
      simp [holdOpt, hr, hb]

theorem count_holdOpt_ne {ref : Addr → Ref} {x : Ref} (h : ∀ b, x ≠ ref b) (o : Option Addr) :
    (holdOpt ref o).count x = 0 := by
  cases o with
  | none => rfl
  | some b => exact Multiset.count_eq_zero.mpr (fun hm => h b (Multiset.mem_singleton.mp hm))

theorem count_op_field : op.refs.count (.field a) = [op.dstField, op.srcField].count (some a) := by
  have hf : Function.Injective Ref.field := fun _ _ he => Ref.field.inj he
  have hm : ∀ o, (holdOpt .memref o).count (.field a) = 0 := count_holdOpt_ne (fun _ => by simp)
  simp only [Op.refs, Multiset.count_add, count_holdOpt hf, hm]
  simp only [List.count_cons, List.count_nil]
  omega

theorem count_op_memref : op.refs.count (.memref a) = [op.dst, op.src].count (some a) := by
  have hm : Function.Injective Ref.memref := fun _ _ he => Ref.memref.inj he
  have hf : ∀ o, (holdOpt .field o).count (.memref a) = 0 := count_holdOpt_ne (fun _ => by simp)
  simp only [Op.refs, Multiset.count_add, count_holdOpt hm, hf]
  simp only [List.count_cons, List.count_nil]
  omega

theorem count_opsRefs {x : Ref} {sides : Op → Nat} (h : ∀ op : Op, op.refs.count x = sides op) :
    (opsRefs ops).count x = (ops.map sides).sum := by
  induction ops with
  | nil => rfl
  | cons op ops ih => rw [opsRefs_cons, Multiset.count_add, h, ih, List.map_cons, List.sum_cons]

/-- The references to the state named `n`. -/
def World.stateRefs (w : World) (n : Text) : Nat :=
  (AList.lookup n w.stateJS).elim 0 (fun a => w.count (.memref a))

/-- One side of the operation is the state named `n`. -/
def Op.RefersTo (op : Op) (w : World) (n : Text) : Prop :=
  ∃ a r, (op.dst = some a ∨ op.src = some a) ∧ w.memrefs a = some r ∧ r.stateName = some n

/-- The state or value of a side is live and has the length and the mask of its set. -/
def SideBacked (w : World) (ref : Option Addr) (set : FieldSet) : Prop :=
  ∀ a, ref = some a → ∃ r, w.memrefs a = some r ∧ r.set.len = set.len ∧ r.set.mask = set.mask

/-- What calls that began in `w₀` have left, with `ops` live: nothing is counted but what was
held before and the sides of these operations. -/
structure Accounted (w₀ : World) (ops : List Op) (w : World) : Prop where
  fieldJS : w.fieldJS = w₀.fieldJS
  fields : ∀ a f, w₀.fields a = some f →
    w.fields a = some { f with refcnt := f.refcnt + fieldSides ops a }
  states : ∀ n a, AList.lookup n w.stateJS = some a → ∃ r, w.memrefs a = some r ∧
    r.stateName = some n ∧ r.count = w₀.stateRefs n + memrefSides ops a
  listed : ∀ n, (AList.lookup n w.stateJS).isSome ↔ 0 < w₀.stateRefs n ∨ ∃ op ∈ ops, op.RefersTo w n
  backed : ∀ op ∈ ops, SideBacked w op.set.to' op.set.setTo ∧ SideBacked w op.set.from' op.set.setFrom

theorem Held.count (h : Held w₀ live ops w) (h₀ : Consistent w₀ live) (x : Ref) :
    w.count x = w₀.count x + (opsRefs ops).count x := by
  have hb := h.consistent.balanced x
  have hb₀ := h₀.balanced x
  rw [h.same.stored, Multiset.count_add] at hb
  omega

theorem Held.field (h : Held w₀ live ops w) (h₀ : Consistent w₀ live) {f : Field}
    (hf : w₀.fields a = some f) :
    w.fields a = some { f with refcnt := f.refcnt + fieldSides ops a } := by
  obtain ⟨g, hg, hk⟩ := h.same.fieldKeys.live hf
  have hc := h.count h₀ (.field a)
  rw [count_opsRefs (fun op => count_op_field)] at hc
  simp only [World.count, hf, hg, Option.elim_some] at hc
  cases f
  cases g
  simp only [Field.key, Prod.mk.injEq] at hk
  obtain ⟨rfl, rfl⟩ := hk
  simp only at hc
  rw [hg, hc]
  rfl

/-- A state that was there is there still, as it was held all along. -/
theorem Held.lookup (h : Held w₀ live ops w) (h₀ : Consistent w₀ live)
    (hl : AList.lookup n w₀.stateJS = some a) : AList.lookup n w.stateJS = some a := by
  obtain ⟨q, hq, hn⟩ := h₀.states.found hl
  have hpos : 0 < w₀.count (.memref a) := by
    simp only [World.count, hq, Option.elim_some]
    exact h₀.counted a q hq
  obtain ⟨r, hr⟩ := memref_of_count (w := w) (a := a) (by have := h.count h₀ (.memref a); omega)
  obtain ⟨q', hq', hk⟩ := h.same.memrefs a (h₀.fresh.memrefs.below hq) r hr
  rw [hq] at hq'
  cases hq'
  have hname : r.stateName = q.stateName := congrArg Prod.snd hk
  exact h.consistent.states.listed hr (hname.trans hn)

theorem Held.state (h : Held w₀ live ops w) (h₀ : Consistent w₀ live)
    (hl : AList.lookup n w.stateJS = some a) : ∃ r, w.memrefs a = some r ∧
      r.stateName = some n ∧ r.count = w₀.stateRefs n + memrefSides ops a := by
  obtain ⟨r, hr, hn⟩ := h.consistent.states.found hl
  refine ⟨r, hr, hn, ?_⟩
  have hc := h.count h₀ (.memref a)
  rw [count_opsRefs (fun op => count_op_memref)] at hc
  simp only [World.count, hr, Option.elim_some] at hc
  rw [hc]
  congr 1
  unfold World.stateRefs
  cases hl₀ : AList.lookup n w₀.stateJS with
  | some b =>
    have hb := h.lookup h₀ hl₀
    rw [hl] at hb
    cases hb
    rfl
  | none =>
    -- a state made by one of the calls
    cases hm : w₀.memrefs a with
    | none => rfl
    | some q =>
      obtain ⟨q', hq', hk⟩ := h.same.memrefs a (h₀.fresh.memrefs.below hm) r hr
      rw [hm] at hq'
      cases hq'
      have hname : r.stateName = q.stateName := congrArg Prod.snd hk
      rw [h₀.states.listed hm (hname ▸ hn)] at hl₀
      cases hl₀

theorem Held.listed (h : Held w₀ live ops w) (h₀ : Consistent w₀ live) :
    (AList.lookup n w.stateJS).isSome ↔
      0 < w₀.stateRefs n ∨ ∃ op ∈ ops, op.RefersTo w n := by
  constructor
  · intro hs
    obtain ⟨a, hl⟩ := Option.isSome_iff_exists.mp hs
    obtain ⟨r, hr, hn, hc⟩ := h.state h₀ hl
    have hpos := h.consistent.counted a r hr
    by_cases hz : 0 < w₀.stateRefs n
    · exact .inl hz
    · refine .inr ?_
      by_contra hno
      push Not at hno
      have hzero : memrefSides ops a = 0 := by
        refine List.sum_eq_zero ?_
        intro x hx
        obtain ⟨op, ho, rfl⟩ := List.mem_map.mp hx
        rw [List.count_eq_zero]
        intro hm
        refine hno op ho ⟨a, r, ?_, hr, hn⟩
        simp only [List.mem_cons, List.not_mem_nil, or_false] at hm
        exact hm.imp Eq.symm Eq.symm
      omega
  · intro hs
    rcases hs with hz | hs
    · unfold World.stateRefs at hz
      cases hl : AList.lookup n w₀.stateJS with
      | none =>
        rw [hl] at hz
        cases hz
      | some a =>
        rw [h.lookup h₀ hl]
        rfl
    · obtain ⟨op, -, a, r, -, hr, hn⟩ := hs
      rw [h.consistent.states.listed hr hn]
      rfl

theorem Held.backed (h : Held w₀ live ops w) (ho : op ∈ ops) :
    SideBacked w op.set.to' op.set.setTo ∧ SideBacked w op.set.from' op.set.setFrom := by
  have hok := h.ok op ho
  have hlive : ∀ b, Ref.memref b ∈ op.refs → ∃ r, w.memrefs b = some r := by
    intro b hb
    exact h.consistent.memref_live (Multiset.mem_add.mpr (.inl (mem_opsRefs ho hb)))
  rw [hok.to', hok.from']
  constructor
  · intro b hb
    obtain ⟨r, hr⟩ := hlive b (by simp [Op.refs, hb, holdOpt])
    exact ⟨r, hr, (hok.dst b hb).2 r hr⟩
  · intro b hb
    obtain ⟨r, hr⟩ := hlive b (by simp [Op.refs, hb, holdOpt])
    exact ⟨r, hr, (hok.src b hb).2 r hr⟩

theorem Held.accounted (h : Held w₀ live ops w) (h₀ : Consistent w₀ live) : Accounted w₀ ops w where
  fieldJS := h.same.fieldJS
  fields := fun _ _ hf => h.field h₀ hf
  states := fun _ _ hl => h.state h₀ hl
  listed := fun _ => h.listed h₀
  backed := fun _ ho => h.backed ho

/-- A call of `op_new` that fails leaves no trace, and neither does one whose operation is
freed again. -/
def HandsOpBack (env : Env) (w : World) : Prop :=
  ∀ df ds sf ss sv, Runs NoDangle (opNew env df ds sf ss sv) w (fun r v => match r with
    | none => Untouched w v
    | some op => Runs NoDangle (opFree op) v (fun _ u => Untouched w u))

theorem Consistent.handsOpBack (h : Consistent w live) : HandsOpBack env w := by
  intro df ds sf ss sv
  refine Runs.imp (opNew_does h) ?_
  intro r v hv
  obtain ⟨hsame, hc, -⟩ := hv
  cases r with
  | none =>
    rw [Option.elim_none, zero_add] at hc
    exact hsame.untouched h hc
  | some op =>
    refine Runs.imp (opFree_does hc) ?_
    intro _ u hu
    exact (hsame.trans hu.1).untouched h hu.2

/-- After any calls of `op_new` and `op_free` every count is the number of holders. -/
theorem op_calls_accounted (h : Consistent w₀ live) (calls : List OpCall) :
    Runs NoDangle (opCalls env calls []) w₀ (fun ops w => Accounted w₀ ops w ∧ HandsOpBack env w) := by
  have hheld : Held w₀ live [] w₀ :=
    ⟨by rwa [opsRefs_nil, zero_add], .refl h.fresh, fun _ ho => (by cases ho)⟩
  refine (opCalls_held hheld).imp ?_
  intro ops w hw
  exact ⟨hw.accounted h, hw.consistent.handsOpBack⟩

theorem byteField_runs : Runs (fun _ => False) (handleAll .sample [byteFieldAdd])
    (World.start [] [] []) (fun _ _ => True) := by
  decide +kernel

theorem op_calls_accounted_byteState : ∃ w, handleAll .sample [byteFieldAdd]
      (World.start [] [] []) = .ok ((), w) ∧
    Runs NoDangle (opCalls .sample [.new (some "f") (some "s") (some "f") none none,
      .new (some "g") none (some "f") none none, .free 0] []) w
      (fun ops v => Accounted w ops v ∧ HandsOpBack .sample v) := by
  obtain ⟨_, w, hw, -⟩ := byteField_runs.exists_ok
  obtain ⟨live, hc⟩ := Reachable.consistent ⟨[], [], [], [byteFieldAdd], hw⟩
  exact ⟨w, hw, op_calls_accounted hc _⟩

end Accounts

end Xdpacket
