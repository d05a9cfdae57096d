import Xdpacket.Lib.Runs
import Xdpacket.Model.Process

namespace Xdpacket

/-- The program leaves the memory as it was, wherever it ends normally. -/
def Reads (x : MemM α) : Prop := ∀ m, Runs (fun _ => True) x m (fun _ t => t = m)

theorem Reads.bind {x : MemM α} {k : α → MemM β} (hx : Reads x) (hk : ∀ a, Reads (k a)) :
    Reads (x >>= k) := by
  intro m
  refine (hx m).bind ?_
  rintro a t rfl
  exact hk a t

theorem Reads.pure (a : α) : Reads (Pure.pure a : MemM α) := fun _ => rfl

theorem load_reads (p : Ptr) (i : Nat) : Reads (load p i) := by
  intro m
  unfold Runs load
  cases m.bytes p.region with
  | none => trivial
  | some bs => cases h : bs[p.off + i]? <;> simp [h]

theorem loadRange_reads (p : Ptr) (n : Nat) : Reads (loadRange p n) := by
  induction n with
  | zero => exact .pure _
  | succ n ih => exact ih.bind fun _ => (load_reads p n).bind fun _ => .pure _

theorem opMatch_reads (op : OpSet) : Reads (opMatch op) := by
  intro m
  unfold opMatch
  rw [Runs.bind_iff, Runs.get_iff]
  cases opCommon op m.pkt.length with
  | fail => simp
  | nop => simp
  | span len to' from' =>
    have hc : Reads (memcmp to' from' len) :=
      (loadRange_reads _ _).bind fun _ => (loadRange_reads _ _).bind fun _ => .pure _
    refine hc.bind (fun differ => ?_) m
    split
    · exact .pure _
    · refine (load_reads _ _).bind fun t => (load_reads _ _).bind fun f => ?_
      split <;> exact .pure _

/-- One match operation on the packet as it is: what it answers. -/
def Answers (w : World) (op : Op) (rc : Nat) : Prop := opMatch op.set w.toMem = .ok (rc, w.toMem)

/-- `op_match` inside the whole program only answers. -/
theorem match_answers {w v : World} {op : Op} {rc : Nat} :
    liftMem (opMatch op.set) w = .ok (rc, v) ↔ Answers w op rc ∧ v = w := by
  unfold liftMem Answers
  cases h : opMatch op.set w.toMem with
  | error e => simp
  | ok p =>
    obtain ⟨n, m⟩ := p
    obtain rfl := (opMatch_reads op.set w.toMem).ok h
    simp only [Except.ok.injEq, Prod.mk.injEq]
    constructor
    · rintro ⟨rfl, rfl⟩
      exact ⟨⟨rfl, trivial⟩, rfl⟩
    · rintro ⟨⟨rfl, -⟩, rfl⟩
      exact ⟨rfl, rfl⟩

/-- The queue behind a copied root is live and holds `ops`. -/
def HasQueue (w : World) (queue : Rule → List Op) (root : Option Addr) (ops : List Op) : Prop :=
  match root with
  | none => ops = []
  | some a => ∃ r, w.rules a = some r ∧ queue r = ops

/-- All match operations of the rout set accept the packet as received. -/
def Accepts (w : World) (rst : Addr) : Prop :=
  ∃ set ms, w.rsets rst = some set ∧ HasQueue w Rule.matchJQ set.matchJQ ms ∧
    ∀ op ∈ ms, Answers w op 0

/-- Some match operation of the rout set refuses the packet, after others that accept. -/
def Refuses (w : World) (rst : Addr) : Prop :=
  ∃ set before op after rc, w.rsets rst = some set ∧
    HasQueue w Rule.matchJQ set.matchJQ (before ++ op :: after) ∧
    (∀ o ∈ before, Answers w o 0) ∧ Answers w op rc ∧ rc ≠ 0

/-- The operations `ops`, one after the other, each applied. -/
inductive Applied (env : Env) : List Op → World → World → Prop where
  | nil (w) : Applied env [] w w
  | cons (op ops w v u) (first : opWriteRecorded env op.set w = .ok (0, v))
      (rest : Applied env ops v u) : Applied env (op :: ops) w u

/-- The count of the rout set at `rst`, one up. -/
def countMatch (w : World) (rst : Addr) (set : RoutSet) : World :=
  { w with
    rsets := Function.update w.rsets rst (some { set with countMatch := set.countMatch + 1 }) }

/-- What the matching rout does: count, write in order up to the first failure,
and output once if there was none. -/
inductive Acts (env : Env) (w : World) (rst : Addr) : World → Prop where
  | output (set ws u v n) (found : w.rsets rst = some set)
      (queue : HasQueue w Rule.writeJQ set.writeJQ ws)
      (all : Applied env ws (countMatch w rst set) u)
      (sent : ifaceOutput env set.ifOut u = .ok (n, v)) : Acts env w rst v
  | discard (set before op after u v rc) (found : w.rsets rst = some set)
      (queue : HasQueue w Rule.writeJQ set.writeJQ (before ++ op :: after))
      (applied : Applied env before (countMatch w rst set) u)
      (failed : opWriteRecorded env op.set u = .ok (rc, v)) (nonzero : rc ≠ 0) : Acts env w rst v

/-- The reference: the first rout in configuration order that accepts the
packet acts, and no other; without one nothing changes. -/
inductive FirstMatch (env : Env) (rsts : List Addr) (w : World) : World → Prop where
  | none (all : ∀ rst ∈ rsts, Refuses w rst) : FirstMatch env rsts w w
  | first (before k after v) (order : rsts = before ++ k :: after)
      (earlier : ∀ rst ∈ before, Refuses w rst) (accepts : Accepts w k)
      (acts : Acts env w k v) : FirstMatch env rsts w v

theorem deref_ok {heap : World → Heap α} {a : Addr} {w v : World} {o : α} :
    deref heap a w = .ok (o, v) ↔ heap w a = some o ∧ v = w := by
  unfold deref
  rw [bind_eq_ok]
  constructor
  · rintro ⟨_, _, hg, hk⟩
    cases hg
    cases h : heap w a with
    | none => rw [h] at hk; cases hk
    | some p =>
      rw [h] at hk
      obtain ⟨rfl, rfl⟩ := pure_eq_ok.mp hk
      exact ⟨rfl, rfl⟩
  · rintro ⟨h, rfl⟩
    refine ⟨v, v, rfl, ?_⟩
    rw [h]
    rfl

theorem opQueue_ok {queue : Rule → List Op} {root : Option Addr} {w v : World} {ops : List Op} :
    opQueue queue root w = .ok (ops, v) ↔ HasQueue w queue root ops ∧ v = w := by
  unfold opQueue HasQueue
  cases root with
  | none => exact pure_eq_ok
  | some a =>
    simp only [bind_eq_ok, deref_ok, pure_eq_ok]
    constructor
    · rintro ⟨r, _, ⟨hr, rfl⟩, rfl, rfl⟩
      exact ⟨⟨r, hr, rfl⟩, rfl⟩
    · rintro ⟨⟨r, hr, rfl⟩, rfl⟩
      exact ⟨r, v, ⟨hr, rfl⟩, rfl, rfl⟩

theorem matchAll_true {ops : List Op} {w v : World} :
    matchAll ops w = .ok (true, v) ↔ (∀ op ∈ ops, Answers w op 0) ∧ v = w := by
  induction ops with
  | nil => simp [matchAll, pure_eq_ok]
  | cons op ops ih =>
    simp only [matchAll, bind_eq_ok, match_answers, List.mem_cons, forall_eq_or_imp]
    constructor
    · rintro ⟨rc, _, ⟨ha, rfl⟩, hk⟩
      split at hk
      · exact absurd (pure_eq_ok.mp hk).1 (by simp)
      · rename_i hz
        obtain rfl : rc = 0 := by simpa using hz
        exact ⟨⟨ha, (ih.mp hk).1⟩, (ih.mp hk).2⟩
    · rintro ⟨⟨ha, ht⟩, rfl⟩
      exact ⟨0, v, ⟨ha, rfl⟩, by simpa using ih.mpr ⟨ht, rfl⟩⟩

theorem matchAll_false {ops : List Op} {w v : World} :
    matchAll ops w = .ok (false, v) ↔
      (∃ before op after rc, ops = before ++ op :: after ∧ (∀ o ∈ before, Answers w o 0) ∧
        Answers w op rc ∧ rc ≠ 0) ∧ v = w := by
  induction ops with
  | nil => simp [matchAll, pure_eq_ok]
  | cons op ops ih =>
    simp only [matchAll, bind_eq_ok, match_answers]
    constructor
    · rintro ⟨rc, _, ⟨ha, rfl⟩, hk⟩
      split at hk
      · rename_i hz
        exact ⟨⟨[], op, ops, rc, rfl, by simp, ha, hz⟩, (pure_eq_ok.mp hk).2⟩
      · rename_i hz
        obtain rfl : rc = 0 := by simpa using hz
        obtain ⟨⟨before, o, after, rc, rfl, hb, ho, hne⟩, rfl⟩ := ih.mp hk
        refine ⟨⟨op :: before, o, after, rc, rfl, ?_, ho, hne⟩, rfl⟩
        simpa using ⟨ha, hb⟩
    · rintro ⟨⟨before, o, after, rc, he, hb, ho, hne⟩, rfl⟩
      cases before with
      | nil =>
        obtain ⟨rfl, rfl⟩ := List.cons.inj he
        exact ⟨rc, v, ⟨ho, rfl⟩, by rw [if_pos hne]; rfl⟩
      | cons b before =>
        obtain ⟨rfl, rfl⟩ := List.cons.inj he
        refine ⟨0, v, ⟨hb op (by simp), rfl⟩, ?_⟩
        rw [if_neg (by simp)]
        exact ih.mpr ⟨⟨before, o, after, rc, rfl, fun p hp => hb p (by simp [hp]), ho, hne⟩, rfl⟩

theorem routSetMatch_false {rst : Addr} {w v : World} :
    routSetMatch rst w = .ok (false, v) ↔ Refuses w rst ∧ v = w := by
  simp only [routSetMatch, bind_eq_ok, deref_ok, opQueue_ok]
  constructor
  · rintro ⟨set, _, ⟨hs, rfl⟩, ms, _, ⟨hq, rfl⟩, b, u, hm, hk⟩
    cases b with
    | true =>
      obtain ⟨_, _, _, hp⟩ := bind_eq_ok.mp hk
      exact absurd (pure_eq_ok.mp hp).1 (by simp)
    | false =>
      obtain ⟨⟨before, op, after, rc, rfl, hb, ho, hne⟩, rfl⟩ := matchAll_false.mp hm
      exact ⟨⟨set, before, op, after, rc, hs, hq, hb, ho, hne⟩, (pure_eq_ok.mp hk).2⟩
  · rintro ⟨⟨set, before, op, after, rc, hs, hq, hb, ho, hne⟩, rfl⟩
    refine ⟨set, v, ⟨hs, rfl⟩, _, v, ⟨hq, rfl⟩, false, v, ?_, rfl⟩
    exact matchAll_false.mpr ⟨⟨before, op, after, rc, rfl, hb, ho, hne⟩, rfl⟩

theorem routSetMatch_true {rst : Addr} {w v : World} :
    routSetMatch rst w = .ok (true, v) ↔
      Accepts w rst ∧ ∃ set, w.rsets rst = some set ∧ v = countMatch w rst set := by
  simp only [routSetMatch, bind_eq_ok, deref_ok, opQueue_ok]
  constructor
  · rintro ⟨set, _, ⟨hs, rfl⟩, ms, _, ⟨hq, rfl⟩, b, u, hm, hk⟩
    cases b with
    | false => exact absurd (pure_eq_ok.mp hk).1 (by simp)
    | true =>
      obtain ⟨ha, rfl⟩ := matchAll_true.mp hm
      obtain ⟨_, _, hput, hp⟩ := bind_eq_ok.mp hk
      cases hput
      exact ⟨⟨set, ms, hs, hq, ha⟩, set, hs, (pure_eq_ok.mp hp).2⟩
  · rintro ⟨⟨set, ms, hs, hq, ha⟩, set', hs', rfl⟩
    rw [hs] at hs'
    cases hs'
    exact ⟨set, w, ⟨hs, rfl⟩, ms, w, ⟨hq, rfl⟩, true, w, matchAll_true.mpr ⟨ha, rfl⟩, rfl⟩

/-- A write changes the packet, the memrefs and the history only. -/
theorem opWriteRecorded_only {env : Env} {op : OpSet} {w v : World} {rc : Nat}
    (h : opWriteRecorded env op w = .ok (rc, v)) :
    v = { w with toMem := v.toMem, written := v.written } := by
  simp only [opWriteRecorded, bind_eq_ok] at h
  obtain ⟨_, _, hg, n, u, hw, hk⟩ := h
  cases hg
  have hu : u = { w with toMem := u.toMem } := by
    unfold liftMem at hw
    split at hw
    · cases hw
      rfl
    · cases hw
  split at hk
  · obtain ⟨_, _, hm, hp⟩ := bind_eq_ok.mp hk
    cases hm
    obtain ⟨-, rfl⟩ := pure_eq_ok.mp hp
    rw [hu]
  · obtain ⟨-, rfl⟩ := pure_eq_ok.mp hk
    rw [hu]

theorem opWriteRecorded_frame {env : Env} {op : OpSet} {w v : World} {rc : Nat}
    (h : opWriteRecorded env op w = .ok (rc, v)) : v.rsets = w.rsets ∧ v.rules = w.rules := by
  rw [opWriteRecorded_only h]
  exact ⟨rfl, rfl⟩

theorem Applied.frame {env : Env} {ops : List Op} {w v : World} (h : Applied env ops w v) :
    v.rsets = w.rsets ∧ v.rules = w.rules := by
  induction h with
  | nil => exact ⟨rfl, rfl⟩
  | cons op ops w v u first rest ih =>
    obtain ⟨hs, hr⟩ := opWriteRecorded_frame first
    exact ⟨ih.1.trans hs, ih.2.trans hr⟩

theorem writeAll_true {env : Env} {ops : List Op} {w v : World} :
    writeAll env ops w = .ok (true, v) ↔ Applied env ops w v := by
  induction ops generalizing w with
  | nil =>
    simp only [writeAll, pure_eq_ok, true_and]
    constructor
    · rintro rfl
      exact .nil v
    · intro h
      cases h
      rfl
  | cons op ops ih =>
    simp only [writeAll, bind_eq_ok]
    constructor
    · rintro ⟨rc, u, hw, hk⟩
      split at hk
      · exact absurd (pure_eq_ok.mp hk).1 (by simp)
      · rename_i hz
        obtain rfl : rc = 0 := by simpa using hz
        exact .cons op ops w u v hw (ih.mp hk)
    · intro h
      cases h with
      | cons _ _ _ u _ first rest => exact ⟨0, u, first, by simpa using ih.mpr rest⟩

theorem writeAll_false {env : Env} {ops : List Op} {w v : World} :
    writeAll env ops w = .ok (false, v) ↔
      ∃ before op after u rc, ops = before ++ op :: after ∧ Applied env before w u ∧
        opWriteRecorded env op.set u = .ok (rc, v) ∧ rc ≠ 0 := by
  induction ops generalizing w with
  | nil => simp [writeAll, pure_eq_ok]
  | cons op ops ih =>
    simp only [writeAll, bind_eq_ok]
    constructor
    · rintro ⟨rc, u, hw, hk⟩
      split at hk
      · rename_i hz
        obtain ⟨-, rfl⟩ := pure_eq_ok.mp hk
        exact ⟨[], op, ops, w, rc, rfl, .nil w, hw, hz⟩
      · rename_i hz
        obtain rfl : rc = 0 := by simpa using hz
        obtain ⟨before, o, after, u', rc, rfl, ha, ho, hne⟩ := ih.mp hk
        exact ⟨op :: before, o, after, u', rc, rfl, .cons op before w u u' hw ha, ho, hne⟩
    · rintro ⟨before, o, after, u, rc, he, ha, ho, hne⟩
      cases ha with
      | nil =>
        obtain ⟨rfl, rfl⟩ := List.cons.inj he
        exact ⟨rc, v, ho, by rw [if_pos hne]; rfl⟩
      | cons _ before _ u' _ first rest =>
        obtain ⟨rfl, rfl⟩ := List.cons.inj he
        refine ⟨0, u', first, ?_⟩
        rw [if_neg (by simp)]
        exact ih.mpr ⟨before, o, after, u, rc, rfl, rest, ho, hne⟩

theorem Acts.of_loop {env : Env} {rst : Addr} {w v : World} {set : RoutSet}
    (found : w.rsets rst = some set) :
    Acts env w rst v ↔ ∃ done u, routSetExec env rst (countMatch w rst set) = .ok (done, u) ∧
      if done then ∃ n, ifaceOutput env set.ifOut u = .ok (n, v) else v = u := by
  have hc : (countMatch w rst set).rsets rst =
      some { set with countMatch := set.countMatch + 1 } := Function.update_self ..
  have hq : ∀ ops, HasQueue (countMatch w rst set) Rule.writeJQ set.writeJQ ops ↔
      HasQueue w Rule.writeJQ set.writeJQ ops := fun _ => Iff.rfl
  simp only [routSetExec, bind_eq_ok, deref_ok, opQueue_ok]
  constructor
  · intro h
    cases h with
    | output set' ws u _ n hs queue all sent =>
      rw [found] at hs
      cases hs
      exact ⟨true, u, ⟨_, _, ⟨hc, rfl⟩, ws, _, ⟨(hq ws).mpr queue, rfl⟩, writeAll_true.mpr all⟩,
        n, sent⟩
    | discard set' before op after u _ rc hs queue applied failed nonzero =>
      rw [found] at hs
      cases hs
      exact ⟨false, v, ⟨_, _, ⟨hc, rfl⟩, _, _, ⟨(hq _).mpr queue, rfl⟩,
        writeAll_false.mpr ⟨before, op, after, u, rc, rfl, applied, failed, nonzero⟩⟩, rfl⟩
  · rintro ⟨done, u, ⟨_, _, ⟨hs, rfl⟩, ws, _, ⟨queue, rfl⟩, hw⟩, hd⟩
    rw [hc] at hs
    cases hs
    cases done with
    | true =>
      obtain ⟨n, sent⟩ := hd
      exact .output set ws u v n found ((hq ws).mp queue) (writeAll_true.mp hw) sent
    | false =>
      obtain rfl : v = u := hd
      obtain ⟨before, op, after, u', rc, rfl, applied, failed, nonzero⟩ := writeAll_false.mp hw
      exact .discard set before op after u' v rc found ((hq _).mp queue) applied failed nonzero

theorem routSetExec_frame {env : Env} {rst : Addr} {w v : World} {done : Bool}
    (h : routSetExec env rst w = .ok (done, v)) : v.rsets = w.rsets := by
  simp only [routSetExec, bind_eq_ok, deref_ok, opQueue_ok] at h
  obtain ⟨_, _, ⟨_, rfl⟩, ws, _, ⟨_, rfl⟩, hw⟩ := h
  cases done with
  | true => exact (writeAll_true.mp hw).frame.1
  | false =>
    obtain ⟨_, _, _, _, _, rfl, applied, failed, _⟩ := writeAll_false.mp hw
    exact (opWriteRecorded_frame failed).1.trans applied.frame.1

/-- The body of the loop, once the rout set matched. -/
theorem loop_acts {env : Env} {rst : Addr} {rsts : List Addr} {w v : World}
    (ha : Accepts w rst) :
    processExecAll env (rst :: rsts) w = .ok ((), v) ↔ Acts env w rst v := by
  obtain ⟨set, ms, hs, hrest⟩ := ha
  have hm : routSetMatch rst w = .ok (true, countMatch w rst set) :=
    routSetMatch_true.mpr ⟨⟨set, ms, hs, hrest⟩, set, hs, rfl⟩
  have hc : (countMatch w rst set).rsets rst =
      some { set with countMatch := set.countMatch + 1 } := Function.update_self ..
  rw [Acts.of_loop hs]
  simp only [processExecAll, bind_eq_ok, hm, Except.ok.injEq, Prod.mk.injEq]
  constructor
  · rintro ⟨_, _, ⟨rfl, rfl⟩, hk⟩
    simp only [if_true] at hk
    obtain ⟨done, u, he, hk⟩ := bind_eq_ok.mp hk
    refine ⟨done, u, he, ?_⟩
    cases done with
    | true =>
      simp only [if_true, bind_eq_ok, deref_ok] at hk ⊢
      obtain ⟨set', _, ⟨hs', rfl⟩, n, t, ho, hp⟩ := hk
      rw [routSetExec_frame he, hc] at hs'
      cases hs'
      obtain ⟨-, rfl⟩ := pure_eq_ok.mp hp
      exact ⟨n, ho⟩
    | false => exact (pure_eq_ok.mp hk).2
  · rintro ⟨done, u, he, hd⟩
    refine ⟨true, _, ⟨rfl, rfl⟩, ?_⟩
    simp only [if_true]
    refine bind_eq_ok.mpr ⟨done, u, he, ?_⟩
    cases done with
    | true =>
      obtain ⟨n, ho⟩ := hd
      simp only [if_true, bind_eq_ok, deref_ok]
      have hu : u.rsets rst = some { set with countMatch := set.countMatch + 1 } := by
        rw [routSetExec_frame he, hc]
      exact ⟨_, u, ⟨hu, rfl⟩, n, v, ho, rfl⟩
    | false =>
      obtain rfl : v = u := hd
      rfl

theorem loop_next {env : Env} {rst : Addr} {rsts : List Addr} {w v : World}
    (hr : Refuses w rst) :
    processExecAll env (rst :: rsts) w = .ok ((), v) ↔ processExecAll env rsts w = .ok ((), v) := by
  have hm : routSetMatch rst w = .ok (false, w) := routSetMatch_false.mpr ⟨hr, rfl⟩
  simp only [processExecAll, bind_eq_ok, hm, Except.ok.injEq, Prod.mk.injEq]
  constructor
  · rintro ⟨_, _, ⟨rfl, rfl⟩, hk⟩
    simpa using hk
  · intro hk
    exact ⟨false, w, ⟨rfl, rfl⟩, by simpa using hk⟩

/-- A turn of the loop that ended normally either accepted or refused. -/
theorem loop_cases {env : Env} {rst : Addr} {rsts : List Addr} {w v : World}
    (h : processExecAll env (rst :: rsts) w = .ok ((), v)) : Accepts w rst ∨ Refuses w rst := by
  simp only [processExecAll, bind_eq_ok] at h
  obtain ⟨b, u, hm, -⟩ := h
  cases b with
  | true => exact .inl (routSetMatch_true.mp hm).1
  | false => exact .inr (routSetMatch_false.mp hm).1

/-- The loop and the reference agree on every queue of rout sets. -/
theorem loop_first_match {env : Env} {rsts : List Addr} {w v : World} :
    processExecAll env rsts w = .ok ((), v) ↔ FirstMatch env rsts w v := by
  induction rsts with
  | nil =>
    simp only [processExecAll, pure_eq_ok, true_and]
    constructor
    · rintro rfl
      exact .none (by simp)
    · intro h
      cases h with
      | none => rfl
      | first before k after _ order => simp at order
  | cons rst rsts ih =>
    constructor
    · intro h
      rcases loop_cases h with ha | hr
      · exact .first [] rst rsts v rfl (by simp) ha ((loop_acts ha).mp h)
      · cases ih.mp ((loop_next hr).mp h) with
        | none all => exact .none (by simpa using ⟨hr, all⟩)
        | first before k after _ order earlier accepts acts =>
          exact .first (rst :: before) k after v (by rw [order]; rfl)
            (by simpa using ⟨hr, earlier⟩) accepts acts
    · intro h
      cases h with
      | none all =>
        exact (loop_next (all rst (by simp))).mpr (ih.mpr (.none fun r hr => all r (by simp [hr])))
      | first before k after _ order earlier accepts acts =>
        cases before with
        | nil =>
          obtain ⟨rfl, rfl⟩ := List.cons.inj order
          exact (loop_acts accepts).mpr acts
        | cons b before =>
          obtain ⟨rfl, rfl⟩ := List.cons.inj order
          refine (loop_next (earlier rst (by simp))).mpr (ih.mpr ?_)
          exact .first before k after v rfl (fun r hr => earlier r (by simp [hr])) accepts acts

/-- The rout sets behind a handler's context. -/
def HasRoutSets (w : World) (context : Option Addr) (rsts : List Addr) : Prop :=
  match context with
  | none => rsts = []
  | some a => ∃ pc, w.processes a = some pc ∧ pc.routSetJQ = rsts

/-- `process_exec` is the first-match reference. -/
theorem process_exec_first_match (env : Env) (context : Option Addr) (w v : World) :
    processExec env context w = .ok ((), v) ↔
      ∃ rsts, HasRoutSets w context rsts ∧ FirstMatch env rsts w v := by
  unfold processExec routSetQueue HasRoutSets
  cases context with
  | none => simp [loop_first_match]
  | some a =>
    simp only [bind_eq_ok, deref_ok, pure_eq_ok]
    constructor
    · rintro ⟨rsts, _, ⟨pc, _, ⟨hp, rfl⟩, rfl, rfl⟩, hk⟩
      exact ⟨_, ⟨pc, hp, rfl⟩, loop_first_match.mp hk⟩
    · rintro ⟨rsts, ⟨pc, hp, rfl⟩, hf⟩
      exact ⟨_, w, ⟨pc, w, ⟨hp, rfl⟩, rfl, rfl⟩, loop_first_match.mpr hf⟩

end Xdpacket
