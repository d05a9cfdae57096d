import Xdpacket.Proofs.ChecksumBounds
import Xdpacket.Proofs.Lifecycles
import Xdpacket.Proofs.Writes

namespace Xdpacket

variable {w v u : World} {live : Multiset Ref} {a rst : Addr} {env : Env}

/-- The writes of a history that go to the memref at `a`, applied to its bytes. -/
def replay (a : Addr) (ws : List Written) (bs : Bytes) : Bytes :=
  ws.foldl (fun bs x => if x.op.to' = some a then writeOver x.op x.src bs else bs) bs

/-- What an iface keeps while packets pass. -/
def Iface.wiring (i : Iface) : Text × Option Handler × Option Addr × Nat :=
  (i.name, i.handler, i.context, i.refcnt)

/-- Packets were handled: only counters and bytes have changed, and the bytes of
memrefs exactly by the writes that the history has gained. -/
structure Handles (w v : World) : Prop where
  next : v.next = w.next
  fields : v.fields = w.fields
  rules : v.rules = w.rules
  processes : v.processes = w.processes
  fieldJS : v.fieldJS = w.fieldJS
  stateJS : v.stateJS = w.stateJS
  ruleJS : v.ruleJS = w.ruleJS
  ifaceJS : v.ifaceJS = w.ifaceJS
  processJS : v.processJS = w.processJS
  tracked : v.tracked = w.tracked
  rsets : SameKeys RoutSet.key w.rsets v.rsets
  ifaces : SameKeys Iface.wiring w.ifaces v.ifaces
  memrefs : SameKeys (fun r => (r.kind, r.set)) w.memrefs v.memrefs
  writes : ∃ ws, v.written = w.written ++ ws ∧
    (∀ x ∈ ws, ∀ a, x.op.to' = some a → (w.memrefs a).isSome) ∧
    ∀ a, (v.memrefs a).map Memref.bytes = (w.memrefs a).map (fun r => replay a ws r.bytes)

theorem Handles.refl (w : World) : Handles w w where
  next := rfl
  fields := rfl
  rules := rfl
  processes := rfl
  fieldJS := rfl
  stateJS := rfl
  ruleJS := rfl
  ifaceJS := rfl
  processJS := rfl
  tracked := rfl
  rsets := .refl _ _
  ifaces := .refl _ _
  memrefs := .refl _ _
  writes := ⟨[], (List.append_nil _).symm, fun x hx => (by cases hx), fun _ => rfl⟩

theorem replay_append (a : Addr) (xs ys : List Written) (bs : Bytes) :
    replay a (xs ++ ys) bs = replay a ys (replay a xs bs) :=
  List.foldl_append ..

theorem Handles.trans (h : Handles w v) (h' : Handles v u) : Handles w u where
  next := h'.next.trans h.next
  fields := h'.fields.trans h.fields
  rules := h'.rules.trans h.rules
  processes := h'.processes.trans h.processes
  fieldJS := h'.fieldJS.trans h.fieldJS
  stateJS := h'.stateJS.trans h.stateJS
  ruleJS := h'.ruleJS.trans h.ruleJS
  ifaceJS := h'.ifaceJS.trans h.ifaceJS
  processJS := h'.processJS.trans h.processJS
  tracked := h'.tracked.trans h.tracked
  rsets := h.rsets.trans h'.rsets
  ifaces := h.ifaces.trans h'.ifaces
  memrefs := h.memrefs.trans h'.memrefs
  writes := by
    obtain ⟨xs, hx, hxl, hxb⟩ := h.writes
    obtain ⟨ys, hy, hyl, hyb⟩ := h'.writes
    refine ⟨xs ++ ys, by rw [hy, hx, List.append_assoc], ?_, ?_⟩
    · intro x hm a ha
      rcases List.mem_append.mp hm with hm | hm
      · exact hxl x hm a ha
      · rw [← h.memrefs.isSome a]
        exact hyl x hm a ha
    · intro a
      have hb := hxb a
      rw [hyb a]
      cases hv : v.memrefs a with
      | none =>
        rw [hv] at hb
        rw [Option.map_eq_none_iff.mp hb.symm]
        rfl
      | some r =>
        rw [hv] at hb
        obtain ⟨r', hr', hb'⟩ := Option.map_eq_some_iff.mp hb.symm
        rw [hr', Option.map_some, Option.map_some, replay_append, hb']

instance : IsTrans World Handles := ⟨fun _ _ _ => Handles.trans⟩

theorem Handles.grows (h : Handles w v) : Grows w v where
  next := Nat.le_of_eq h.next.symm
  fields := by rw [h.fields]; exact .refl _ _ _
  memrefs := by
    intro a _ r hr
    obtain ⟨r', hr', hk⟩ := h.memrefs.evolves (a + 1) a (Nat.lt_succ_self a) r hr
    refine ⟨r', hr', ?_⟩
    simp only [Prod.mk.injEq] at hk
    simp only [Memref.key, Memref.stateName, hk.1, hk.2]
  rules := by rw [h.rules]; exact .refl _ _ _
  rsets := h.rsets.evolves _

theorem memrefCount_eq {r r' : Memref} (h : (r.kind, r.set) = (r'.kind, r'.set)) :
    r.count = r'.count ∧ r.stateName = r'.stateName := by
  simp only [Prod.mk.injEq] at h
  simp only [Memref.count, Memref.stateName, h.1, and_self]

theorem wiring_eq {i i' : Iface} (h : i.wiring = i'.wiring) :
    i.name = i'.name ∧ i.handler = i'.handler ∧ i.context = i'.context ∧ i.refcnt = i'.refcnt := by
  simpa only [Iface.wiring, Prod.mk.injEq] using h

theorem Handles.count (h : Handles w v) : v.count = w.count := by
  funext r
  cases r with
  | field a => simp only [World.count, h.fields]
  | rule a => simp only [World.count, h.rules]
  | memref a =>
    exact h.memrefs.congr (f := fun o => o.elim 0 Memref.count)
      (fun _ _ hk => (memrefCount_eq hk).1) a
  | iface a =>
    exact h.ifaces.congr (f := fun o => o.elim 0 Iface.refcnt)
      (fun _ _ hk => (wiring_eq hk).2.2.2) a
  | rset a => exact h.rsets.congr (f := fun o => o.elim 0 (fun _ => 1)) (fun _ _ _ => rfl) a

theorem Handles.stored (h : Handles w v) : v.stored = w.stored := by
  have hr : ∀ x, v.ruleHolds x = w.ruleHolds x := by
    intro x
    funext a
    simp only [World.ruleHolds, h.rules]
  have hp : ∀ x, v.processHolds x = w.processHolds x := by
    intro x
    funext a
    simp only [World.processHolds, h.processes]
  funext x
  simp only [World.stored, hr, hp, h.ruleJS, h.processJS]

theorem Handles.stateName (h : Handles w v) (a : Addr) :
    (v.memrefs a).bind Memref.stateName = (w.memrefs a).bind Memref.stateName :=
  h.memrefs.congr (f := fun o => o.bind Memref.stateName) (fun _ _ hk => (memrefCount_eq hk).2) a

theorem Handles.ifaceName (h : Handles w v) (a : Addr) :
    (v.ifaces a).map Iface.name = (w.ifaces a).map Iface.name :=
  h.ifaces.congr (f := Option.map Iface.name)
    (fun _ _ hk => congrArg some (wiring_eq hk).1) a

/-- Handling packets keeps the invariant. -/
theorem Handles.consistent (h : Handles w v) (hw : Consistent w live) : Consistent v live where
  balanced := by
    rw [h.count, h.stored]
    exact hw.balanced
  fields := by
    rw [h.fieldJS, h.fields]
    exact hw.fields
  states := by
    rw [h.stateJS]
    exact hw.states.congr h.stateName
  rules := by
    rw [h.ruleJS, h.rules]
    exact hw.rules
  ifaces := by
    rw [h.ifaceJS]
    exact hw.ifaces.congr (h.ifaces.congr (f := fun o => o.bind (fun i => some i.name))
      (fun _ _ hk => congrArg some (wiring_eq hk).1))
  processes := by
    rw [h.processJS, h.processes]
    apply hw.processes.congr
    intro a
    simp only [h.ifaceName]
  fresh :=
    { fields := by rw [h.next, h.fields]; exact hw.fresh.fields
      memrefs := by rw [h.next]; exact h.memrefs.fresh hw.fresh.memrefs
      rules := by rw [h.next, h.rules]; exact hw.fresh.rules
      rsets := by rw [h.next]; exact h.rsets.fresh hw.fresh.rsets
      ifaces := by rw [h.next]; exact h.ifaces.fresh hw.fresh.ifaces
      processes := by rw [h.next, h.processes]; exact hw.fresh.processes }
  counted := by
    intro a r hr
    obtain ⟨r', hr', hk⟩ := h.memrefs.evolves (a + 1) a (Nat.lt_succ_self a) r hr
    rw [(memrefCount_eq hk).1]
    exact hw.counted a r' hr'
  ops := by
    rw [h.rules]
    exact hw.opsOk h.grows
  routs := by
    rw [h.processes]
    exact hw.routsOk h.grows
  inputs := by
    rw [h.processes]
    intro a p hp
    rw [h.ifaces.isSome]
    exact hw.inputs a p hp
  handlers := by
    intro a i hi
    obtain ⟨i', hi', hk⟩ := h.ifaces.evolves (a + 1) a (Nat.lt_succ_self a) i hi
    obtain ⟨-, hhandler, hcontext, -⟩ := wiring_eq hk
    have hh := hw.handlers a i' hi'
    unfold HandlerOk at hh ⊢
    rw [h.processes, hhandler, hcontext]
    exact hh
  tracked := by
    rw [h.tracked]
    refine ⟨hw.tracked.1, ?_⟩
    intro x hx
    rw [h.ifaces.isSome]
    exact hw.tracked.2 x hx

section Operations

/-- The memrefs of an operation are live. -/
def OperandsLive (w : World) (op : OpSet) : Prop :=
  ∀ a, op.to' = some a ∨ op.from' = some a → (w.memrefs a).isSome

theorem noDangle_of_outOfBounds {e : Fault} (h : e.IsOutOfBounds) : NoDangle e := by
  intro a ha
  subst ha
  exact h

theorem liftMem_iff {x : MemM α} {Q : α → World → Prop} {E : Fault → Prop} :
    Runs E (liftMem x) w Q ↔ Runs E x w.toMem (fun r m => Q r { w with toMem := m }) := by
  unfold Runs liftMem
  cases x w.toMem with
  | error e => exact Iff.rfl
  | ok p => exact Iff.rfl

theorem opSide_live {m : Mem} {plen : Nat} {ref : Option Addr} {set : FieldSet} {p : Ptr}
    (hl : ∀ a, ref = some a → (m.memrefs a).isSome) (hp : opSide plen ref set = some p) :
    m.Live p := by
  cases ref with
  | none =>
    refine ⟨m.pkt, ?_⟩
    rw [opSide_pkt hp]
    rfl
  | some a =>
    obtain ⟨r, hr⟩ := Option.isSome_iff_exists.mp (hl a rfl)
    refine ⟨r.bytes, ?_⟩
    rw [opSide_memref hp]
    simp [Mem.bytes, hr]

theorem span_live {op : OpSet} (hl : OperandsLive w op) :
    ∀ len to' from', opCommon op w.pkt.length = .span len to' from' →
      w.toMem.Live to' ∧ w.toMem.Live from' := by
  intro len to' from' hc
  obtain ⟨-, hto, hfrom⟩ := opCommon_span hc
  exact ⟨opSide_live (fun a ha => hl a (.inl ha)) hto,
    opSide_live (fun a ha => hl a (.inr ha)) hfrom⟩

theorem load_live {m : Mem} {p : Ptr} {i : Nat} (h : m.Live p) :
    Runs Fault.IsOutOfBounds (load p i) m (fun _ t => t = m) :=
  (load_needs h i).mono (fun _ he => he.1) (fun _ _ hq => hq.2)

theorem loadRange_live {m : Mem} {p : Ptr} {n : Nat} (h : m.Live p) :
    Runs Fault.IsOutOfBounds (loadRange p n) m (fun _ t => t = m) := by
  induction n with
  | zero => exact rfl
  | succ n ih =>
    unfold loadRange
    refine Runs.bind ih ?_
    intro bs t ht
    subst ht
    refine Runs.bind (load_live h) ?_
    intro b t ht
    exact ht

/-- `op_match` between live operands only reads. -/
theorem opMatch_live {op : OpSet} {m : Mem}
    (hl : ∀ len to' from', opCommon op m.pkt.length = .span len to' from' →
      m.Live to' ∧ m.Live from') :
    Runs Fault.IsOutOfBounds (opMatch op) m (fun _ t => t = m) := by
  unfold opMatch
  rw [Runs.bind_iff, Runs.get_iff]
  cases hc : opCommon op m.pkt.length with
  | fail => exact rfl
  | nop => exact rfl
  | span len to' from' =>
    obtain ⟨ht, hf⟩ := hl len to' from' hc
    unfold memcmp
    simp only [bind_assoc, pure_bind]
    refine Runs.bind (loadRange_live ht) ?_
    intro x t hx
    subst hx
    refine Runs.bind (loadRange_live hf) ?_
    intro y t hy
    subst hy
    split
    · exact rfl
    refine Runs.bind (load_live ht) ?_
    intro b t hb
    subst hb
    refine Runs.bind (load_live hf) ?_
    intro c t hc
    subst hc
    split
    · exact rfl
    · exact rfl

theorem matchAll_does {ops : List Op} (hl : ∀ op ∈ ops, OperandsLive w op.set) :
    Runs NoDangle (matchAll ops) w (fun _ v => v = w) := by
  induction ops with
  | nil => exact rfl
  | cons op ops ih =>
    unfold matchAll
    have hm : Runs NoDangle (liftMem (opMatch op.set)) w (fun _ v => v = w) := by
      rw [liftMem_iff]
      refine (opMatch_live (span_live (hl op (List.mem_cons_self ..)))).mono
        (fun _ he => noDangle_of_outOfBounds he) ?_
      intro r m hm
      rw [hm]
    refine Runs.bind hm ?_
    intro rc v hv
    subst hv
    split
    · exact rfl
    · exact ih (fun o ho => hl o (List.mem_cons_of_mem _ ho))

/-- `op_write` changes bytes as its history says. -/
theorem opWriteRecorded_does {op : OpSet} (hl : OperandsLive w op) :
    Frames NoDangle Handles (opWriteRecorded env op) w (fun _ _ => True) := by
  have hw : Runs NoDangle (liftMem (opWrite env.cpy op)) w (fun rc v =>
      ∃ m, v = { w with toMem := m } ∧
        if rc = 0 then Wrote op (opSource op w.toMem) w.toMem m else m = w.toMem) := by
    rw [liftMem_iff]
    have hfault : Runs NoDangle (opWrite env.cpy op) w.toMem _ :=
      (opWrite_needs env.cpy (span_live hl)).mono (fun _ he => noDangle_of_outOfBounds he.1)
        (fun _ _ hq => hq)
    refine Runs.imp (hfault.and (opWrite_wrote env.cpy op w.toMem)) ?_
    intro rc m h
    exact ⟨m, rfl, h.2⟩
  unfold opWriteRecorded
  rw [Frames.get_bind]
  refine Runs.bind hw ?_
  intro rc v hv
  obtain ⟨m, rfl, hm⟩ := hv
  by_cases hrc : rc = 0
  · rw [if_pos hrc] at hm
    simp only [hrc, if_true]
    refine ⟨?_, trivial⟩
    exact
      { Handles.refl w with
        memrefs := hm.kinds
        writes := by
          refine ⟨[⟨op, opSource op w.toMem⟩], rfl, ?_, hm.bytes⟩
          intro x hx a ha
          rw [List.mem_singleton.mp hx] at ha
          exact hl a (.inl ha) }
  · rw [if_neg hrc] at hm
    subst hm
    simp only [if_neg hrc]
    exact ⟨.refl w, trivial⟩

theorem OperandsLive.mono {op : OpSet} (h : OperandsLive w op) (hh : Handles w v) :
    OperandsLive v op := by
  intro a ha
  rw [hh.memrefs.isSome]
  exact h a ha

theorem writeAll_does {ops : List Op} (hl : ∀ op ∈ ops, OperandsLive w op.set) :
    Frames NoDangle Handles (writeAll env ops) w (fun _ _ => True) := by
  induction ops generalizing w with
  | nil => exact ⟨.refl w, trivial⟩
  | cons op ops ih =>
    unfold writeAll
    apply (opWriteRecorded_does (hl op (List.mem_cons_self ..))).bind_frame
    intro rc v hh _
    split
    · exact ⟨.refl v, trivial⟩
    · exact ih (fun o ho => (hl o (List.mem_cons_of_mem _ ho)).mono hh)

end Operations

section Engine

/-- The queue behind a copied root is live, and so are the memrefs of its operations. -/
def QueueLive (w : World) (queue : Rule → List Op) (root : Option Addr) : Prop :=
  ∀ a, root = some a → ∃ r, w.rules a = some r ∧ ∀ op ∈ queue r, OperandsLive w op.set

/-- A rout set that `process_exec` can try. -/
def Runnable (w : World) (rst : Addr) : Prop :=
  ∃ s, w.rsets rst = some s ∧ (w.ifaces s.ifOut).isSome ∧
    QueueLive w Rule.matchJQ s.matchJQ ∧ QueueLive w Rule.writeJQ s.writeJQ

theorem QueueLive.mono {queue : Rule → List Op} {root : Option Addr} (h : QueueLive w queue root)
    (hh : Handles w v) : QueueLive v queue root := by
  intro a ha
  obtain ⟨r, hr, hl⟩ := h a ha
  exact ⟨r, by rw [hh.rules]; exact hr, fun op ho => (hl op ho).mono hh⟩

theorem Runnable.mono (h : Runnable w rst) (hh : Handles w v) : Runnable v rst := by
  obtain ⟨s, hs, ho, hm, hw⟩ := h
  obtain ⟨s', hs', hk⟩ := hh.rsets.live hs
  simp only [RoutSet.key, Prod.mk.injEq] at hk
  refine ⟨s', hs', ?_, ?_, ?_⟩
  · rw [hh.ifaces.isSome, hk.1]
    exact ho
  · rw [hk.2.1]
    exact hm.mono hh
  · rw [hk.2.2]
    exact hw.mono hh

/-- The operations of a live rule have live memrefs. -/
theorem operands_live (h : Consistent w live) {r : Rule} (hr : w.rules a = some r) {op : Op}
    (ho : op ∈ r.matchJQ ++ r.writeJQ) : OperandsLive w op.set := by
  have hok := h.ops a r hr op ho
  intro b hb
  have hmem : Ref.memref b ∈ r.refs := by
    have hop : Ref.memref b ∈ op.refs := by
      rw [hok.to', hok.from'] at hb
      unfold Op.refs
      rcases hb with hb | hb <;> simp [hb, holdOpt]
    unfold Rule.refs
    rw [← opsRefs_append]
    exact mem_opsRefs ho hop
  obtain ⟨m, hm⟩ := memref_of_count (h.rule_counted hr hmem)
  rw [hm]
  rfl

/-- Every rout set of a stored process can be tried. -/
theorem runnable_of_process (h : Consistent w live) {p : Process} (hp : w.processes a = some p)
    (hrst : rst ∈ p.routSetJQ) : Runnable w rst := by
  obtain ⟨hsets, hok⟩ := h.routs a p hp
  rw [hsets] at hrst
  obtain ⟨rt, hrt, rfl⟩ := List.mem_map.mp hrst
  have hcount : ∀ x ∈ rt.refs, 0 < w.count x := by
    intro x hx
    apply h.process_counted hp
    exact Multiset.mem_add.mpr (.inr (mem_routsRefs hrt hx))
  obtain ⟨r, hr, -⟩ := rule_of_count (hcount (.rule rt.rule) (by simp [Rout.refs]))
  obtain ⟨i, hi, -⟩ := iface_of_count (hcount (.iface rt.output) (by simp [Rout.refs]))
  obtain ⟨s, hs⟩ := rset_of_count (hcount (.rset rt.set) (by simp [Rout.refs]))
  obtain ⟨hout, hroots⟩ := (hok rt hrt).copied s hs
  obtain ⟨hm, hw⟩ := hroots r hr
  have hq : ∀ {queue : Rule → List Op} {root : Option Addr} {q : List Op},
      root = jqRoot rt.rule q → (∀ op ∈ queue r, op ∈ r.matchJQ ++ r.writeJQ) →
      QueueLive w queue root := by
    intro queue root q hroot hsub b hb
    rw [hroot] at hb
    unfold jqRoot at hb
    split at hb
    · cases hb
    · cases hb
      exact ⟨r, hr, fun op ho => operands_live h hr (hsub op ho)⟩
  refine ⟨s, hs, ?_, hq hm (fun op ho => List.mem_append_left _ ho),
    hq hw (fun op ho => List.mem_append_right _ ho)⟩
  rw [hout, hi]
  rfl

theorem opQueue_does {queue : Rule → List Op} {root : Option Addr} (h : QueueLive w queue root) :
    Runs NoDangle (opQueue queue root) w (fun ops v => v = w ∧ ∀ op ∈ ops, OperandsLive w op.set) := by
  unfold opQueue
  cases root with
  | none => exact ⟨rfl, fun op ho => by cases ho⟩
  | some a =>
    obtain ⟨r, hr, hl⟩ := h a rfl
    simp only []
    rw [deref_run hr]
    exact ⟨rfl, hl⟩

theorem routSetMatch_does (h : Runnable w rst) :
    Frames NoDangle Handles (routSetMatch rst) w (fun _ _ => True) := by
  obtain ⟨s, hs, -, hm, -⟩ := h
  unfold routSetMatch
  rw [deref_bind hs]
  refine Runs.bind (opQueue_does hm) ?_
  intro ops v hv
  obtain ⟨rfl, hl⟩ := hv
  refine Runs.bind (matchAll_does hl) ?_
  intro ok v hv
  subst hv
  split
  · exact ⟨{ Handles.refl v with rsets := .modify hs rfl }, trivial⟩
  · exact ⟨.refl v, trivial⟩

theorem routSetExec_does (h : Runnable w rst) :
    Frames NoDangle Handles (routSetExec env rst) w (fun _ _ => True) := by
  obtain ⟨s, hs, -, -, hw⟩ := h
  unfold routSetExec
  rw [deref_bind hs]
  refine Runs.bind (opQueue_does hw) ?_
  intro ops v hv
  obtain ⟨rfl, hl⟩ := hv
  exact writeAll_does hl

/-- A packet of other bytes, another counter of an iface or another packet sent. -/
theorem handles_counted {i i' : Iface} (hi : w.ifaces a = some i) (hk : i'.wiring = i.wiring) :
    Handles w { w with ifaces := Function.update w.ifaces a (some i') } :=
  { Handles.refl w with ifaces := .modify hi hk }

theorem handles_pkt (bs : Bytes) : Handles w { w with pkt := bs } :=
  { Handles.refl w with next := rfl }

theorem syscall_handles : Frames NoDangle Handles syscall w (fun _ _ => True) := by
  unfold Frames syscall
  rw [Runs.modifyGet_iff]
  cases w.sys with
  | nil => exact ⟨.refl w, trivial⟩
  | cons fails rest => exact ⟨{ Handles.refl w with next := rfl }, trivial⟩

theorem checksum_does (host : Endian) :
    Frames NoDangle Handles (liftFrame (checksum host)) w (fun _ _ => True) := by
  have hc : Runs NoDangle (checksum host) w.pkt (fun _ _ => True) :=
    (checksum_needs host w.pkt).mono (fun _ he => noDangle_of_outOfBounds he.1)
      (fun _ _ _ => trivial)
  unfold Frames Runs liftFrame
  unfold Runs at hc
  cases hr : checksum host w.pkt with
  | error e =>
    rw [hr] at hc
    exact hc
  | ok p => exact ⟨handles_pkt p.2, trivial⟩

theorem ifaceOutput_does (hi : (w.ifaces a).isSome) :
    Frames NoDangle Handles (ifaceOutput env a) w (fun _ _ => True) := by
  unfold ifaceOutput
  apply (checksum_does env.host).bind_frame
  intro ret v hh _
  rw [← hh.ifaces.isSome] at hi
  obtain ⟨i, hi⟩ := Option.isSome_iff_exists.mp hi
  rw [deref_bind hi]
  split
  · exact ⟨handles_counted hi rfl, trivial⟩
  · have hsent : Handles v { v with sent := v.sent ++ [(a, v.pkt)] } :=
      { Handles.refl v with next := rfl }
    refine Frames.bind_frame (Q := fun _ _ => True) ⟨hsent, trivial⟩ ?_
    intro _ u hh' _
    apply syscall_handles.bind_frame
    intro ok t hh'' _
    split
    · exact ⟨.refl t, trivial⟩
    · obtain ⟨i', hi', hk⟩ := (hh'.trans hh'').ifaces.live hi
      refine ⟨handles_counted hi' ?_, trivial⟩
      exact hk.symm

theorem processExecAll_does {rsts : List Addr} (h : ∀ rst ∈ rsts, Runnable w rst) :
    Frames NoDangle Handles (processExecAll env rsts) w (fun _ _ => True) := by
  induction rsts generalizing w with
  | nil => exact ⟨.refl w, trivial⟩
  | cons rst rsts ih =>
    have hrst := h rst (List.mem_cons_self ..)
    unfold processExecAll
    apply (routSetMatch_does hrst).bind_frame
    intro matched v hh _
    split
    · apply (routSetExec_does (hrst.mono hh)).bind_frame
      intro ok u hh' _
      split
      · obtain ⟨s, hs, hout, -⟩ := hrst.mono (hh.trans hh')
        rw [deref_bind hs]
        apply (ifaceOutput_does hout).bind
        intro _ t _
        exact ⟨.refl t, trivial⟩
      · exact ⟨.refl u, trivial⟩
    · exact ih (fun r hr => (h r (List.mem_cons_of_mem _ hr)).mono hh)

/-- A handler's context leads to rout sets that can be tried. -/
theorem routSetQueue_does {i : Iface} (h : Consistent w live) (hi : w.ifaces a = some i)
    (hh : i.handler = some .processExec) :
    Runs NoDangle (routSetQueue i.context) w (fun rsts v => v = w ∧ ∀ rst ∈ rsts, Runnable w rst) := by
  have hok := h.handlers a i hi
  unfold HandlerOk at hok
  rw [hh] at hok
  obtain ⟨b, p, hp, -, hctx⟩ := hok
  rw [hctx]
  unfold jqRoot routSetQueue
  split
  · rename_i hroot
    exact ⟨rfl, fun rst hr => by cases hr⟩
  · rename_i root c hroot
    split at hroot
    · cases hroot
    · cases hroot
      rw [deref_run hp]
      exact ⟨rfl, fun rst hr => runnable_of_process h hp hr⟩

/-- `iface_callback` -/
theorem ifaceCallback_does {recv : Recv} (h : Consistent w live) (hi : (w.ifaces a).isSome) :
    Frames NoDangle Handles (ifaceCallback env a recv) w (fun _ _ => True) := by
  obtain ⟨i, hi⟩ := Option.isSome_iff_exists.mp hi
  unfold ifaceCallback
  cases recv with
  | failed => exact ⟨.refl w, trivial⟩
  | packet outgoing bytes =>
    simp only []
    split
    · exact ⟨.refl w, trivial⟩
    refine Frames.bind_frame (Q := fun _ v => v = { w with pkt := bytes.take RECV_MAX })
      ⟨handles_pkt _, rfl⟩ ?_
    intro _ v hh hv
    have hiv : v.ifaces a = some i := by
      rw [hv]
      exact hi
    rw [deref_bind hiv]
    split
    · exact ⟨handles_counted hiv rfl, trivial⟩
    refine Frames.bind_frame (Q := fun _ u => u.ifaces a =
        some { i with countIn := (i.countIn + 1) % 2 ^ 64 })
      ⟨handles_counted hiv rfl, Function.update_self ..⟩ ?_
    intro _ u hh' hiu
    have hc := (hh.trans hh').consistent h
    cases hhi : i.handler with
    | none => exact ⟨.refl u, trivial⟩
    | some handler =>
      cases handler
      simp only []
      unfold processExec
      simp only [bind_assoc]
      refine Runs.bind (routSetQueue_does (i := { i with countIn := (i.countIn + 1) % 2 ^ 64 })
        hc hiu hhi) ?_
      intro rsts t ht
      obtain ⟨rfl, hr⟩ := ht
      exact (processExecAll_does hr).bind (fun _ t _ => ⟨.refl t, trivial⟩)

end Engine

end Xdpacket
