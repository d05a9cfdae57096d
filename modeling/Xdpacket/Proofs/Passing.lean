import Xdpacket.Proofs.Packets

namespace Xdpacket

variable {w v : World} {env : Env} {a : Addr}

/-- What stays and what is recorded while packets pass: rules and sockets are as before, and
every write of the history is one that a rule has. -/
structure Passes (w v : World) : Prop where
  rules : v.rules = w.rules
  openFds : v.openFds = w.openFds
  ifaces : SameKeys (fun i => (i.fd, i.name)) w.ifaces v.ifaces
  written : ∃ ws, v.written = w.written ++ ws ∧
    ∀ x ∈ ws, ∃ a r, w.rules a = some r ∧ ∃ op ∈ r.writeJQ, op.set = x.op

theorem Passes.refl (w : World) : Passes w w where
  rules := rfl
  openFds := rfl
  ifaces := .refl _ _
  written := ⟨[], (List.append_nil _).symm, fun x hx => (by cases hx)⟩

theorem Passes.trans {u : World} (h : Passes w v) (h' : Passes v u) : Passes w u where
  rules := h'.rules.trans h.rules
  openFds := h'.openFds.trans h.openFds
  ifaces := h.ifaces.trans h'.ifaces
  written := by
    obtain ⟨xs, hx, hxs⟩ := h.written
    obtain ⟨ys, hy, hys⟩ := h'.written
    refine ⟨xs ++ ys, by rw [hy, hx, List.append_assoc], ?_⟩
    intro x hm
    rcases List.mem_append.mp hm with hm | hm
    · exact hxs x hm
    · rw [← h.rules]
      exact hys x hm

instance : Std.Refl Passes := ⟨Passes.refl⟩

instance : IsTrans World Passes := ⟨fun _ _ _ => Passes.trans⟩

/-- A program that lets packets pass. -/
abbrev Passing (m : M α) : Prop := Within (fun _ => True) Passes m

namespace Passing

variable {α β : Type} {ref : Option Addr}

instance syscall : Passing syscall := by
  refine ⟨fun w => ?_⟩
  unfold Xdpacket.syscall
  rw [Runs.modifyGet_iff]
  cases w.sys with
  | nil => exact .refl w
  | cons fails rest => exact { Passes.refl w with rules := rfl }

instance toPkt {g : World → Bytes} : Passing (modify fun w => { w with pkt := g w } : M PUnit) :=
  ⟨fun w => { Passes.refl w with rules := rfl }⟩

instance putRset {o : Option RoutSet} : Passing (putRset a o) :=
  ⟨fun w => { Passes.refl w with rules := rfl }⟩

instance liftMem {x : MemM α} : Passing (liftMem x) := by
  refine ⟨fun w => ?_⟩
  unfold Runs Xdpacket.liftMem
  cases x w.toMem with
  | error e => trivial
  | ok p => exact { Passes.refl w with rules := rfl }

instance liftFrame {x : FrameM α} : Passing (liftFrame x) := by
  refine ⟨fun w => ?_⟩
  unfold Runs Xdpacket.liftFrame
  cases x w.pkt with
  | error e => trivial
  | ok p => exact { Passes.refl w with rules := rfl }

/-- Another counter of an iface; what follows lets packets pass. -/
theorem countIface {i i' : Iface} {k : PUnit → M β} [h : ∀ u, Passing (k u)]
    (hi : w.ifaces a = some i) (hk : (i'.fd, i'.name) = (i.fd, i.name)) :
    Runs (fun _ => True) (putIface a (some i') >>= k) w (fun _ v => Passes w v) := by
  have hp : Passes w { w with ifaces := Function.update w.ifaces a (some i') } :=
    { Passes.refl w with ifaces := .modify hi hk }
  exact ((h ⟨⟩).runs _).imp (fun _ _ hv => hp.trans hv)

instance opQueue {queue : Rule → List Op} : Passing (opQueue queue ref) := by
  unfold Xdpacket.opQueue
  split <;> infer_instance

instance matchAll {ops : List Op} : Passing (matchAll ops) := by
  induction ops with
  | nil => exact Within.pure
  | cons op ops ih =>
    unfold Xdpacket.matchAll
    infer_instance

instance routSetMatch : Passing (routSetMatch a) := by
  unfold Xdpacket.routSetMatch
  infer_instance

/-- The write of an operation that a rule has. -/
theorem opWriteRecorded {b : Addr} {r : Rule} {op : Op} (hr : w.rules b = some r)
    (ho : op ∈ r.writeJQ) :
    Runs (fun _ => True) (opWriteRecorded env op.set) w (fun _ v => Passes w v) := by
  unfold Xdpacket.opWriteRecorded
  rw [Runs.bind_iff, Runs.get_iff]
  refine (liftMem.runs w).bind ?_
  intro rc v hv
  split
  · refine { hv with written := ?_ }
    obtain ⟨ws, hw, hws⟩ := hv.written
    refine ⟨ws ++ [⟨op.set, opSource op.set w.toMem⟩], ?_, ?_⟩
    · change v.written ++ _ = _
      rw [hw, List.append_assoc]
    · intro x hx
      rcases List.mem_append.mp hx with hx | hx
      · exact hws x hx
      · rw [List.mem_singleton.mp hx]
        exact ⟨b, r, hr, op, ho, rfl⟩
  · exact hv

theorem writeAll {b : Addr} {r : Rule} {ops : List Op} (hr : w.rules b = some r)
    (ho : ∀ op ∈ ops, op ∈ r.writeJQ) :
    Runs (fun _ => True) (writeAll env ops) w (fun _ v => Passes w v) := by
  induction ops generalizing w with
  | nil => exact .refl w
  | cons op ops ih =>
    refine (opWriteRecorded hr (ho op (List.mem_cons_self ..))).bind ?_
    intro rc v hv
    split
    · exact hv
    · refine (ih (w := v) ?_ (fun p hp => ho p (List.mem_cons_of_mem _ hp))).imp ?_
      · rw [hv.rules]
        exact hr
      · exact fun _ _ hu => hv.trans hu

instance routSetExec : Passing (routSetExec env a) := by
  refine ⟨fun w => deref_runs (fun set _ => ?_)⟩
  cases hq : set.writeJQ with
  | none => exact .refl w
  | some b =>
    simp only [Xdpacket.opQueue, bind_assoc, pure_bind]
    exact deref_runs (fun r hr => writeAll hr (fun _ ho => ho))

instance ifaceOutput : Passing (ifaceOutput env a) := by
  refine Within.step (fun ret => ⟨fun w => deref_runs (fun i hi => ?_)⟩)
  split
  · exact countIface hi rfl
  · refine Runs.bind (R := fun _ v => Passes w v ∧ v.ifaces = w.ifaces)
      ⟨{ Passes.refl w with rules := rfl }, rfl⟩ ?_
    intro _ v hv
    have hsys : Runs (fun _ => True) Xdpacket.syscall v (fun _ u => Passes w u ∧ u.ifaces = w.ifaces) := by
      refine ((syscall.runs v).and (syscall_idle (E := fun _ => True))).imp ?_
      intro _ u hu
      exact ⟨hv.1.trans hu.1, hu.2.1.ifaces.trans hv.2⟩
    refine hsys.bind ?_
    intro ok u hu
    split
    · exact hu.1
    · rw [← hu.2] at hi
      refine Runs.imp (countIface hi ?_) (fun _ _ ht => hu.1.trans ht)
      rfl

instance processExecAll {rsts : List Addr} : Passing (processExecAll env rsts) := by
  induction rsts with
  | nil => exact Within.pure
  | cons rst rsts ih =>
    unfold Xdpacket.processExecAll
    infer_instance

instance routSetQueue : Passing (routSetQueue ref) := by
  unfold Xdpacket.routSetQueue
  split <;> infer_instance

/-- `iface_callback` -/
instance ifaceCallback {recv : Recv} : Passing (ifaceCallback env a recv) := by
  cases recv with
  | failed => exact Within.pure
  | packet outgoing bytes =>
    unfold Xdpacket.ifaceCallback
    dsimp only
    split
    · exact Within.pure
    refine Within.step (fun _ => ⟨fun w => deref_runs (fun i hi => ?_)⟩)
    split
    · exact countIface hi rfl
    · cases i.handler with
      | none => exact countIface hi rfl
      | some handler =>
        cases handler
        unfold processExec
        exact countIface hi rfl

end Passing

end Xdpacket
