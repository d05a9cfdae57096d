import Xdpacket.Proofs.Switching

namespace Xdpacket

variable {w v u : World} {live : Multiset Ref} {env : Env} {a b rst : Addr} {n : Text}

section Ownership

theorem count_rset {rts : List Rout} (x : Addr) :
    (routsRefs rts).count (.rset x) = (rts.map Rout.set).count x := by
  induction rts with
  | nil => rfl
  | cons rt rts ih =>
    rw [routsRefs_cons, Multiset.count_add, ih, List.map_cons, List.count_cons]
    unfold Rout.refs
    by_cases hx : rt.set = x
    · subst hx
      simp [Nat.add_comm]
    · simp [hx, Ne.symm hx]

/-- A rout set has one holder. -/
theorem Consistent.rset_once (h : Consistent w live) (x : Addr) : w.stored (.rset x) ≤ 1 := by
  refine Nat.le_trans (h.balanced.stored_le _) ?_
  change (w.rsets x).elim 0 (fun _ => 1) ≤ 1
  rcases w.rsets x with - | set
  · exact Nat.zero_le 1
  · exact Nat.le_refl 1

theorem Consistent.holds_rsets (h : Consistent w live) {p : Process} (hp : w.processes a = some p)
    (x : Addr) : w.processHolds (.rset x) a = p.routSetJQ.count x := by
  unfold World.processHolds Process.refs
  rw [hp, Option.elim_some, Multiset.count_add, count_rset, (h.routs a p hp).1]
  simp

/-- No rout set is twice in the queue of a process. -/
theorem Consistent.rsets_nodup (h : Consistent w live) {p : Process} (hp : w.processes a = some p) :
    p.routSetJQ.Nodup := by
  rw [List.nodup_iff_count_le_one]
  intro x
  obtain ⟨i, hi, -, hl⟩ := h.process_stored hp
  have hle := NameStore.le_total (f := w.processHolds (.rset x)) hl
  have honce := h.rset_once x
  rw [h.holds_rsets hp] at hle
  unfold World.stored at honce
  omega

/-- No rout set is in the queues of two processes. -/
theorem Consistent.rsets_apart (h : Consistent w live) {p q : Process} (hp : w.processes a = some p)
    (hq : w.processes b = some q) (hne : b ≠ a) : ∀ x ∈ q.routSetJQ, x ∉ p.routSetJQ := by
  intro x hxq hxp
  obtain ⟨i, -, -, hl⟩ := h.process_stored hp
  obtain ⟨j, -, -, hm⟩ := h.process_stored hq
  have hnames : j.name ≠ i.name := by
    intro he
    rw [he, hl] at hm
    exact hne (Option.some.inj hm).symm
  have honce := h.rset_once x
  have hsum := NameStore.total_erase (f := w.processHolds (.rset x)) hl
  have hle := NameStore.le_total (f := w.processHolds (.rset x))
    ((AList.lookup_erase_ne hnames).trans hm)
  rw [h.holds_rsets hp] at hsum
  rw [h.holds_rsets hq] at hle
  have := List.count_pos_iff.mpr hxq
  have := List.count_pos_iff.mpr hxp
  unfold World.stored at honce
  omega

end Ownership

section Packets

/-- The same tables, where no rout set has counted. -/
theorem ports_same (hn : SameNames w v) (hj : v.processJS = w.processJS)
    (hp : v.processes = w.processes) (ht : v.tracked = w.tracked)
    (hr : ∀ b p, AList.lookup n w.processJS = some b → w.processes b = some p →
      ∀ x ∈ p.routSetJQ, v.rsets x = w.rsets x) : v.ports n = w.ports n := by
  unfold World.ports
  rw [hj, hp, ht]
  cases hl : AList.lookup n w.processJS with
  | none => rfl
  | some b =>
    simp only [Option.bind_some]
    cases hb : w.processes b with
    | none => rfl
    | some p =>
      simp only [Option.bind_some]
      rw [List.filterMap_congr (fun x hx => hn.clause_eq (hr b p hl hb x hx))]

/-- The process that reads from an iface is the one stored under its name. -/
theorem Consistent.reads (h : Consistent w live) {i : Iface} (hi : w.ifaces a = some i) {p : Process}
    (hp : w.processes b = some p) : p.inIface = a ↔ AList.lookup i.name w.processJS = some b := by
  constructor
  · intro he
    exact h.processes.listed hp (by rw [he, hi]; rfl)
  · intro hl
    obtain ⟨q, hq, hname⟩ := h.processes.found hl
    rw [hp] at hq
    cases hq
    obtain ⟨j, hj, hname⟩ := Option.map_eq_some_iff.mp hname
    exact h.ifaces.unique hj hi (congrArg some hname) rfl

/-- What the handler of an iface leads to. -/
theorem Consistent.handled_by (h : Consistent w live) {i : Iface} (hi : w.ifaces a = some i)
    {p : Process} (hp : w.processes b = some p) (hin : p.inIface = a) :
    i.handler = some .processExec ∧ routSetQueue i.context w = .ok (p.routSetJQ, w) := by
  have hh := h.handlers a i hi
  unfold HandlerOk at hh
  cases hk : i.handler with
  | none =>
    rw [hk] at hh
    exact absurd hin (hh b p hp)
  | some handler =>
    cases handler
    rw [hk] at hh
    obtain ⟨c, q, hq, hqin, hctx⟩ := hh
    obtain rfl := h.process_unique hq hp (hqin.trans hin.symm)
    rw [hp] at hq
    cases hq
    refine ⟨rfl, ?_⟩
    rw [hctx]
    unfold jqRoot
    split
    · rename_i hempty
      rw [List.isEmpty_iff.mp hempty]
      rfl
    · unfold routSetQueue
      exact bind_run (deref_ok.mpr ⟨hp, rfl⟩)

theorem Consistent.unhandled (h : Consistent w live) {i : Iface} (hi : w.ifaces a = some i)
    (hl : AList.lookup i.name w.processJS = none) : i.handler = none := by
  have hh := h.handlers a i hi
  unfold HandlerOk at hh
  cases hk : i.handler with
  | none => rfl
  | some handler =>
    cases handler
    rw [hk] at hh
    obtain ⟨c, q, hq, hqin, -⟩ := hh
    rw [(h.reads hi hq).mp hqin] at hl
    cases hl

/-- A packet was received and counted, and not looked at yet. -/
def World.received (w : World) (a : Addr) (i : Iface) (bytes : Bytes) : World :=
  { w with pkt := bytes.take RECV_MAX, ifaces := Function.update w.ifaces a (some i) }

theorem received_names {i i' : Iface} {bytes : Bytes} (hi : w.ifaces a = some i)
    (hn : i'.name = i.name) : SameNames w (w.received a i' bytes) where
  stateJS := rfl
  rules := rfl
  ifaces := .modify hi hn
  kinds := fun _ => rfl
  values := fun _ _ hr _ => hr

theorem received_handles {i i' : Iface} {bytes : Bytes} (hi : w.ifaces a = some i)
    (hw : i'.wiring = i.wiring) : Handles w (w.received a i' bytes) :=
  (handles_pkt (bytes.take RECV_MAX)).trans (handles_counted (i := i) hi hw)

/-- Frames are named alike from two moments with the same names. -/
theorem Sent.of_names {frames : List (Text × Bytes)} (h : Sent w v frames) (hn : SameNames u w)
    (hs : w.sent = u.sent) : Sent u v frames := by
  obtain ⟨out, hout, hall⟩ := h
  refine ⟨out, by rw [hout, hs], hall.imp (fun x y hxy => ?_)⟩
  rw [← hn.ifaces x.1]
  exact hxy

/-- `iface_callback` of a packet that comes in. -/
theorem ifaceCallback_in {i j : Iface} {bytes : Bytes} (hi : w.ifaces a = some i) (hb : bytes ≠ [])
    (hj : j = { i with countIn := (i.countIn + 1) % 2 ^ 64 }) :
    ifaceCallback env a (.packet false bytes) w =
      (i.handler.elim (return 0) (fun _ => do processExec env i.context; return 0) : M Nat)
        (w.received a j bytes) := by
  unfold ifaceCallback
  simp only [List.isEmpty_eq_false_iff.mpr hb, Bool.false_eq_true, if_false]
  have hi' : World.ifaces { w with pkt := bytes.take RECV_MAX } a = some i := hi
  rw [bind_run (show (modify fun w => { w with pkt := bytes.take RECV_MAX } : M PUnit) w =
    .ok (⟨⟩, { w with pkt := bytes.take RECV_MAX }) from rfl), bind_run (deref_ok.mpr ⟨hi', rfl⟩), hj]
  cases i.handler <;> rfl

/-- A packet that comes in by a polled iface goes the way of its table. -/
theorem callback_forwards {i : Iface} {bytes : Bytes} {sw : Switch Text Text}
    {frames : List (Text × Bytes)} (h : Consistent w live) (hi : w.ifaces a = some i)
    (hb : bytes ≠ []) (ht : w.tracked.any (fun r => r.2 = a))
    (hr : w.switch.receive env.finish i.name (bytes.take RECV_MAX) = some (sw, frames)) :
    ∃ v, ifaceCallback env a (.packet false bytes) w = .ok (0, v) ∧ v.switch = sw ∧ Sent w v frames := by
  obtain ⟨j, hj⟩ : ∃ j, j = { i with countIn := (i.countIn + 1) % 2 ^ 64 } := ⟨_, rfl⟩
  have hin : SameNames w (w.received a j bytes) := received_names hi (by rw [hj])
  cases hl : AList.lookup i.name w.processJS with
  | none =>
    have hports : w.ports i.name = none := by
      unfold World.ports
      rw [hl, Option.bind_none]
    unfold Switch.receive World.switch at hr
    simp only [hports, Option.some.injEq, Prod.mk.injEq] at hr
    obtain ⟨rfl, rfl⟩ := hr
    refine ⟨w.received a j bytes, ?_, ?_, [], (List.append_nil _).symm, .nil⟩
    · rw [ifaceCallback_in hi hb hj, h.unhandled hi hl]
      rfl
    · unfold World.switch
      congr 1
      funext n
      exact ports_same hin rfl rfl rfl (fun _ _ _ _ _ _ => rfl)
  | some b =>
    obtain ⟨p, hp, hname⟩ := h.processes.found hl
    have hread := (h.reads hi hp).mpr hl
    have hports : w.ports i.name = some (p.routSetJQ.filterMap w.clause) := by
      unfold World.ports
      rw [hl, Option.bind_some, hp, Option.bind_some, if_pos (by rw [hread]; exact ht)]
    have hc := (@received_handles _ _ _ j bytes hi (by rw [hj]; rfl)).consistent h
    obtain ⟨hhandler, hqueue⟩ := hc.handled_by (Function.update_self ..) hp hread
    have hclauses : p.routSetJQ.filterMap (w.received a j bytes).clause =
        p.routSetJQ.filterMap w.clause :=
      List.filterMap_congr (fun x _ => hin.clause_eq rfl)
    unfold Switch.receive at hr
    simp only [show w.switch.ports i.name = w.ports i.name from rfl, hports] at hr
    obtain ⟨r, hfwd, hr⟩ := Option.bind_eq_some_iff.mp hr
    obtain ⟨out, hemit, he⟩ := Option.map_eq_some_iff.mp hr
    cases he
    obtain ⟨v, hv, hnames, hbuf, htable, hkeep, hsent⟩ := loop_forwards
      hc.states (fun x hx => hc.routed hp hx) (h.rsets_nodup hp) (by rw [hclauses]; exact hfwd) hemit
    have hrun : ifaceCallback env a (.packet false bytes) w = .ok (0, v) := by
      have hhi : i.handler = some .processExec := by rw [← hhandler, hj]
      rw [ifaceCallback_in hi hb hj, hhi, Option.elim_some]
      unfold processExec
      rw [show i.context = j.context by rw [hj], bind_assoc, bind_run hqueue, bind_run hv]
      rfl
    obtain ⟨hh, -⟩ := (ifaceCallback_does h (by rw [hi]; rfl)).ok hrun
    refine ⟨v, hrun, ?_, hsent.of_names hin rfl⟩
    unfold World.switch
    congr 1
    funext n
    by_cases hname' : n = i.name
    · subst hname'
      rw [Function.update_self]
      unfold World.ports
      rw [hh.processJS, hh.processes, hh.tracked, hl, Option.bind_some, hp, Option.bind_some,
        if_pos (by rw [hread]; exact ht), htable]
    · rw [Function.update_of_ne hname']
      refine ports_same (hin.trans hnames) hh.processJS hh.processes hh.tracked ?_
      intro c q hlc hq x hx
      have hne : c ≠ b := h.processes.found_ne hl hlc hname'
      exact hkeep x (h.rsets_apart hp hq hne x hx)

variable (env) in
/-- A packet that leaves by an iface is only counted. -/
theorem callback_outgoing {i : Iface} {bytes : Bytes} (hi : w.ifaces a = some i) (hb : bytes ≠ []) :
    ∃ v, ifaceCallback env a (.packet true bytes) w = .ok (0, v) ∧ v.switch = w.switch ∧
      v.sent = w.sent := by
  refine ⟨w.received a { i with countOut := (i.countOut + 1) % 2 ^ 64 } bytes, ?_, ?_, rfl⟩
  · unfold ifaceCallback
    simp only [List.isEmpty_eq_false_iff.mpr hb, Bool.false_eq_true, if_false]
    have hi' : World.ifaces { w with pkt := bytes.take RECV_MAX } a = some i := hi
    rw [bind_run (show (modify fun w => { w with pkt := bytes.take RECV_MAX } : M PUnit) w =
      .ok (⟨⟩, { w with pkt := bytes.take RECV_MAX }) from rfl), bind_run (deref_ok.mpr ⟨hi', rfl⟩)]
    rfl
  · unfold World.switch
    congr 1
    funext n
    exact ports_same (received_names hi rfl) rfl rfl rfl (fun _ _ _ _ _ _ => rfl)

end Packets

section Arrivals

/-- A frame that the socket of an iface delivers. -/
structure Arrival where
  iface : Addr
  outgoing : Bool
  bytes : Bytes
  some' : bytes ≠ []

def Arrival.event (x : Arrival) : Event := .packet x.iface (.packet x.outgoing x.bytes)

/-- The port by which an arrival comes in, and what was received of it. -/
def World.incoming (w : World) (x : Arrival) : Option (Text × Bytes) :=
  if x.outgoing then none else (w.ifaces x.iface).map (fun i => (i.name, x.bytes.take RECV_MAX))

/-- Packets are handled as the switch does: whenever it is specified what becomes of them,
the program comes to that configuration, and hands those frames to `send`. What a table makes
of a packet is specified while it compares and writes sides of one length, and no write
overlaps itself; what becomes of the frame that it makes, while `checksum` stays inside it. -/
structure Implements (env : Env) (w : World) : Prop where
  simulates : ∀ (xs : List Arrival) sw frames,
    w.switch.receiveAll env.finish (xs.filterMap w.incoming) = some (sw, frames) →
      ∃ v, handleAll env (xs.map Arrival.event) w = .ok ((), v) ∧ v.switch = sw ∧ Sent w v frames
  specified : ∀ name table pkt, w.ports name = some table →
    (∀ c ∈ table, ∀ x ∈ c.checks ++ c.writes, x.dst.slice.len = x.src.slice.len) →
    (∀ c ∈ table, ∀ x ∈ c.writes, ¬ x.Overlapping pkt.length) →
      (forward table ⟨pkt, w.buffers⟩).isSome
  finished : ∀ frame, (env.finish frame).isSome ↔ ChecksumInside env.host frame

/-- An iface that is not polled has no table. -/
theorem Consistent.unpolled (h : Consistent w live) {i : Iface} (hi : w.ifaces a = some i)
    (ht : w.tracked.find? (fun r => r.2 = a) = none) : w.ports i.name = none := by
  unfold World.ports
  cases hl : AList.lookup i.name w.processJS with
  | none => rfl
  | some b =>
    obtain ⟨p, hp, -⟩ := h.processes.found hl
    rw [Option.bind_some, hp, Option.bind_some, if_neg]
    rw [(h.reads hi hp).mpr hl, List.any_eq_true]
    rintro ⟨r, hr, hra⟩
    exact absurd hra (List.find?_eq_none.mp ht r hr)

/-- An arrival by a polled iface is the callback. -/
theorem handle_arrival {x : Arrival} {r : Nat × Addr}
    (ht : w.tracked.find? (fun r => r.2 = x.iface) = some r)
    (hr : ifaceCallback env x.iface (.packet x.outgoing x.bytes) w = .ok (0, v)) :
    handle env x.event w = .ok ((), v) := by
  change poll env x.iface _ w = _
  unfold poll
  rw [bind_run (show (get : M World) w = .ok (w, w) from rfl), ht]
  exact (bind_run hr).trans rfl

/-- One arrival. -/
theorem poll_forwards {x : Arrival} {sw : Switch Text Text} {frames : List (Text × Bytes)}
    (h : Consistent w live)
    (hr : Switch.receiveAll env.finish (w.incoming x).toList w.switch = some (sw, frames)) :
    ∃ v, handle env x.event w = .ok ((), v) ∧ Handles w v ∧ v.switch = sw ∧ Sent w v frames := by
  have hignored : w.incoming x = none → w.switch = sw ∧ frames = [] := by
    intro hi
    rw [hi] at hr
    cases hr
    exact ⟨rfl, rfl⟩
  cases ht : w.tracked.find? (fun r => r.2 = x.iface) with
  | none =>
    have hstay : w.switch = sw ∧ frames = [] := by
      cases hi : w.incoming x with
      | none => exact hignored hi
      | some y =>
        rw [hi, Option.toList_some, Switch.receiveAll_single] at hr
        unfold World.incoming at hi
        split at hi
        · cases hi
        obtain ⟨i, hia, rfl⟩ := Option.map_eq_some_iff.mp hi
        unfold Switch.receive at hr
        simp only [show w.switch.ports i.name = w.ports i.name from rfl, h.unpolled hia ht,
          Option.some.injEq, Prod.mk.injEq] at hr
        exact ⟨hr.1, hr.2.symm⟩
    obtain ⟨rfl, rfl⟩ := hstay
    refine ⟨w, ?_, .refl w, rfl, [], (List.append_nil _).symm, .nil⟩
    change poll env x.iface _ w = _
    unfold poll
    rw [bind_run (show (get : M World) w = .ok (w, w) from rfl), ht]
    rfl
  | some r =>
    have hr2 : r.2 = x.iface := by simpa using List.find?_some ht
    have hmem := List.mem_of_find?_eq_some ht
    obtain ⟨i, hi⟩ := Option.isSome_iff_exists.mp (hr2 ▸ h.tracked.2 r hmem)
    have hframe := fun {v : World} (hv : ifaceCallback env x.iface (.packet x.outgoing x.bytes) w =
      .ok (0, v)) => ((ifaceCallback_does h (by rw [hi]; rfl)).ok hv).1
    cases hout : x.outgoing with
    | true =>
      obtain ⟨v, hv, hsw, hsent⟩ := callback_outgoing env hi x.some'
      rw [← hout] at hv
      obtain ⟨rfl, rfl⟩ := hignored (by unfold World.incoming; rw [if_pos hout])
      exact ⟨v, handle_arrival ht hv, hframe hv, hsw, [], by rw [hsent, List.append_nil], .nil⟩
    | false =>
      have hin : w.incoming x = some (i.name, x.bytes.take RECV_MAX) := by
        unfold World.incoming
        rw [if_neg (by simp [hout]), hi, Option.map_some]
      rw [hin, Option.toList_some, Switch.receiveAll_single] at hr
      obtain ⟨v, hv, hsw, hsent⟩ := callback_forwards h hi x.some'
        (List.any_eq_true.mpr ⟨r, hmem, by simpa using hr2⟩) hr
      rw [← hout] at hv
      exact ⟨v, handle_arrival ht hv, hframe hv, hsw, hsent⟩

theorem Handles.incoming (h : Handles w v) : v.incoming = w.incoming := by
  funext x
  unfold World.incoming
  have hn := congrArg (Option.map (fun k => (k.1, x.bytes.take RECV_MAX))) (h.ifaces x.iface)
  rw [Option.map_map, Option.map_map] at hn
  exact congrArg (fun r => if x.outgoing then none else r) hn

/-- In every state, packets are handled as the switch does. -/
theorem Consistent.simulates (h : Consistent w live) (xs : List Arrival) (sw : Switch Text Text)
    (frames : List (Text × Bytes))
    (hr : w.switch.receiveAll env.finish (xs.filterMap w.incoming) = some (sw, frames)) :
    ∃ v, handleAll env (xs.map Arrival.event) w = .ok ((), v) ∧ v.switch = sw ∧ Sent w v frames := by
  induction xs generalizing w sw frames with
  | nil =>
    cases hr
    exact ⟨w, rfl, rfl, [], (List.append_nil _).symm, .nil⟩
  | cons x xs ih =>
    have hcons : (x :: xs).filterMap w.incoming = (w.incoming x).toList ++ xs.filterMap w.incoming := by
      rw [List.filterMap_cons]
      cases w.incoming x <;> rfl
    rw [hcons, Switch.receiveAll_append] at hr
    obtain ⟨r, hfirst, hrest⟩ := Option.bind_eq_some_iff.mp hr
    obtain ⟨q, hq, he⟩ := Option.map_eq_some_iff.mp hrest
    cases he
    obtain ⟨v, hv, hh, hsw, hsent⟩ := poll_forwards h hfirst
    rw [← hh.incoming, ← hsw] at hq
    obtain ⟨u, hu, hsw', hsent'⟩ := ih (hh.consistent h) _ _ hq
    refine ⟨u, ?_, hsw', ?_⟩
    · simp only [List.map_cons, handleAll]
      rw [bind_run hv]
      exact hu
    · obtain ⟨out, hout, hall⟩ := hsent
      obtain ⟨out', hout', hall'⟩ := hsent'
      refine ⟨out ++ out', by rw [hout', hout, List.append_assoc], ?_⟩
      refine List.rel_append hall (hall'.imp (fun y z hyz => ⟨?_, hyz.2⟩))
      rw [← hh.ifaceName]
      exact hyz.1

/-- What a table does with a packet is specified. -/
theorem Consistent.specified (h : Consistent w live) {name : Text} {table : List (Clause Text Text)}
    {pkt : Bytes} (ht : w.ports name = some table)
    (hl : ∀ c ∈ table, ∀ x ∈ c.checks ++ c.writes, x.dst.slice.len = x.src.slice.len)
    (ho : ∀ c ∈ table, ∀ x ∈ c.writes, ¬ x.Overlapping pkt.length) :
    (forward table ⟨pkt, w.buffers⟩).isSome := by
  refine forward_specified (s := ⟨pkt, w.buffers⟩) (fun c hc x hx => ?_) (storage_sized w) ho
  have hlen := hl c hc x hx
  unfold World.ports at ht
  obtain ⟨b, -, ht⟩ := Option.bind_eq_some_iff.mp ht
  obtain ⟨p, hp, ht⟩ := Option.bind_eq_some_iff.mp ht
  split at ht
  swap
  · cases ht
  cases ht
  obtain ⟨rst, hrst, hclause⟩ := List.mem_filterMap.mp hc
  obtain ⟨set, out, hrouted⟩ := h.routed hp hrst
  rw [hrouted.clause] at hclause
  cases hclause
  rcases List.mem_append.mp hx with hx | hx
  · obtain ⟨op, hop, rfl⟩ := List.mem_map.mp hx
    exact (hrouted.matched op hop).wellFormed h.states hlen
  · obtain ⟨op, hop, rfl⟩ := List.mem_map.mp hx
    exact (hrouted.written op hop).wellFormed h.states hlen

/-- The configured program implements its switch, whatever has happened to it. -/
theorem switch_implemented (env : Env) (openFds : List Nat) (oom sys : List Bool)
    (events : List Event) :
    Runs (fun _ => True) (handleAll env events) (World.start openFds oom sys)
      (fun _ w => Implements env w) := by
  refine (handleAll_consistent (consistent_start openFds oom sys)).mono (fun _ _ => trivial) ?_
  rintro _ w ⟨live, h⟩
  exact ⟨h.simulates, fun _ _ _ => h.specified, fun _ => finish_isSome_iff⟩

end Arrivals

end Xdpacket
