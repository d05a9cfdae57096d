import Xdpacket.Proofs.Calls
import Xdpacket.Proofs.FirstMatch
import Xdpacket.Proofs.Histories
import Xdpacket.Proofs.Passing
import Xdpacket.Proofs.Transfers

namespace Xdpacket

variable {w v u : World} {live : Multiset Ref} {env : Env} {a b rst : Addr} {n : Text}

section Abstraction

/-- The operations behind a copied root. -/
def World.queue (w : World) (queue : Rule → List Op) (root : Option Addr) : List Op :=
  (root.bind w.rules).elim [] queue

/-- A rout set with names in place of its addresses. -/
def World.clause (w : World) (rst : Addr) : Option (Clause Text Text) :=
  (w.rsets rst).bind (fun set => (w.ifaces set.ifOut).map (fun out =>
    { checks := (w.queue Rule.matchJQ set.matchJQ).map (fun op => w.transfer op.set)
      writes := (w.queue Rule.writeJQ set.writeJQ).map (fun op => w.transfer op.set)
      out := out.name
      hits := set.countMatch }))

/-- The table of the process on an iface, while the iface is polled. -/
def World.ports (w : World) (name : Text) : Option (List (Clause Text Text)) :=
  (AList.lookup name w.processJS).bind (fun b => (w.processes b).bind (fun p =>
    if w.tracked.any (fun r => r.2 = p.inIface) then some (p.routSetJQ.filterMap w.clause) else none))

/-- What the configured program is for. -/
def World.switch (w : World) : Switch Text Text := ⟨w.ports, w.buffers⟩

/-- A frame is completed by its checksums, or held back. -/
def Env.finish (env : Env) (frame : Bytes) : Option (Option Bytes) :=
  match checksum env.host frame with
  | .ok (.ok, bs) => some (some bs)
  | .ok (_, _) => some none
  | .error _ => none

/-- What becomes of a frame is known while `checksum` stays inside it. -/
theorem finish_isSome_iff {frame : Bytes} :
    (env.finish frame).isSome ↔ ChecksumInside env.host frame := by
  have h := checksum_needs env.host frame
  unfold Needs Runs at h
  unfold Env.finish
  cases hc : checksum env.host frame with
  | error e =>
    rw [hc] at h
    simpa using h.2
  | ok p =>
    rw [hc] at h
    obtain ⟨code, bs⟩ := p
    cases code <;> simpa using h.1

end Abstraction

section Operations

/-- The memrefs of an operation are live and have the length of its sides, and it writes to
states only. -/
structure Wired (w : World) (op : OpSet) : Prop where
  to' : w.toMem.Backs op.to' op.setTo
  from' : w.toMem.Backs op.from' op.setFrom
  state : ∀ a r, op.to' = some a → w.memrefs a = some r → r.stateName.isSome

theorem sameKinds_stateName (h : w.toMem.SameKinds v.toMem) (a : Addr) :
    (v.memrefs a).map Memref.stateName = (w.memrefs a).map Memref.stateName := by
  have hk := h a
  cases hv : v.memrefs a <;> cases hw : w.memrefs a <;> simp [hv, hw] at hk ⊢
  simp [Memref.stateName, hk.1]

theorem Wired.mono {op : OpSet} (h : Wired w op) (hk : w.toMem.SameKinds v.toMem) : Wired v op where
  to' := sameKinds_backs hk h.to'
  from' := sameKinds_backs hk h.from'
  state := by
    intro a r ha hr
    have hs := sameKinds_stateName hk a
    rw [hr] at hs
    obtain ⟨q, hq, he⟩ := Option.map_eq_some_iff.mp hs.symm
    rw [← he]
    exact h.state a q ha hq

/-- The operations of a stored rule. -/
theorem Consistent.wired (h : Consistent w live) {r : Rule} (hr : w.rules a = some r) {op : Op}
    (ho : op ∈ r.matchJQ ++ r.writeJQ) : Wired w op.set := by
  have hok := h.ops a r hr op ho
  have hlive := operands_live h hr ho
  refine ⟨?_, ?_, by rw [hok.to']; exact hok.state⟩
  · rw [hok.to']
    refine hok.dst.backs (fun b hb => ?_) (fun _ => rfl)
    exact Option.isSome_iff_exists.mp (hlive b (.inl (by rw [hok.to', hb])))
  · rw [hok.from']
    refine hok.src.backs (fun b hb => ?_) (fun _ => rfl)
    exact Option.isSome_iff_exists.mp (hlive b (.inr (by rw [hok.from', hb])))

/-- The length of the state of a name. -/
def World.sizes (w : World) (name : Text) : Nat :=
  ((AList.lookup name w.stateJS).bind w.memrefs).elim 0 (fun r => r.set.len.toNat)

theorem storage_sized (w : World) : w.storage.Sized w.sizes := by
  intro name bytes hb
  change w.buffers name = some bytes at hb
  unfold World.buffers at hb
  unfold World.sizes
  obtain ⟨a, ha, hb⟩ := Option.bind_eq_some_iff.mp hb
  obtain ⟨r, hr, rfl⟩ := Option.map_eq_some_iff.mp hb
  rw [ha, Option.bind_some, hr, Option.elim_some]
  exact r.sized

theorem side_fits {ref : Option Addr} {set : FieldSet} (h : StatesNamed w)
    (hb : w.toMem.Backs ref set) : (⟨set.slice, w.place ref⟩ : Side Text).Fits w.sizes := by
  unfold Side.Fits World.place
  cases ref with
  | none => trivial
  | some a =>
    obtain ⟨r, hr, hl⟩ := hb a rfl
    simp only [show w.memrefs a = some r from hr]
    cases hn : r.stateName with
    | none => exact (congrArg UInt16.toNat hl.symm).trans r.sized.symm
    | some name =>
      simp only [World.sizes]
      rw [h.listed hr hn, Option.bind_some, show w.memrefs a = some r from hr]
      exact congrArg UInt16.toNat hl.symm

/-- An operation between sides of one length is a well-formed transfer. -/
theorem Wired.wellFormed {op : OpSet} (h : Wired w op) (hn : StatesNamed w)
    (hl : (w.transfer op).dst.slice.len = (w.transfer op).src.slice.len) :
    (w.transfer op).WellFormed w.sizes where
  len := hl
  dst := side_fits hn h.to'
  src := side_fits hn h.from'
  target := by
    intro bytes hp
    rw [transfer_dst] at hp
    unfold World.place at hp
    cases ht : op.to' with
    | none =>
      rw [ht] at hp
      cases hp
    | some a =>
      obtain ⟨r, hr, -⟩ := h.to' a ht
      obtain ⟨name, hname⟩ := Option.isSome_iff_exists.mp (h.state a r ht hr)
      simp only [ht, show w.memrefs a = some r from hr, hname] at hp
      cases hp

/-- From `w` to `v` no name, no rule and no value has changed. -/
structure SameNames (w v : World) : Prop where
  stateJS : v.stateJS = w.stateJS
  rules : v.rules = w.rules
  ifaces : SameKeys Iface.name w.ifaces v.ifaces
  kinds : w.toMem.SameKinds v.toMem
  values : ∀ a r, w.memrefs a = some r → r.stateName = none → v.memrefs a = some r

theorem SameNames.refl (w : World) : SameNames w w where
  stateJS := rfl
  rules := rfl
  ifaces := .refl _ _
  kinds := fun _ => rfl
  values := fun _ _ hr _ => hr

theorem SameNames.trans (h : SameNames w v) (h' : SameNames v u) : SameNames w u where
  stateJS := h'.stateJS.trans h.stateJS
  rules := h'.rules.trans h.rules
  ifaces := h.ifaces.trans h'.ifaces
  kinds := h.kinds.trans h'.kinds
  values := fun a r hr hn => h'.values a r (h.values a r hr hn) hn

theorem SameNames.place (h : SameNames w v) (ref : Option Addr) : v.place ref = w.place ref := by
  cases ref with
  | none => rfl
  | some a =>
    have hs := sameKinds_stateName h.kinds a
    unfold World.place
    cases hr : w.memrefs a with
    | none =>
      rw [hr] at hs
      simp only [Option.map_eq_none_iff.mp hs, hr]
    | some r =>
      cases hn : r.stateName with
      | none => simp only [h.values a r hr hn, hr]
      | some name =>
        rw [hr, Option.map_some, hn] at hs
        obtain ⟨q, hq, he⟩ := Option.map_eq_some_iff.mp hs
        simp only [hq, hr, he, hn]

theorem SameNames.transfer (h : SameNames w v) (op : OpSet) : v.transfer op = w.transfer op := by
  unfold World.transfer
  rw [h.place, h.place]

theorem SameNames.named (h : SameNames w v) (hn : StatesNamed w) : StatesNamed v := by
  intro name a
  rw [h.stateJS, hn name a]
  have hs := sameKinds_stateName h.kinds a
  constructor
  · rintro ⟨r, hr, hname⟩
    rw [hr] at hs
    obtain ⟨q, hq, he⟩ := Option.map_eq_some_iff.mp hs
    exact ⟨q, hq, he.trans hname⟩
  · rintro ⟨r, hr, hname⟩
    rw [hr] at hs
    obtain ⟨q, hq, he⟩ := Option.map_eq_some_iff.mp hs.symm
    exact ⟨q, hq, he.trans hname⟩

/-- A write that was refused changes nothing. -/
theorem opWriteRecorded_refused {op : OpSet} (h : opWrite env.cpy op w.toMem = .ok (1, w.toMem)) :
    opWriteRecorded env op w = .ok (1, w) := by
  have hl : liftMem (opWrite env.cpy op) w = .ok (1, w) := by
    unfold liftMem
    rw [h]
  unfold opWriteRecorded
  rw [bind_run (show (get : M World) w = .ok (w, w) from rfl), bind_run hl]
  rfl

/-- A transfer that cannot be done is a write that is refused. -/
theorem write_refuses {op : OpSet} (h : StatesNamed w) (hw : Wired w op)
    (hp : (w.transfer op).perform w.storage = some none) : opWriteRecorded env op w = .ok (1, w) := by
  have hl := Transfer.len_of_perform hp
  have hs := transfer_sound hw.to' hw.from' hl
  have hn : op.setTo.len.toNat ≠ 0 := by
    intro hn
    rw [Transfer.perform_empty hl hn] at hp
    cases hp
  refine opWriteRecorded_refused (opWrite_refuses hs (by omega) (fun hfit => ?_))
  obtain ⟨d, hd, -⟩ := read_fits h hw.to' hfit.1
  obtain ⟨b, hb, -⟩ := read_fits h hw.from' hfit.2
  rw [Transfer.perform_read hl hn hd hb] at hp
  split at hp
  · cases hp
  · obtain ⟨t, -, ht⟩ := Option.map_eq_some_iff.mp hp
    cases ht

variable (env) in
/-- The writes of a rule are the transfers of its clause. -/
theorem writeAll_performs {ws : List Op} {done : Bool} {t : Storage Text} (h : StatesNamed w)
    (hw : ∀ op ∈ ws, Wired w op.set)
    (hp : performAll (ws.map (fun op => w.transfer op.set)) w.storage = some (done, t)) :
    ∃ v, writeAll env ws w = .ok (done, v) ∧ v.storage = t ∧ SameNames w v := by
  induction ws generalizing w with
  | nil =>
    cases hp
    exact ⟨w, rfl, rfl, .refl w⟩
  | cons op ws ih =>
    have hop := hw op (List.mem_cons_self ..)
    simp only [List.map_cons, performAll] at hp
    split at hp
    · cases hp
    · rename_i href
      cases hp
      refine ⟨w, ?_, rfl, .refl w⟩
      unfold writeAll
      rw [bind_run (write_refuses h hop href)]
      rfl
    · rename_i s hs
      obtain ⟨m, hr, rfl, hk, hv⟩ := write_performs env h hop.to' hop.from' hop.state hs
      obtain ⟨x, hx, rfl⟩ := opWriteRecorded_ok hr
      have hjs : x.stateJS = w.stateJS := by rw [opWriteRecorded_only hx]
      have hnames : SameNames w x := by
        refine ⟨hjs, ?_, ?_, hk, hv⟩
        · rw [opWriteRecorded_only hx]
        · rw [opWriteRecorded_only hx]
          exact .refl _ _
      have hstore : World.storage { w with toMem := x.toMem } = x.storage := by
        unfold World.storage World.buffers
        rw [hjs]
      rw [hstore] at hp
      obtain ⟨y, hy, hstorage, hn⟩ := ih (hnames.named h)
        (fun o ho => (hw o (List.mem_cons_of_mem _ ho)).mono hk)
        (by simpa only [hnames.transfer] using hp)
      refine ⟨y, ?_, hstorage, hnames.trans hn⟩
      unfold writeAll
      rw [bind_run hx]
      exact hy

/-- The writes of a rule change the packet, the memrefs and the history only. -/
theorem writeAll_only {ws : List Op} {done : Bool} (h : writeAll env ws w = .ok (done, v)) :
    v = { w with toMem := v.toMem, written := v.written } := by
  induction ws generalizing w with
  | nil =>
    obtain ⟨-, rfl⟩ := pure_eq_ok.mp h
    rfl
  | cons op ws ih =>
    unfold writeAll at h
    obtain ⟨rc, u, hu, hk⟩ := bind_eq_ok.mp h
    have honly := opWriteRecorded_only hu
    split at hk
    · obtain ⟨-, rfl⟩ := pure_eq_ok.mp hk
      exact honly
    · have hrest := ih hk
      rw [honly] at hrest
      exact hrest

/-- The matches of a rule are the checks of its clause. -/
theorem matchAll_agrees {ms : List Op} {r : Bool} (h : StatesNamed w)
    (hw : ∀ op ∈ ms, Wired w op.set)
    (ha : agreeAll (ms.map (fun op => w.transfer op.set)) w.storage = some r) :
    matchAll ms w = .ok (r, w) := by
  induction ms with
  | nil =>
    cases ha
    rfl
  | cons op ms ih =>
    have hop := hw op (List.mem_cons_self ..)
    have hlift : ∀ {q : Bool}, (w.transfer op.set).agrees w.storage = some q →
        ∃ rc, liftMem (opMatch op.set) w = .ok (rc, w) ∧ (rc = 0 ↔ q = true) := by
      intro q hq
      obtain ⟨rc, hr, hrc⟩ := match_agrees h hop.to' hop.from' hq
      refine ⟨rc, ?_, hrc⟩
      unfold liftMem
      rw [hr]
    simp only [List.map_cons, agreeAll] at ha
    unfold matchAll
    split at ha
    · cases ha
    · rename_i hq
      cases ha
      obtain ⟨rc, hr, hrc⟩ := hlift hq
      rw [bind_run hr, if_pos (by simp [hrc])]
      rfl
    · rename_i hq
      obtain ⟨rc, hr, hrc⟩ := hlift hq
      rw [bind_run hr, if_neg (by simp [hrc])]
      exact ih (fun o ho => hw o (List.mem_cons_of_mem _ ho)) ha

end Operations

section Loop

theorem SameNames.queue (h : SameNames w v) (queue : Rule → List Op) (root : Option Addr) :
    v.queue queue root = w.queue queue root := by
  unfold World.queue
  rw [h.rules]

/-- A clause depends on the world by its rout set only, while the names stay. -/
theorem SameNames.clause (h : SameNames w v) (rst : Addr) : v.clause rst =
    (v.rsets rst).bind (fun set => ((w.ifaces set.ifOut).map Iface.name).map (fun out =>
      { checks := (w.queue Rule.matchJQ set.matchJQ).map (fun op => w.transfer op.set)
        writes := (w.queue Rule.writeJQ set.writeJQ).map (fun op => w.transfer op.set)
        out := out
        hits := set.countMatch })) := by
  unfold World.clause
  congr 1
  funext set
  rw [← h.ifaces set.ifOut, Option.map_map, h.queue, h.queue]
  simp only [h.transfer]
  rfl

theorem SameNames.clause_eq (h : SameNames w v) (hr : v.rsets rst = w.rsets rst) :
    v.clause rst = w.clause rst := by
  rw [h.clause, (SameNames.refl w).clause, hr]

/-- A rout set that can be tried, with the operations behind its roots. -/
structure Routed (w : World) (rst : Addr) (set : RoutSet) (out : Iface) : Prop where
  found : w.rsets rst = some set
  output : w.ifaces set.ifOut = some out
  matches' : HasQueue w Rule.matchJQ set.matchJQ (w.queue Rule.matchJQ set.matchJQ)
  writes : HasQueue w Rule.writeJQ set.writeJQ (w.queue Rule.writeJQ set.writeJQ)
  matched : ∀ op ∈ w.queue Rule.matchJQ set.matchJQ, Wired w op.set
  written : ∀ op ∈ w.queue Rule.writeJQ set.writeJQ, Wired w op.set

theorem Routed.clause {set : RoutSet} {out : Iface} (h : Routed w rst set out) :
    w.clause rst = some
      { checks := (w.queue Rule.matchJQ set.matchJQ).map (fun op => w.transfer op.set)
        writes := (w.queue Rule.writeJQ set.writeJQ).map (fun op => w.transfer op.set)
        out := out.name
        hits := set.countMatch } := by
  unfold World.clause
  rw [h.found, Option.bind_some, h.output, Option.map_some]

theorem queue_root {queue : Rule → List Op} {root : Option Addr} {rule : Addr} {r : Rule}
    (hroot : root = jqRoot rule (queue r)) (hr : w.rules rule = some r) :
    HasQueue w queue root (w.queue queue root) ∧ ∀ op ∈ w.queue queue root, op ∈ queue r := by
  subst hroot
  unfold jqRoot
  split
  · exact ⟨rfl, fun op ho => by cases ho⟩
  · have hq : w.queue queue (some rule) = queue r := by
      unfold World.queue
      rw [Option.bind_some, hr, Option.elim_some]
    rw [hq]
    exact ⟨⟨r, hr, rfl⟩, fun op ho => ho⟩

/-- Every rout set of a process can be tried. -/
theorem Consistent.routed (h : Consistent w live) {p : Process} (hp : w.processes a = some p)
    (hrst : rst ∈ p.routSetJQ) : ∃ set out, Routed w rst set out := by
  rw [(h.routs a p hp).1] at hrst
  obtain ⟨rt, hrt, rfl⟩ := List.mem_map.mp hrst
  have halive := h.routAlive hp hrt
  obtain ⟨r, ⟨-, hr⟩, set, hset, hout, hmatch, hwrite⟩ := halive.rule
  obtain ⟨i, hi, -⟩ := halive.output
  obtain ⟨hmq, hmw⟩ := queue_root hmatch hr
  obtain ⟨hwq, hww⟩ := queue_root hwrite hr
  exact ⟨set, i, hset, by rw [hout]; exact hi, hmq, hwq,
    fun op ho => h.wired hr (List.mem_append_left _ (hmw op ho)),
    fun op ho => h.wired hr (List.mem_append_right _ (hww op ho))⟩

/-- The frames handed to `send` between two moments, by the names of their ifaces. -/
def Sent (w v : World) (frames : List (Text × Bytes)) : Prop :=
  ∃ out, v.sent = w.sent ++ out ∧
    List.Forall₂ (fun x y => (w.ifaces x.1).map Iface.name = some y.1 ∧ x.2 = y.2) out frames

/-- What only the packet, a counter and the frames sent may tell from `w`. -/
structure Output (w v : World) (out : List (Addr × Bytes)) : Prop where
  sent : v.sent = w.sent ++ out
  memrefs : v.memrefs = w.memrefs
  stateJS : v.stateJS = w.stateJS
  rules : v.rules = w.rules
  rsets : v.rsets = w.rsets
  ifaces : SameKeys Iface.name w.ifaces v.ifaces

/-- Another counter of an iface. -/
theorem Output.counted {i i' : Iface} {out : List (Addr × Bytes)} (h : Output w v out)
    (hi : v.ifaces a = some i) (hn : i'.name = i.name) :
    Output w { v with ifaces := Function.update v.ifaces a (some i') } out :=
  { h with ifaces := h.ifaces.trans (.modify hi hn) }

/-- `iface_output` sends the frame that its checksums complete, or none. -/
theorem ifaceOutput_emits {out : Iface} {frame : Option Bytes} (hi : w.ifaces a = some out)
    (hf : env.finish w.pkt = some frame) :
    ∃ rc v, ifaceOutput env a w = .ok (rc, v) ∧ Output w v (frame.map (a, ·)).toList := by
  suffices hrun : Runs (fun _ => False) (ifaceOutput env a) w
      (fun _ v => Output w v (frame.map (a, ·)).toList) by
    obtain ⟨rc, v, hr, hv⟩ := hrun.exists_ok
    exact ⟨rc, v, hr, hv⟩
  have hframe : ∃ code bs, checksum env.host w.pkt = .ok (code, bs) ∧
      frame = if code = .ok then some bs else none := by
    unfold Env.finish at hf
    split at hf
    · rename_i bs hc
      exact ⟨_, bs, hc, by simpa using (Option.some.inj hf).symm⟩
    · rename_i code bs hne hc
      refine ⟨code, bs, hc, ?_⟩
      rw [if_neg (fun he => hne (by rw [he]))]
      exact (Option.some.inj hf).symm
    · cases hf
  obtain ⟨code, bs, hc, rfl⟩ := hframe
  have hlift : liftFrame (checksum env.host) w = .ok (code, { w with pkt := bs }) := by
    unfold liftFrame
    rw [hc]
  unfold ifaceOutput
  refine Runs.bind_of_ok hlift ?_
  rw [deref_run (show World.ifaces { w with pkt := bs } a = some out from hi)]
  split
  · refine Output.counted (v := { w with pkt := bs }) ?_ hi ?_
    · exact ⟨(List.append_nil _).symm, rfl, rfl, rfl, rfl, .refl _ _⟩
    · rfl
  · rename_i hcode
    obtain rfl := not_not.mp hcode
    refine Runs.bind (R := fun _ v => Output w v [(a, bs)] ∧ v.ifaces a = some out)
      ⟨⟨rfl, rfl, rfl, rfl, rfl, .refl _ _⟩, hi⟩ ?_
    intro _ v hv
    refine syscall_takes.bind ?_
    rintro ok u ⟨-, rfl⟩
    split
    · exact { hv.1 with ifaces := hv.1.ifaces }
    · refine Output.counted (v := { v with sys := v.sys.tail }) { hv.1 with ifaces := hv.1.ifaces }
        hv.2 ?_
      rfl

theorem Output.names {out : List (Addr × Bytes)} (h : Output w v out) : SameNames w v where
  stateJS := h.stateJS
  rules := h.rules
  ifaces := h.ifaces
  kinds := fun a => by rw [show v.toMem.memrefs = w.toMem.memrefs from h.memrefs]
  values := fun a r hr _ => by rw [h.memrefs]; exact hr

/-- The rout set matches as its clause does. -/
theorem routSetMatch_agrees {set : RoutSet} {out : Iface} {r : Bool} (hn : StatesNamed w)
    (h : Routed w rst set out)
    (ha : agreeAll ((w.queue Rule.matchJQ set.matchJQ).map (fun op => w.transfer op.set)) w.storage =
      some r) :
    routSetMatch rst w = .ok (r, if r then countMatch w rst set else w) := by
  have hm := matchAll_agrees hn h.matched ha
  unfold routSetMatch
  rw [bind_run (deref_ok.mpr ⟨h.found, rfl⟩), bind_run (opQueue_ok.mpr ⟨h.matches', rfl⟩),
    bind_run hm]
  cases r <;> rfl

/-- The turn of the loop whose rout set matches: it counts, writes, and sends at most once. -/
theorem acts_forwards {set : RoutSet} {out : Iface} {done : Bool} {t : Storage Text}
    {frames : List (Text × Bytes)} (hn : StatesNamed w) (h : Routed w rst set out)
    (hp : performAll ((w.queue Rule.writeJQ set.writeJQ).map (fun op => w.transfer op.set)) w.storage =
      some (done, t))
    (hf : (if done then (env.finish t.pkt).map (fun frame => (frame.map (out.name, ·)).toList)
      else some []) = some frames) :
    ∃ v, Acts env w rst v ∧ SameNames w v ∧ v.buffers = t.buffers ∧
      v.rsets = (countMatch w rst set).rsets ∧ Sent w v frames := by
  obtain ⟨u, hu, hstore, hnames⟩ := writeAll_performs env (w := countMatch w rst set) hn
    (fun op ho => (h.written op ho).mono (fun _ => rfl)) hp
  have honly := writeAll_only hu
  have hcount : SameNames w u := by
    refine .trans ?_ hnames
    exact ⟨rfl, rfl, .refl _ _, fun _ => rfl, fun _ _ hr _ => hr⟩
  have hsent : u.sent = w.sent := by rw [honly]; rfl
  have hrsets : u.rsets = (countMatch w rst set).rsets := by rw [honly]
  have hexec : routSetExec env rst (countMatch w rst set) = .ok (done, u) := by
    unfold routSetExec
    have hc : (countMatch w rst set).rsets rst =
        some { set with countMatch := set.countMatch + 1 } := Function.update_self ..
    rw [bind_run (deref_ok.mpr ⟨hc, rfl⟩)]
    have hq : opQueue Rule.writeJQ set.writeJQ (countMatch w rst set) =
        .ok (w.queue Rule.writeJQ set.writeJQ, countMatch w rst set) := opQueue_ok.mpr ⟨h.writes, rfl⟩
    exact (bind_run hq).trans hu
  cases done with
  | false =>
    cases hf
    refine ⟨u, (Acts.of_loop h.found).mpr ⟨false, u, hexec, rfl⟩, hcount,
      congrArg Storage.buffers hstore, hrsets, [], ?_, .nil⟩
    rw [hsent, List.append_nil]
  | true =>
    obtain ⟨frame, hfin, rfl⟩ := Option.map_eq_some_iff.mp hf
    have hout : u.ifaces set.ifOut = some out := by
      rw [honly]
      exact h.output
    obtain ⟨rc, v, hv, hemit⟩ := ifaceOutput_emits hout
      (show env.finish u.pkt = some frame by rw [← hfin, ← hstore]; rfl)
    refine ⟨v, (Acts.of_loop h.found).mpr ⟨true, u, hexec, rc, hv⟩, hcount.trans hemit.names, ?_,
      hemit.rsets.trans hrsets, _, by rw [hemit.sent, hsent], ?_⟩
    · rw [← hstore]
      unfold World.storage World.buffers
      rw [hemit.memrefs, hemit.stateJS]
    · cases frame with
      | none => exact .nil
      | some bs =>
        refine .cons ⟨?_, rfl⟩ .nil
        rw [h.output, Option.map_some]

/-- `process_exec` forwards a packet as the table does. -/
theorem loop_forwards {rsts : List Addr} {r : Passage Text Text} {frames : List (Text × Bytes)}
    (hn : StatesNamed w) (h : ∀ rst ∈ rsts, ∃ set out, Routed w rst set out) (hnd : rsts.Nodup)
    (hr : forward (rsts.filterMap w.clause) w.storage = some r)
    (hf : emitted env.finish r = some frames) :
    ∃ v, processExecAll env rsts w = .ok ((), v) ∧ SameNames w v ∧ v.buffers = r.storage.buffers ∧
      rsts.filterMap v.clause = r.clauses ∧ (∀ x, x ∉ rsts → v.rsets x = w.rsets x) ∧
      Sent w v frames := by
  induction rsts generalizing r with
  | nil =>
    cases hr
    cases hf
    exact ⟨w, rfl, .refl w, rfl, rfl, fun _ _ => rfl, [], (List.append_nil _).symm, .nil⟩
  | cons rst rsts ih =>
    obtain ⟨set, out, hrst⟩ := h rst (List.mem_cons_self ..)
    have hnot := (List.nodup_cons.mp hnd).1
    rw [List.filterMap_cons_some hrst.clause] at hr
    simp only [forward] at hr
    split at hr
    · cases hr
    · rename_i hagree
      have hm := routSetMatch_agrees hn hrst hagree
      obtain ⟨q, hq, rfl⟩ := Option.map_eq_some_iff.mp hr
      have hout : (if q.1 then (env.finish q.2.pkt).map (fun frame =>
          (frame.map (out.name, ·)).toList) else some []) = some frames := by
        rw [← hf]
        unfold emitted
        cases q.1 <;> rfl
      obtain ⟨v, hacts, hnames, hbuf, hrsets, hsent⟩ := acts_forwards hn hrst hq hout
      have hkeep : ∀ x, x ≠ rst → v.rsets x = w.rsets x := by
        intro x hx
        rw [hrsets]
        exact Function.update_of_ne hx ..
      refine ⟨v, (loop_acts (routSetMatch_true.mp hm).1).mpr hacts, hnames, hbuf, ?_, ?_, hsent⟩
      · have hv : v.clause rst = some
            { checks := (w.queue Rule.matchJQ set.matchJQ).map (fun op => w.transfer op.set)
              writes := (w.queue Rule.writeJQ set.writeJQ).map (fun op => w.transfer op.set)
              out := out.name
              hits := set.countMatch + 1 } := by
          rw [hnames.clause, hrsets]
          simp [countMatch, hrst.output]
        rw [List.filterMap_cons_some hv]
        congr 1
        refine List.filterMap_congr (fun x hx => ?_)
        exact hnames.clause_eq (hkeep x (fun he => hnot (he ▸ hx)))
      · exact fun x hx => hkeep x (fun he => hx (he ▸ List.mem_cons_self ..))
    · rename_i hagree
      have hm := routSetMatch_agrees hn hrst hagree
      obtain ⟨q, hq, rfl⟩ := Option.map_eq_some_iff.mp hr
      obtain ⟨v, hv, hnames, hbuf, hclauses, hkeep, hsent⟩ :=
        ih (fun x hx => h x (List.mem_cons_of_mem _ hx)) (List.nodup_cons.mp hnd).2 hq hf
      refine ⟨v, ?_, hnames, hbuf, ?_, ?_, hsent⟩
      · rw [loop_next (routSetMatch_false.mp hm).1]
        exact hv
      · have hclause : v.clause rst = w.clause rst := hnames.clause_eq (hkeep rst hnot)
        rw [List.filterMap_cons_some (hclause.trans hrst.clause), hclauses]
      · exact fun x hx => hkeep x (fun hm => hx (List.mem_cons_of_mem _ hm))

end Loop

end Xdpacket
