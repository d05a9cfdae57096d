import Xdpacket.Proofs.Attached
import Xdpacket.Proofs.Delivery

namespace Xdpacket

variable {w v : World} {live : Multiset Ref} {env : Env} {doc : Document} {mapping : Pairs doc}
  {mode : ParseMode} {a : Addr} {n : Text} {i : Iface}

section Mappings

/-- The name that a walk ends with when it starts with another one. -/
def nameAfter (doc : Document) (mapping : Pairs doc) (name : Text) : Text :=
  mapping.foldl (fun name pair => (doc.node pair.1).txt.elim name
    (fun key => nextName namesIface key (doc.node pair.2) name)) name

theorem nameAfter_cons {k x : Fin doc.size} {pairs : Pairs doc} {key txt name : Text}
    (hk : doc.node k = .scalar key) (hx : doc.node x = .scalar txt) :
    nameAfter doc ((k, x) :: pairs) name =
      nameAfter doc pairs (if namesIface key = true then txt else name) := by
  unfold nameAfter
  rw [List.foldl_cons, hk, hx]
  rfl

/-- The walk of `iface_parse` goes on to its end over texts only. -/
theorem ifaceWalk_names {s : IfaceArgs} :
    Runs (fun _ => True) (yForMap doc ifaceParseKey mapping s) w (fun r v =>
      v = { w with log := v.log } ∧ ∀ t, r = .go t →
        (∀ pair ∈ mapping, (doc.node pair.2).txt.isSome) ∧ t.name = nameAfter doc mapping s.name) := by
  induction mapping generalizing w s with
  | nil =>
    refine ⟨rfl, fun t ht => ?_⟩
    cases ht
    exact ⟨fun _ h => (by cases h), rfl⟩
  | cons pair pairs ih =>
    obtain ⟨k, x⟩ := pair
    refine yForMap_turn trivial ?_
    intro key hk
    cases hx : doc.node x with
    | sequence items => exact ⟨rfl, fun t ht => (by cases ht)⟩
    | mapping pairs => exact ⟨rfl, fun t ht => (by cases ht)⟩
    | scalar txt =>
      -- the rest of the walk, from the name that this pair leaves
      have hgo : ∀ (t : IfaceArgs) (u : World), u = { w with log := u.log } →
          t.name = (if namesIface key = true then txt else s.name) →
          Runs (fun _ => True) (yForMap doc ifaceParseKey pairs t) u (fun r v =>
            v = { w with log := v.log } ∧ ∀ t, r = .go t →
              (∀ pair ∈ (k, x) :: pairs, (doc.node pair.2).txt.isSome) ∧
                t.name = nameAfter doc ((k, x) :: pairs) s.name) := by
        intro t u hu ht
        refine ih.imp ?_
        intro r v hv
        refine ⟨by rw [hv.1, hu], fun t' ht' => ?_⟩
        obtain ⟨hall, hname⟩ := hv.2 t' ht'
        refine ⟨fun pair hp => ?_, ?_⟩
        · rcases List.mem_cons.mp hp with rfl | hp
          · rw [hx]
            rfl
          · exact hall pair hp
        · rw [hname, nameAfter_cons hk hx, ht]
      unfold ifaceParseKey
      by_cases hn : key = "iface" ∨ key = "i"
      · simp only [if_pos hn]
        refine hgo _ _ rfl ?_
        have hb : namesIface key = true := by simpa [namesIface] using hn
        rw [if_pos hb]
      · simp only [if_neg hn, nbErr]
        rw [Runs.bind_iff, Runs.modify_iff]
        refine hgo _ _ rfl ?_
        have hb : ¬ namesIface key = true := by simpa [namesIface] using hn
        rw [if_neg hb]

/-- The mapping only says which iface it is about. -/
structure NamesIface (doc : Document) (mapping : Pairs doc) (n : Text) : Prop where
  keys : ∀ pair ∈ mapping, ∃ key txt, doc.node pair.1 = .scalar key ∧ namesIface key = true ∧
    doc.node pair.2 = .scalar txt
  last : lastName doc namesIface mapping = n

theorem ifaceWalk_named {s : IfaceArgs}
    (h : ∀ pair ∈ mapping, ∃ key txt, doc.node pair.1 = .scalar key ∧ namesIface key = true ∧
      doc.node pair.2 = .scalar txt) :
    yForMap doc ifaceParseKey mapping s w =
      .ok (.go { s with name := nameAfter doc mapping s.name }, w) := by
  induction mapping generalizing s with
  | nil => rfl
  | cons pair pairs ih =>
    obtain ⟨k, x⟩ := pair
    obtain ⟨key, txt, hk, hn, hx⟩ := h _ List.mem_cons_self
    have hb : key = "iface" ∨ key = "i" := by simpa [namesIface] using hn
    refine bind_eq_ok.mpr ⟨key, w, by rw [hk]; rfl, bind_eq_ok.mpr ⟨.go { s with name := txt }, w, ?_, ?_⟩⟩
    · rw [hx]
      simp only [ifaceParseKey, if_pos hb]
      rfl
    · have hrest := ih (s := { s with name := txt }) (fun pair hp => h pair (List.mem_cons_of_mem _ hp))
      rw [nameAfter_cons hk hx, if_pos hn]
      exact hrest

theorem NamesIface.walked (h : NamesIface doc mapping n) :
    yForMap doc ifaceParseKey mapping ⟨0, ""⟩ w = .ok (.go ⟨0, n⟩, w) := by
  rw [ifaceWalk_named h.keys, ← h.last]
  rfl

end Mappings

section Steps

theorem Attached.of_idle (h : Attached env w) (hi : Idle w v) (ho : v.openFds = w.openFds) :
    Attached env v :=
  h.of_same (by rw [hi.ifaces]; exact .refl _ _) ho hi.tracked

theorem ifaceEmit_quiet (env : Env) (hi : w.ifaces a = some i) :
    Runs NoDangle (ifaceEmit a) w (fun _ v => Idle w v ∧ v.openFds = w.openFds) :=
  ((ifaceEmit_idle hi).and (Obeys.ifaceEmit (P := @openFds_policy env w.openFds).keeps w rfl)).imp
    (fun _ _ hv => ⟨hv.1.1, hv.2.1⟩)

/-- `iface_parse` in del mode, after its walk. -/
theorem ifaceParseMode_drops {s : IfaceArgs} (hc : Consistent w live) (h : Attached env w) :
    Runs (fun _ => True) (ifaceParseMode env .del s) w (fun _ v => Attached env v) := by
  have hdie : ∀ {v : World} {msg : Text}, Attached env v →
      Runs (fun _ => True) (parseDie s.errCnt msg) v (fun _ v => Attached env v) :=
    fun hv => (Obeys.parseDie (P := attached)).keeps.runs hv
  unfold ifaceParseMode
  rw [jsGet_run]
  cases hl : AList.lookup s.name w.ifaceJS with
  | none => exact hdie h
  | some a =>
    obtain ⟨i, hi, -⟩ := hc.ifaces.found hl
    refine Runs.bind_of_ok (deref_ok.mpr ⟨hi, rfl⟩) ?_
    by_cases hz : i.refcnt = 0
    · rw [if_neg (not_not.mpr hz)]
      refine ((ifaceEmit_quiet env hi).mono (fun _ _ => trivial) (fun _ _ hq => hq)).bind ?_
      intro errs v hv
      have hav := h.of_idle hv.1 hv.2
      split
      · exact hdie hav
      have hiv : v.ifaces a = some i := by
        rw [hv.1.ifaces]
        exact hi
      refine Runs.bind_of_ok (eptkRemove_drops hav (hv.1.consistent hc) hiv hz) ?_
      exact hav.drop hiv
    · rw [if_pos hz]
      exact hdie h

/-- What an add of an iface has to meet. Its walk must have come to its end. -/
def IfaceMeets (env : Env) (doc : Document) : MappingCondition doc
  | .iface, .add, pairs, w => (∀ pair ∈ pairs, (doc.node pair.2).txt.isSome) →
      AddMeets env (lastName doc namesIface pairs) w
  | _, _, _, _ => True

theorem ifaceParse_attached (hc : Consistent w live) (h : Attached env w)
    (hm : IfaceMeets env doc .iface mode mapping w) :
    Runs (fun _ => True) (ifaceParse env mode doc mapping) w (fun _ v => Attached env v) := by
  unfold ifaceParse
  refine ifaceWalk_names.bind ?_
  intro r v hv
  obtain ⟨hv, hgo⟩ := hv
  have hi : Idle w v := by
    rw [hv]
    exact { Idle.refl w with next := Nat.le_refl _ }
  have hav : Attached env v := h.of_idle hi (by rw [hv])
  cases r with
  | die s => exact hav
  | go s =>
    cases mode with
    | add =>
      obtain ⟨hall, hname⟩ := hgo s rfl
      have hmv : AddMeets env s.name v := by
        have hmw : AddMeets env s.name w := by
          rw [hname]
          exact hm hall
        rw [hv]
        exact ⟨fun ho => hmw.registers ⟨ho.free, ho.copied, ho.memory, ho.calls⟩, hmw.spares⟩
      exact ifaceParseMode_attached (hi.consistent hc) hav hmv
    | del => exact ifaceParseMode_drops (hi.consistent hc) hav
    | prn =>
      simp only [ifaceParseMode]
      split
      · exact (Obeys.parseEmit (P := attached)).keeps.runs hav
      · rw [jsGet_run]
        split
        · exact hav
        · exact (Obeys.parseEmit (P := attached)).keeps.runs hav
    | invalid => exact (Obeys.parseDie (P := attached)).keeps.runs hav

/-- One mapping keeps every iface serviced. -/
theorem subsystemParse_attached {sub : Subsystem} (hc : Consistent w live) (h : Attached env w)
    (hm : IfaceMeets env doc sub mode mapping w) :
    Runs (fun _ => True) (subsystemParse env sub mode doc mapping) w (fun _ v => Attached env v) := by
  cases sub with
  | iface => exact ifaceParse_attached hc h hm
  | field => exact (Obeys.fieldParse (P := attached)).keeps.runs h
  | rule => exact (Obeys.ruleParse (P := attached)).keeps.runs h
  | process => exact (Obeys.processParse (P := attached)).keeps.runs h

/-- The callback asks to be deregistered. -/
def Recv.quits : Recv → Bool
  | .failed => true
  | .packet _ bytes => bytes.isEmpty

theorem ifaceCallback_quits {recv : Recv} (h : recv.quits = true) :
    ifaceCallback env a recv w = .ok (1, w) := by
  cases recv with
  | failed => rfl
  | packet outgoing bytes =>
    unfold ifaceCallback
    simp only [if_pos (show bytes.isEmpty = true from h)]
    rfl

theorem ifaceCallback_stays {recv : Recv} (h : ¬ recv.quits = true) :
    Runs (fun _ => True) (ifaceCallback env a recv) w (fun rc _ => rc = 0) := by
  cases recv with
  | failed => exact absurd rfl h
  | packet outgoing bytes =>
    unfold ifaceCallback
    simp only [if_neg (show ¬ bytes.isEmpty = true from h)]
    refine Runs.any.bind (fun _ _ _ => Runs.any.bind (fun i _ _ => ?_))
    split
    · exact Runs.any.bind (fun _ _ _ => rfl)
    · refine Runs.any.bind (fun _ _ _ => ?_)
      cases i.handler with
      | none => exact rfl
      | some handler =>
        cases handler
        exact Runs.any.bind (fun _ _ _ => rfl)

/-- An iface whose socket fails is not in use. -/
def PacketMeets (a : Addr) (recv : Recv) (w : World) : Prop :=
  recv.quits = true → ∀ i, w.ifaces a = some i → i.refcnt = 0

theorem poll_attached {recv : Recv} (hc : Consistent w live) (h : Attached env w)
    (hm : PacketMeets a recv w) :
    Runs (fun _ => True) (poll env a recv) w (fun _ v => Attached env v) := by
  unfold poll
  rw [Runs.bind_iff, Runs.get_iff]
  cases hr : w.tracked.find? (fun r => r.2 = a) with
  | none => exact h
  | some r =>
    have hmem := List.mem_of_find?_eq_some hr
    have hp := List.find?_some hr
    have ha : r.2 = a := of_decide_eq_true hp
    have hsome : (w.ifaces a).isSome := ha ▸ hc.tracked.2 r hmem
    obtain ⟨i, hi⟩ := Option.isSome_iff_exists.mp hsome
    by_cases hq : recv.quits = true
    · refine Runs.bind_of_ok (ifaceCallback_quits hq) ?_
      have hfd : (r.1 : Int) = i.fd := (h.registered hc hi hmem).mp ha
      simp only [if_pos (show (1 : Nat) ≠ 0 by omega), hfd]
      exact Runs.bind_of_ok (eptkRemove_drops h hc hi (hm hq i hi)) (h.drop hi)
    · refine ((ifaceCallback_stays hq).and ((Passing.ifaceCallback.runs w).and
        (ifaceCallback_does hc hsome))).bind ?_
      intro rc v hv
      obtain ⟨rfl, hp, hh, -⟩ := hv
      simp only [ne_eq, not_true_eq_false, if_false]
      exact h.of_same hp.ifaces hp.openFds hh.tracked

/-- What an event has to meet for every iface to stay serviced. -/
def LivenessMeets (env : Env) : Event → World → Prop :=
  Event.Meets env (IfaceMeets env) PacketMeets

theorem attached_companion : Companion env (IfaceMeets env) PacketMeets (Attached env) where
  idle := fun h hi ho => h.of_idle hi ho
  mapping := fun hc h hm => subsystemParse_attached hc h hm
  packet := fun hc h hm => poll_attached hc h hm

end Steps

section Liveness

theorem ifaceEmit_grants (hi : w.ifaces a = some i) (h : w.oom.headD false = false) :
    ∃ reply, ifaceEmit a w = .ok (0, { w with oom := w.oom.tail, outlist := w.outlist ++ [reply] }) := by
  refine ⟨_, bind_eq_ok.mpr ⟨i, w, deref_ok.mpr ⟨hi, rfl⟩, bind_eq_ok.mpr ⟨true, _, alloc_grants h, rfl⟩⟩⟩

/-- A mapping that names a stored iface that nothing refers to deletes it. -/
theorem ifaceParse_deletes (hc : Consistent w live) (h : Attached env w)
    (hl : AList.lookup n w.ifaceJS = some a) (hi : w.ifaces a = some i) (hz : i.refcnt = 0)
    (hn : NamesIface doc mapping n) (hm : w.oom.headD false = false) :
    ∃ reply, ifaceParse env .del doc mapping w = .ok (0, World.dropIface
      { w with oom := w.oom.tail, outlist := w.outlist ++ [reply] } a i) := by
  obtain ⟨reply, hemit⟩ := ifaceEmit_grants hi hm
  have hidle : Idle w { w with oom := w.oom.tail, outlist := w.outlist ++ [reply] } :=
    { Idle.refl w with next := Nat.le_refl _ }
  refine ⟨reply, ?_⟩
  unfold ifaceParse
  refine bind_eq_ok.mpr ⟨_, w, hn.walked, ?_⟩
  simp only [ifaceParseMode]
  refine bind_eq_ok.mpr ⟨some a, w, ?_, bind_eq_ok.mpr ⟨i, w, deref_ok.mpr ⟨hi, rfl⟩, ?_⟩⟩
  · change (Except.ok (AList.lookup n w.ifaceJS, w) : Except Fault _) = _
    rw [hl]
  · rw [if_neg (not_not.mpr hz)]
    refine bind_eq_ok.mpr ⟨0, _, hemit, ?_⟩
    exact bind_eq_ok.mpr ⟨1, _, eptkRemove_drops (h.of_idle hidle rfl) (hidle.consistent hc) hi hz, rfl⟩

/-- A mapping that names an iface that can be opened adds it. -/
theorem ifaceParse_adds (ho : Openable env n w) (hn : NamesIface doc mapping n)
    (hm : Granted 7 w.oom) (hs : Granted 10 w.sys) :
    ∃ reply, ifaceParse env .add doc mapping w = .ok (0,
      { w.addIface env n with oom := w.oom.drop 7, outlist := w.outlist ++ [reply] }) := by
  have hreg : (w.sys.drop 9).headD false = false :=
    (granted_succ.mp ((granted_add (j := 9) (k := 1)).mp hs).2).1
  have hmem : (w.addIface env n).oom.headD false = false :=
    (granted_succ.mp ((granted_add (j := 6) (k := 1)).mp hm).2).1
  have hi : (w.addIface env n).ifaces w.next = some (newIface env n (lowestFd w.openFds)) :=
    Function.update_self ..
  obtain ⟨reply, hemit⟩ := ifaceEmit_grants hi hmem
  refine ⟨reply, ?_⟩
  unfold ifaceParse
  refine bind_eq_ok.mpr ⟨_, w, hn.walked, ?_⟩
  simp only [ifaceParseMode]
  refine bind_eq_ok.mpr ⟨_, _, ho.opens, bind_eq_ok.mpr ⟨_, _, deref_ok.mpr ⟨hi, rfl⟩, ?_⟩⟩
  refine bind_eq_ok.mpr ⟨_, _, eptkRegister_adds hreg, bind_eq_ok.mpr ⟨0, _, hemit, ?_⟩⟩
  have hoom : w.oom.drop 7 = (w.oom.drop 6).tail := (List.tail_drop ..).symm
  rw [hoom]
  rfl

/-- Any mapping that names the iface deletes it, its socket and its registration, given
memory for the reply; a mapping that names it then adds it again. -/
def Deletable (env : Env) (w : World) (a : Addr) (i : Iface) : Prop :=
  ∀ doc mapping, NamesIface doc mapping i.name → w.oom.headD false = false →
    ∃ v, subsystemParse env .iface .del doc mapping w = .ok (0, v) ∧
      AList.lookup i.name v.ifaceJS = none ∧ v.ifaces a = none ∧
      (∀ fd ∈ v.openFds, (fd : Int) ≠ i.fd) ∧ (∀ r ∈ v.tracked, r.2 ≠ a) ∧
      (Granted 8 w.oom → Granted 10 w.sys →
        ∃ u b j, subsystemParse env .iface .add doc mapping v = .ok (0, u) ∧
          AList.lookup i.name u.ifaceJS = some b ∧ u.ifaces b = some j ∧ Serviced u b j)

/-- Exactly the stored ifaces have an open and registered socket. Their packets are handled,
and one that nothing refers to can be deleted and added again. -/
structure LiveIfaces (env : Env) (w : World) : Prop where
  stored : ∀ n a, AList.lookup n w.ifaceJS = some a ↔
    ∃ i, w.ifaces a = some i ∧ i.name = n ∧ Serviced w a i
  registered : ∀ fd a, (fd, a) ∈ w.tracked → ∃ i, w.ifaces a = some i ∧ i.fd = fd
  handled : ∀ n a outgoing bytes, AList.lookup n w.ifaceJS = some a → bytes ≠ [] →
    handle env (.packet a (.packet outgoing bytes)) w =
      (do let _ ← ifaceCallback env a (.packet outgoing bytes)) w
  deletable : ∀ n a i, AList.lookup n w.ifaceJS = some a → w.ifaces a = some i → i.refcnt = 0 →
    Deletable env w a i

theorem Attached.deletable (h : Attached env w) (hc : Consistent w live)
    (hi : w.ifaces a = some i) (hz : i.refcnt = 0) : Deletable env w a i := by
  intro doc mapping hn hm
  obtain ⟨reply, hdel⟩ := ifaceParse_deletes hc h (hc.ifaces.listed hi rfl) hi hz hn hm
  refine ⟨_, hdel, AList.lookup_erase _ _, Function.update_self .., ?_, ?_, ?_⟩
  · intro fd hfd
    simpa using (List.mem_filter.mp hfd).2
  · intro r hr ha
    obtain ⟨hmem, hkeep⟩ := List.mem_filter.mp hr
    exact of_decide_eq_true hkeep ((h.registered hc hi hmem).mp ha)
  · intro hmem hsys
    have hseven : Granted 7 w.oom.tail := (granted_succ.mp hmem).2
    have hopen : Openable env i.name
        (World.dropIface { w with oom := w.oom.tail, outlist := w.outlist ++ [reply] } a i) := by
      refine ⟨AList.lookup_erase _ _, h.named a i hi, ?_, ?_⟩
      · exact ((granted_add (j := 6) (k := 1)).mp hseven).1
      · exact ((granted_add (j := 9) (k := 1)).mp hsys).1
    obtain ⟨reply', hadd⟩ := ifaceParse_adds hopen hn hseven hsys
    refine ⟨_, _, _, hadd, AList.lookup_insert .., Function.update_self .., ?_⟩
    exact ⟨_, rfl, List.mem_cons_self, List.mem_append_right _ (List.mem_singleton_self _)⟩

/-- A callback that does not quit leaves its registration alone. -/
theorem poll_stays {recv : Recv} {r : Nat × Addr}
    (hr : w.tracked.find? (fun r => r.2 = a) = some r) (hq : ¬ recv.quits = true) :
    poll env a recv w = (do let _ ← ifaceCallback env a recv) w := by
  have hget : ∀ k : World → M Unit, (get >>= k) w = k w w := fun _ => rfl
  have hzero : Runs (fun _ => True) (ifaceCallback env a recv) w (fun rc _ => rc = 0) :=
    ifaceCallback_stays hq
  unfold poll
  rw [hget]
  simp only [hr]
  change Except.bind (ifaceCallback env a recv w) _ = Except.bind (ifaceCallback env a recv w) _
  cases hcb : ifaceCallback env a recv w with
  | error e => rfl
  | ok p =>
    have hrc : p.1 = 0 := hzero.ok hcb
    simp only [Except.bind, hrc, ne_eq, not_true_eq_false, if_false]

/-- Where every iface is serviced, exactly the stored ifaces are. -/
theorem Attached.liveIfaces (h : Attached env w) (hc : Consistent w live) : LiveIfaces env w where
  stored := by
    intro n a
    constructor
    · intro hl
      obtain ⟨i, hi, hn⟩ := hc.ifaces.found hl
      exact ⟨i, hi, Option.some.inj hn, h.serviced a i hi⟩
    · intro hs
      obtain ⟨i, hi, hn, -⟩ := hs
      exact hc.ifaces.listed hi (congrArg some hn)
  registered := by
    intro fd a hr
    obtain ⟨i, hi⟩ := Option.isSome_iff_exists.mp (hc.tracked.2 _ hr)
    exact ⟨i, hi, ((h.registered hc hi hr).mp rfl).symm⟩
  handled := by
    intro n a outgoing bytes hl hb
    obtain ⟨i, hi, -⟩ := hc.ifaces.found hl
    obtain ⟨fd, -, -, ht⟩ := h.serviced a i hi
    have hsome : (w.tracked.find? (fun r => r.2 = a)).isSome :=
      List.find?_isSome.mpr ⟨_, ht, decide_eq_true rfl⟩
    obtain ⟨r, hr⟩ := Option.isSome_iff_exists.mp hsome
    exact poll_stays hr (by simpa [Recv.quits] using hb)
  deletable := fun _ _ _ _ hi hz => h.deletable hc hi hz

/-- In a run that loses no registration and closes no socket of an iface in use, exactly the
stored ifaces are serviced. -/
theorem ifaces_live {openFds : List Nat} {oom sys : List Bool} {events : List Event}
    (hm : StepsMeet env (LivenessMeets env) events (World.start openFds oom sys))
    (hr : handleAll env events (World.start openFds oom sys) = .ok ((), w)) : LiveIfaces env w := by
  have hstart : Attached env (World.start openFds oom sys) :=
    ⟨fun _ _ h => (by cases h), fun _ _ _ _ h => (by cases h), fun _ _ h => (by cases h)⟩
  obtain ⟨⟨live, hc⟩, ha⟩ := attached_companion.run hstart hm hr
  exact ha.liveIfaces hc

def arpOnE : List Event := reflectE.take 1 ++ [.packet 1 (.packet false arpFrame)]

theorem arpOnE_runs : Runs (fun _ => False) (handleAll .sample arpOnE) (World.start [0, 1, 2] [] [])
    (fun _ w => AList.lookup "e" w.ifaceJS = some 1 ∧ w.tracked = [(3, 1)]) := by
  decide +kernel

theorem ifaces_live_e : ∃ w, handleAll .sample arpOnE (World.start [0, 1, 2] [] []) = .ok ((), w) ∧
    AList.lookup "e" w.ifaceJS = some 1 ∧ LiveIfaces .sample w := by
  obtain ⟨_, w, hw, hl, -⟩ := arpOnE_runs.exists_ok
  have hm : StepsMeet .sample (LivenessMeets .sample) arpOnE (World.start [0, 1, 2] [] []) := by
    refine ⟨fun _ => ⟨fun _ => rfl, fun _ _ _ hi => by cases hi⟩, fun _ _ => ⟨?_, fun _ _ => trivial⟩⟩
    intro hq
    cases hq
  exact ⟨w, hw, hl, ifaces_live hm hw⟩

/-- A receive error on an iface that a process refers to. -/
def lossE : List Event := reflectE ++ [.packet 1 .failed]

theorem lossE_runs : Runs (fun _ => False) (handleAll .sample lossE) (World.start [0, 1, 2] [] [])
    (fun _ w => AList.lookup "e" w.ifaceJS = some 1 ∧ w.tracked = []) := by
  decide +kernel

/-- The iface stays stored, and is no longer polled. -/
theorem loss_not_live : ¬ ∀ env w, Reachable env w → LiveIfaces env w := by
  intro h
  obtain ⟨_, w, hw, hl, ht⟩ := lossE_runs.exists_ok
  obtain ⟨i, -, -, fd, -, -, hr⟩ := (((h .sample w ⟨[0, 1, 2], [], [], lossE, hw⟩).stored "e" 1).mp hl)
  rw [ht] at hr
  cases hr

end Liveness

end Xdpacket
