import Xdpacket.Proofs.Calls
import Xdpacket.Proofs.Counting
import Xdpacket.Proofs.Delivery

namespace Xdpacket

mutual

/-- A node of a loaded document is what a node of a reply was dumped to. -/
inductive Shows (doc : Document) : Node doc.size → Out → Prop where
  | scalar (value : Text) : Shows doc (.scalar value) (.scalar value)
  | sequence (items : ShowsItems doc xs outs) : Shows doc (.sequence xs) (.sequence outs)
  | mapping (pairs : ShowsPairs doc kvs outs) : Shows doc (.mapping kvs) (.mapping outs)

inductive ShowsItems (doc : Document) : List (Fin doc.size) → List Out → Prop where
  | nil : ShowsItems doc [] []
  | cons (item : Shows doc (doc.node x) out) (items : ShowsItems doc xs outs) :
      ShowsItems doc (x :: xs) (out :: outs)

inductive ShowsPairs (doc : Document) : Pairs doc → List (Text × Out) → Prop where
  | nil : ShowsPairs doc [] []
  | cons (key : doc.node k = .scalar keyname) (value : Shows doc (doc.node x) out)
      (pairs : ShowsPairs doc kvs outs) : ShowsPairs doc ((k, x) :: kvs) ((keyname, out) :: outs)

end

variable {w v u : World} {env : Env} {doc : Document} {a : Addr} {n : Nat} {out : Out}

/-- The emitter appends one mapping to the reply. -/
def Emits (emit : M Nat) (w : World) (out : Out) : Prop :=
  ∃ u, emit w = .ok (0, u) ∧ u.outlist = w.outlist ++ [out]

/-- The parser reports no error. -/
def Accepted (parser : M Nat) (w : World) : Prop := ∃ u, parser w = .ok (0, u)

section Emitting

theorem emitReply_ok (h : emitReply out w = .ok (0, u)) : u.outlist = w.outlist ++ [out] := by
  obtain ⟨ok, v, ha, hk⟩ := bind_eq_ok.mp h
  have hv : v.outlist = w.outlist := by
    have hd := (alloc_draw (E := fun _ => True)).ok ha
    rw [hd.2]
  cases ok with
  | false => exact absurd (pure_eq_ok.mp hk).1 (by simp)
  | true =>
    obtain ⟨_, t, hm, hk⟩ := bind_eq_ok.mp hk
    cases hm
    obtain ⟨-, rfl⟩ := pure_eq_ok.mp hk
    change v.outlist ++ [out] = _
    rw [hv]

/-- The one mapping that an emitter built is what it appended. -/
theorem Emits.of_reply {built : Out} (h : Emits (emitReply built) w out) : out = built := by
  obtain ⟨u, hr, hu⟩ := h
  rw [emitReply_ok hr] at hu
  exact (List.singleton_inj.mp (List.append_cancel_left hu)).symm

theorem deref_looks {heap : World → Heap α} : Looks (deref heap a) :=
  fun _ _ _ h => (deref_ok.mp h).2

theorem routEmit_looks {rt : Rout} : Looks (routEmit rt) :=
  deref_looks.bind (fun _ => deref_looks.bind (fun _ => deref_looks.bind (fun _ => .pure _)))

theorem routEmitAll_looks {rts : List Rout} : Looks (routEmitAll rts) := by
  induction rts with
  | nil => exact .pure _
  | cons rt rts ih => exact routEmit_looks.bind (fun _ => ih.bind (fun _ => .pure _))

/-- After a part that only looks, the rest is what emits. -/
theorem emits_bind {m : M α} {k : α → M Nat} (hm : Looks m) :
    Emits (m >>= k) w out ↔ ∃ x, m w = .ok (x, w) ∧ Emits (k x) w out := by
  constructor
  · intro h
    obtain ⟨u, hr, hu⟩ := h
    obtain ⟨x, v, hx, hk⟩ := bind_eq_ok.mp hr
    obtain rfl := hm w x v hx
    exact ⟨x, hx, u, hk, hu⟩
  · intro h
    obtain ⟨x, hx, u, hk, hu⟩ := h
    exact ⟨u, bind_eq_ok.mpr ⟨x, w, hx, hk⟩, hu⟩

theorem processEmit_shape (h : Emits (processEmit a) w out) : ∃ name nodes,
    out = .mapping [("process", .scalar name), ("nodes", .sequence nodes)] := by
  obtain ⟨pc, -, h⟩ := (emits_bind deref_looks).mp h
  obtain ⟨nodes, -, h⟩ := (emits_bind routEmitAll_looks).mp h
  obtain ⟨i, -, h⟩ := (emits_bind deref_looks).mp h
  exact ⟨i.name, nodes, h.of_reply⟩

theorem ifaceEmit_shape (h : Emits (ifaceEmit a) w out) : ∃ name address counters,
    out = .mapping (("iface", .scalar name) :: ("address", .scalar address) :: counters) := by
  obtain ⟨i, -, h⟩ := (emits_bind deref_looks).mp h
  exact ⟨_, _, _, h.of_reply⟩

end Emitting

section Parsing

/-- The walk over a shown mapping, one pair at a time. -/
theorem yForMap_shown {statements : Text → Node doc.size → σ → M (Step σ)} {k x : Fin doc.size}
    {pairs : Pairs doc} {s : σ} {keyname : Text} (h : doc.node k = .scalar keyname) :
    yForMap doc statements ((k, x) :: pairs) s = (do
      match ← statements keyname (doc.node x) s with
      | .go s => yForMap doc statements pairs s
      | .die s => return .die s) := by
  rw [yForMap, h]
  rfl

theorem Shows.eq_scalar {node : Node doc.size} {value : Text} (h : Shows doc node (.scalar value)) :
    node = .scalar value := by
  cases h
  rfl

theorem Shows.eq_sequence {node : Node doc.size} {outs : List Out} (h : Shows doc node (.sequence outs)) :
    ∃ xs, node = .sequence xs ∧ ShowsItems doc xs outs := by
  cases h with
  | sequence items => exact ⟨_, rfl, items⟩

theorem Shows.eq_mapping {node : Node doc.size} {outs : List (Text × Out)}
    (h : Shows doc node (.mapping outs)) : ∃ kvs, node = .mapping kvs ∧ ShowsPairs doc kvs outs := by
  cases h with
  | mapping pairs => exact ⟨_, rfl, pairs⟩

/-- The pairs of a shown mapping, one after the other. -/
theorem ShowsPairs.eq_cons {kvs : Pairs doc} {keyname : Text} {outs : List (Text × Out)}
    (h : ShowsPairs doc kvs ((keyname, out) :: outs)) : ∃ k x rest, kvs = (k, x) :: rest ∧
      doc.node k = .scalar keyname ∧ Shows doc (doc.node x) out ∧ ShowsPairs doc rest outs := by
  cases h with
  | cons key value pairs => exact ⟨_, _, _, rfl, key, value, pairs⟩

theorem ShowsPairs.eq_nil {kvs : Pairs doc} (h : ShowsPairs doc kvs []) : kvs = [] := by
  cases h
  rfl

/-- A key that `process_parse` does not implement is an error. -/
theorem processParse_nodes {mode : ParseMode} {mapping : Pairs doc} {name : Text} {nodes : List Out}
    (h : ShowsPairs doc mapping [("process", .scalar name), ("nodes", .sequence nodes)]) :
    Counts (processParse mode doc mapping) := by
  obtain ⟨k₁, x₁, rest, rfl, hk₁, hx₁, h⟩ := h.eq_cons
  obtain ⟨k₂, x₂, rest, rfl, hk₂, hx₂, h⟩ := h.eq_cons
  obtain rfl := h.eq_nil
  obtain ⟨xs, hx₂, -⟩ := hx₂.eq_sequence
  apply processParse_counts
  simp [processWrong, walkMeets, visited, hk₁, hk₂, hx₁.eq_scalar, hx₂, Node.isMapping,
    processPairWrong, namesRules]

/-- So is one that `iface_parse` does not, whatever comes after it. -/
theorem ifaceParse_address {mode : ParseMode} {mapping : Pairs doc} {name address : Text}
    {counters : List (Text × Out)} (h : ShowsPairs doc mapping
      (("iface", .scalar name) :: ("address", .scalar address) :: counters)) :
    Counts (ifaceParse env mode doc mapping) := by
  obtain ⟨k₁, x₁, rest, rfl, hk₁, hx₁, h⟩ := h.eq_cons
  obtain ⟨k₂, x₂, rest, rfl, hk₂, hx₂, h⟩ := h.eq_cons
  refine ifaceParse_counts ⟨("address", .scalar address), ?_, .inr rfl⟩
  simp [visited, hk₁, hk₂, hx₁.eq_scalar, hx₂.eq_scalar, notScalar, Node.isScalar]

end Parsing

/-- What `process_emit` and `iface_emit` print is never accepted again, wherever it is
added: each prints a key that its parser rejects. -/
theorem replies_never_accepted {pairs : Pairs doc} (h : Shows doc (.mapping pairs) out) :
    (Emits (processEmit a) w out → ¬ Accepted (processParse .add doc pairs) v) ∧
    (Emits (ifaceEmit a) w out → ∀ env, ¬ Accepted (ifaceParse env .add doc pairs) v) := by
  constructor
  · intro he ha
    obtain ⟨name, nodes, rfl⟩ := processEmit_shape he
    obtain ⟨u, hu⟩ := ha
    obtain ⟨kvs, hk, hp⟩ := h.eq_mapping
    cases hk
    exact (processParse_nodes hp v).ok hu rfl
  · intro he env ha
    obtain ⟨name, address, counters, rfl⟩ := ifaceEmit_shape he
    obtain ⟨u, hu⟩ := ha
    obtain ⟨kvs, hk, hp⟩ := h.eq_mapping
    cases hk
    exact (ifaceParse_address hp v).ok hu rfl

/-- `{process: e, nodes: [{x: e, matches: 0}]}` -/
def processReply : Document where
  size := 9
  node := List.get [.mapping [(1, 2), (3, 4)], .scalar "process", .scalar "e", .scalar "nodes",
    .sequence [5], .mapping [(6, 2), (7, 8)], .scalar "x", .scalar "matches", .scalar "0"]

def processReplyPairs : Pairs processReply := ([(1, 2), (3, 4)] : List (Fin 9 × Fin 9))

def processOut : Out :=
  .mapping [("process", .scalar "e"),
    ("nodes", .sequence [.mapping [("x", .scalar "e"), ("matches", .scalar "0")]])]

theorem processReply_shows : Shows processReply (.mapping processReplyPairs) processOut :=
  .mapping (.cons rfl (.scalar "e") (.cons rfl (.sequence (.cons (.mapping
    (.cons rfl (.scalar "e") (.cons rfl (.scalar "0") .nil))) .nil)) .nil))

theorem reflectE_runs : Runs (fun _ => False) (handleAll .sample reflectE) (World.start [] [] [])
    (fun _ w => w.processes 4 = some ⟨1, [⟨2, 1, 3⟩], [3]⟩ ∧
      (w.rules 2).map Rule.name = some "x" ∧ (w.ifaces 1).map Iface.name = some "e" ∧
      (w.rsets 3).map RoutSet.countMatch = some 0 ∧ w.oom = [] ∧
      w.ruleJS.keys = ["x"] ∧ w.ifaceJS.keys = ["e"]) := by
  decide +kernel

theorem emitReply_emits (h : w.oom = []) : Emits (emitReply out) w out := by
  refine ⟨{ w with outlist := w.outlist ++ [out] }, ?_, rfl⟩
  have ha := alloc_grants (w := w) (by rw [h]; rfl)
  rw [h, List.tail_nil, ← h] at ha
  exact bind_eq_ok.mpr ⟨true, w, ha, rfl⟩

theorem processEmit_emits {p : Process} {rt : Rout} {r : Rule} {i o : Iface} {s : RoutSet}
    (hp : w.processes a = some p) (hq : p.routJQ = [rt]) (hr : w.rules rt.rule = some r)
    (ho : w.ifaces rt.output = some o) (hs : w.rsets rt.set = some s)
    (hi : w.ifaces p.inIface = some i) (hm : w.oom = []) :
    Emits (processEmit a) w (.mapping [("process", .scalar i.name),
      ("nodes", .sequence [.mapping [(r.name, .scalar o.name),
        ("matches", .scalar (toString s.countMatch.toNat))]])]) := by
  have hd : ∀ {α : Type} {heap : World → Heap α} {b : Addr} {x : α}, heap w b = some x →
      deref heap b w = .ok (x, w) := fun hx => deref_ok.mpr ⟨hx, rfl⟩
  have hrout : routEmit rt w = .ok (.mapping [(r.name, .scalar o.name),
      ("matches", .scalar (toString s.countMatch.toNat))], w) :=
    bind_eq_ok.mpr ⟨r, w, hd hr, bind_eq_ok.mpr ⟨o, w, hd ho, bind_eq_ok.mpr ⟨s, w, hd hs, rfl⟩⟩⟩
  refine (emits_bind deref_looks).mpr ⟨p, hd hp, (emits_bind routEmitAll_looks).mpr ⟨_, ?_,
    (emits_bind deref_looks).mpr ⟨i, hd hi, emitReply_emits hm⟩⟩⟩
  rw [hq]
  exact bind_eq_ok.mpr ⟨_, w, hrout, rfl⟩

/-- The process that reads from and writes to `e` has been printed. -/
theorem process_printed : ∃ w, handleAll .sample reflectE (World.start [] [] []) = .ok ((), w) ∧
    Emits (processEmit 4) w processOut ∧ w.ruleJS.keys = ["x"] ∧ w.ifaceJS.keys = ["e"] := by
  obtain ⟨_, w, hw, hp, hr, hi, hs, hm, hkeys⟩ := reflectE_runs.exists_ok
  obtain ⟨r, hr, hrn⟩ := Option.map_eq_some_iff.mp hr
  obtain ⟨i, hi, hin⟩ := Option.map_eq_some_iff.mp hi
  obtain ⟨s, hs, hsc⟩ := Option.map_eq_some_iff.mp hs
  have he := processEmit_emits hp rfl hr hi hs hi hm
  rw [hrn, hin, hsc] at he
  exact ⟨w, hw, he, hkeys⟩

theorem replies_never_accepted_reflect : ∃ w, Emits (processEmit 4) w processOut ∧
    (Emits (processEmit 4) w processOut →
      ¬ Accepted (processParse .add processReply processReplyPairs) w) ∧
    (Emits (ifaceEmit 4) w processOut → ∀ env,
      ¬ Accepted (ifaceParse env .add processReply processReplyPairs) w) := by
  obtain ⟨w, -, he, -⟩ := process_printed
  exact ⟨w, he, replies_never_accepted processReply_shows⟩

theorem ruleX_runs : Runs (fun _ => False) (handleAll .sample (reflectE.take 2))
    (World.start [] [] []) (fun _ v => v.processJS.keys = [] ∧ v.ruleJS.keys = ["x"] ∧
      v.ifaceJS.keys = ["e"]) := by
  decide +kernel

/-- What was printed of a process is not accepted by a store with the same rules and ifaces. -/
theorem process_reply_rejected : ¬ ∀ env w v a out doc pairs, Reachable env w → Reachable env v →
    v.processJS.keys = [] → v.ruleJS.keys = w.ruleJS.keys → v.ifaceJS.keys = w.ifaceJS.keys →
      Emits (processEmit a) w out → Shows doc (.mapping pairs) out →
        Accepted (processParse .add doc pairs) v := by
  intro h
  obtain ⟨w, hw, he, hrules, hifaces⟩ := process_printed
  obtain ⟨_, v, hv, hp, hr, hi⟩ := ruleX_runs.exists_ok
  obtain ⟨u, hu⟩ := h .sample w v 4 processOut processReply processReplyPairs
    ⟨[], [], [], reflectE, hw⟩ ⟨[], [], [], reflectE.take 2, hv⟩ hp (by rw [hr, hrules])
    (by rw [hi, hifaces]) he processReply_shows
  exact (processParse_nodes (.cons rfl (.scalar "e") (.cons rfl (.sequence
    (.cons (.mapping (.cons rfl (.scalar "e") (.cons rfl (.scalar "0") .nil))) .nil)) .nil)) v).ok hu
    rfl

end Xdpacket
