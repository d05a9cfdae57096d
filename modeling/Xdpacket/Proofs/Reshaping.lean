import Xdpacket.Model.Program
import Xdpacket.Proofs.Commands
import Xdpacket.Proofs.Sparing

namespace Xdpacket

variable {w v u : World} {env : Env} {a : Addr}

section Relation

/-- A process goes or comes as a whole, and a new one has new rout sets only. No iface is
polled that was not, unless it is new. -/
structure Reshapes (w v : World) : Prop extends Retains w v where
  processes : Evolves w.next id w.processes v.processes
  newborn : ∀ b p, w.next ≤ b → v.processes b = some p →
    w.processes b = some p ∨ ∀ rst ∈ p.routSetJQ, w.next ≤ rst
  tracked : ∀ r ∈ v.tracked, r ∈ w.tracked ∨ w.next ≤ r.2

theorem Spares.reshapes (h : Spares w v) : Reshapes w v where
  toRetains := h.toRetains
  processes := by
    rw [h.processes]
    exact .refl _ _ _
  newborn := fun b p _ hp => .inl (h.processes ▸ hp)
  tracked := fun r hr => .inl (h.tracked ▸ hr)

theorem Reshapes.refl (w : World) : Reshapes w w := (Spares.refl w).reshapes

theorem Reshapes.trans (h : Reshapes w v) (h' : Reshapes v u) : Reshapes w u where
  toRetains := h.toRetains.trans h'.toRetains
  processes := h.processes.trans h.next h'.processes
  newborn := by
    intro b p hb hp
    by_cases hv : v.next ≤ b
    · rcases h'.newborn b p hv hp with hp | hnew
      · exact h.newborn b p hb hp
      · exact .inr (fun rst hr => Nat.le_trans h.next (hnew rst hr))
    · obtain ⟨q, hq, he⟩ := h'.processes b (Nat.lt_of_not_le hv) p hp
      cases he
      exact h.newborn b p hb hq
  tracked := by
    intro r hr
    rcases h'.tracked r hr with hr | hr
    · exact h.tracked r hr
    · exact .inr (Nat.le_trans h.next hr)

/-- A process made since then, with rout sets made since then. -/
theorem Reshapes.makeProcess {p : Process} (h : Reshapes w v) (ha : w.next ≤ a)
    (hp : ∀ rst ∈ p.routSetJQ, w.next ≤ rst) :
    Reshapes w { v with processes := Function.update v.processes a (some p) } where
  toRetains := { h.toRetains with next := h.next }
  processes := by
    intro b hb q hq
    rcases of_updated hq with ⟨rfl, -⟩ | ⟨-, hq⟩
    · exact absurd ha (Nat.not_le_of_lt hb)
    · exact h.processes b hb q hq
  newborn := by
    intro b q hb hq
    rcases of_updated hq with ⟨rfl, he⟩ | ⟨-, hq⟩
    · cases he
      exact .inr hp
    · exact h.newborn b q hb hq
  tracked := h.tracked

/-- An iface made since then is polled. -/
theorem Reshapes.track {fd : Nat} (h : Reshapes w v) (ha : w.next ≤ a) :
    Reshapes w { v with tracked := v.tracked ++ [(fd, a)] } where
  toRetains := { h.toRetains with next := h.next }
  processes := h.processes
  newborn := h.newborn
  tracked := by
    intro r hr
    rcases List.mem_append.mp hr with hr | hr
    · exact h.tracked r hr
    · rw [List.mem_singleton.mp hr]
      exact .inr ha

end Relation

instance : Std.Refl Reshapes := ⟨Reshapes.refl⟩

instance : IsTrans World Reshapes := ⟨fun _ _ _ => Reshapes.trans⟩

/-- A program that leaves a process and its rout sets as they are, or frees it. -/
abbrev Reshaping (m : M α) : Prop := Within (fun _ => True) Reshapes m

namespace Reshaping

variable {α β : Type} {m : M α} {ref : Option Addr} {n : Text} {doc : Document}
  {mode : ParseMode} {mapping : Pairs doc} {rts : List Rout}

section Steps

instance (priority := low) of_sparing [h : Sparing m] : Reshaping m :=
  h.weaken (fun _ _ => Spares.reshapes)

instance toProcessJS {g : World → NameStore Text} :
    Reshaping (modify fun w => { w with processJS := g w } : M PUnit) :=
  ⟨fun w => { Reshapes.refl w with next := Nat.le_refl _ }⟩

instance toOutroot {g : World → List (Text × Out)} :
    Reshaping (modify fun w => { w with outroot := g w } : M PUnit) :=
  ⟨fun w => { Reshapes.refl w with next := Nat.le_refl _ }⟩

instance untrack {keeps : Nat × Addr → Bool} :
    Reshaping (modify fun w => { w with tracked := w.tracked.filter keeps } : M PUnit) :=
  ⟨fun w => { Reshapes.refl w with tracked := fun _ hr => .inl (List.mem_of_mem_filter hr) }⟩

instance forgetProcess : Reshaping (putProcess a none) :=
  ⟨fun w => { Reshapes.refl w with
    processes := .remove
    newborn := fun _ _ _ hp => .inl (of_removed hp) }⟩

end Steps

section Ifaces

instance eptkRemove {fd : Int} : Reshaping (eptkRemove env fd) := by
  unfold Xdpacket.eptkRemove
  infer_instance

/-- `eptk_register` of an iface made since then. -/
theorem eptkRegister {fd : Int} (h : Reshapes w v) (ha : w.next ≤ a) :
    Runs (fun _ => True) (eptkRegister fd a) v (fun _ u => Reshapes w u) := by
  unfold Xdpacket.eptkRegister
  refine (Sparing.syscall.runs v).bind ?_
  intro ok u hu
  split
  · exact (h.trans hu.reshapes).track ha
  · exact h.trans hu.reshapes

instance ifaceParseKey {val : Node doc.size} {s : IfaceArgs} : Sparing (ifaceParseKey n val s) := by
  unfold Xdpacket.ifaceParseKey
  split <;> infer_instance

/-- `iface_parse` after the walk -/
instance ifaceParseMode {s : IfaceArgs} : Reshaping (ifaceParseMode env mode s) := by
  cases mode with
  | invalid => exact of_sparing (h := Sparing.parseDie)
  | add =>
    refine ⟨fun w => Sparing.ifaceNew_fresh.bind ?_⟩
    intro r v hv
    cases r with
    | none => exact (Sparing.parseDie.runs v).imp (fun _ _ hu => (hv.1.trans hu).reshapes)
    | some iface =>
      refine Runs.bind (Within.deref.runs (S := Spares) v) ?_
      intro i v₁ hv₁
      refine (eptkRegister (hv.1.trans hv₁).reshapes (hv.2 iface rfl)).bind ?_
      intro ok v₂ hv₂
      exact ((inferInstance : Sparing (if (!ok) = true then _ else _)).runs v₂).imp
        (fun _ _ hu => hv₂.trans hu.reshapes)
  | del =>
    refine Within.step (fun r => ?_)
    cases r <;> infer_instance
  | prn =>
    simp only [Xdpacket.ifaceParseMode]
    split
    · infer_instance
    · refine Within.step (fun r => ?_)
      cases r <;> infer_instance

instance ifaceParse : Reshaping (ifaceParse env mode doc mapping) := by
  refine Within.step (fun r => ?_)
  cases r <;> infer_instance

end Ifaces

section Processes

instance processFree {sets : List Addr} : Reshaping (processFree a ref rts sets) := by
  unfold Xdpacket.processFree
  cases ref with
  | none => infer_instance
  | some iface =>
    dsimp only
    refine Within.step (fun _ => .step (fun _ => .step (fun i => .step (fun r => ?_))))
    split
    · refine Within.step (fun _ => .step (fun _ => ?_))
      infer_instance
    · infer_instance

instance processFreeAt : Reshaping (processFreeAt a) := by
  unfold Xdpacket.processFreeAt
  infer_instance

/-- `process_new` of routs made since then. -/
theorem processNew (h : Reshapes w v) (hr : ∀ rt ∈ rts, w.next ≤ rt.set) :
    Runs (fun _ => True) (processNew n rts) v (fun _ u => Reshapes w u) := by
  have hgo : ∀ {m : M (Option Addr)} {u : World}, Reshaping m → Reshapes w u →
      Runs (fun _ => True) m u (fun _ t => Reshapes w t) :=
    fun hm hu => (hm.runs _).imp (fun _ _ ht => hu.trans ht)
  refine Sparing.calloc_fresh.bind ?_
  intro ret v₁ hv₁
  have h₁ := h.trans hv₁.1.reshapes
  cases ret with
  | none => exact hgo inferInstance h₁
  | some ret =>
    have hret := Nat.le_trans h.next (hv₁.2 ret rfl)
    rw [Runs.bind_iff, Runs.get_iff]
    split
    · exact hgo inferInstance h₁
    refine (Sparing.ifaceGet.runs v₁).bind ?_
    intro iface v₂ hv₂
    have h₂ := h₁.trans hv₂.reshapes
    cases iface with
    | none => exact hgo inferInstance h₂
    | some iface =>
      refine (Sparing.ifaceHandlerRegister.runs v₂).bind ?_
      intro rc v₃ hv₃
      have h₃ := h₂.trans hv₃.reshapes
      split
      · exact hgo inferInstance h₃
      refine (Within.deref.runs (S := Spares) v₃).bind ?_
      intro i v₄ hv₄
      have h₄ := h₃.trans hv₄.reshapes
      refine Runs.bind ((toProcessJS (g := fun t => t.processJS.insert i.name ret)).runs v₄) ?_
      intro _ v₅ hv₅
      refine (h₄.trans hv₅).makeProcess hret (fun rst hm => ?_)
      obtain ⟨rt, hrt, rfl⟩ := List.mem_map.mp hm
      exact hr rt hrt

/-- Routs that were made since then. -/
def MadeSince (w : World) (rts : List Rout) (v : World) : Prop :=
  w.next ≤ v.next ∧ ∀ rt ∈ rts, w.next ≤ rt.set

theorem MadeSince.spares (h : MadeSince w rts v) (hs : Spares v u) : MadeSince w rts u :=
  ⟨Nat.le_trans h.1 hs.next, h.2⟩

theorem processParsePair {val : Node doc.size} {s : Nat × List Rout} (h : MadeSince w s.2 v) :
    Frames (fun _ => True) Spares (processParsePair n val s) v
      (fun r u => MadeSince w r.state.2 u) := by
  refine Sparing.routNew_fresh.bind ?_
  intro r u hu
  cases r with
  | none => exact (Sparing.nbErr.runs u).bind (fun _ t ht => ⟨hu.1.trans ht, h.spares (hu.1.trans ht)⟩)
  | some rt =>
    refine ⟨hu.1, (h.spares hu.1).1, fun q hq => ?_⟩
    rcases List.mem_append.mp hq with hq | hq
    · exact h.2 q hq
    · rw [List.mem_singleton.mp hq]
      exact Nat.le_trans h.1 (hu.2 rt rfl)

theorem processParseItem {item : Node doc.size} {s : Nat × List Rout} (h : MadeSince w s.2 v) :
    Frames (fun _ => True) Spares (processParseItem doc item s) v
      (fun r u => MadeSince w r.state.2 u) := by
  unfold Xdpacket.processParseItem
  split
  · exact yForMap_frames (fun (s : Nat × List Rout) u => MadeSince w s.2 u) trivial (fun _ u _ => Spares.refl u)
      (fun _ _ _ _ hs => processParsePair hs) h
  · exact (Sparing.nbErr.runs v).bind (fun _ u hu => ⟨hu, h.spares hu⟩)

theorem processParseKey {val : Node doc.size} {s : ProcessArgs} (h : MadeSince w s.routJQ v) :
    Frames (fun _ => True) Spares (processParseKey doc n val s) v
      (fun r u => MadeSince w r.state.routJQ u) := by
  have herr : ∀ {msg : Text} {r : Step ProcessArgs}, r.state.routJQ = s.routJQ →
      Frames (fun _ => True) Spares (nbErr msg >>= fun _ => Pure.pure r : M (Step ProcessArgs)) v
        (fun r u => MadeSince w r.state.routJQ u) := by
    intro msg r hr
    refine (Sparing.nbErr.runs v).bind (fun _ u hu => ⟨hu, ?_⟩)
    change MadeSince w r.state.routJQ u
    rw [hr]
    exact h.spares hu
  unfold Xdpacket.processParseKey
  split
  · split
    · exact ⟨.refl v, h⟩
    · exact herr rfl
  · split
    · refine Frames.bind (yForSeq_frames (fun (s : Nat × List Rout) u => MadeSince w s.2 u) (fun _ u _ => Spares.refl u)
        (fun _ _ _ hs => processParseItem hs) h) ?_
      intro r u hu
      exact ⟨.refl u, hu⟩
    · exact herr rfl
  · exact herr rfl

/-- The walk of `process_parse` makes the routs that it queues. -/
theorem processWalk : Frames (fun _ => True) Spares
    (yForMap doc (Xdpacket.processParseKey doc) mapping ⟨0, "", []⟩) w
      (fun r v => MadeSince w r.state.routJQ v) :=
  yForMap_frames (fun (s : ProcessArgs) u => MadeSince w s.routJQ u) trivial
    (fun _ u _ => Spares.refl u) (fun _ _ _ _ hs => processParseKey hs)
    ⟨Nat.le_refl _, fun rt hrt => by cases hrt⟩

instance processParse : Reshaping (processParse mode doc mapping) := by
  refine ⟨fun w => Runs.bind processWalk ?_⟩
  intro r v hv
  have h := hv.1.reshapes
  have hgo : ∀ {m : M Nat} {u : World}, Reshaping m → Reshapes w u →
      Runs (fun _ => True) m u (fun _ t => Reshapes w t) :=
    fun hm hu => (hm.runs _).imp (fun _ _ ht => hu.trans ht)
  cases r with
  | die s => exact h
  | go s =>
    cases mode with
    | invalid => exact hgo (of_sparing (h := Sparing.parseDie)) h
    | add =>
      refine (processNew h hv.2.2).bind ?_
      intro r u hu
      cases r <;> exact hgo inferInstance hu
    | del =>
      refine hgo (Within.step (fun r => ?_)) h
      cases r <;> infer_instance
    | prn =>
      simp only [processParseMode]
      split
      · exact hgo inferInstance h
      · refine hgo (Within.step (fun r => ?_)) h
        cases r <;> infer_instance

end Processes

section Documents

instance subsystemParse {sub : Subsystem} : Reshaping (subsystemParse env sub mode doc mapping) := by
  cases sub with
  | iface => exact ifaceParse
  | field => exact of_sparing (h := Sparing.fieldParse)
  | rule => exact of_sparing (h := Sparing.ruleParse)
  | process => exact processParse

instance parseChild {child : Node doc.size} : Reshaping (parseChild env mode doc child) := by
  unfold Xdpacket.parseChild
  split
  · infer_instance
  · refine Within.step (fun keyval => ?_)
    cases subsystemOf keyval <;> infer_instance
  · infer_instance

instance parseChildren {children : List (Fin doc.size)} {errCnt : Nat} :
    Reshaping (parseChildren env mode doc children errCnt) := by
  induction children generalizing errCnt with
  | nil => exact Within.pure
  | cons child children ih => exact Within.step (fun _ => ih)

instance parsePair {k x : Fin doc.size} : Reshaping (parsePair env doc k x) := by
  refine Within.step (fun keyname => ?_)
  split
  · split
    · infer_instance
    · refine Within.step (fun _ => ?_)
      dsimp only
      split <;> refine Within.step (fun _ => .step (fun errs => .step (fun ok => ?_)))
      all_goals
        split
        · exact Within.step (fun _ => Within.pure)
        · infer_instance
  · infer_instance

instance parseMapping {pairs : Pairs doc} : Reshaping (parseMapping env doc pairs) := by
  induction pairs with
  | nil => exact Within.pure
  | cons pair pairs ih => exact Within.step (fun _ => .step (fun _ => Within.pure))

instance parseDocument : Reshaping (parseDocument env doc) := by
  unfold Xdpacket.parseDocument
  split <;> infer_instance

end Documents

end Reshaping

end Xdpacket
