import Xdpacket.Proofs.Commands
import Xdpacket.Proofs.Compliance

namespace Xdpacket

variable {w v : World} {live : Multiset Ref} {env : Env} {doc : Document} {mode : ParseMode}

/-- A condition on one mapping and the world that its parser finds. -/
abbrev MappingCondition (doc : Document) := Subsystem → ParseMode → Pairs doc → World → Prop

/-- The condition of the mapping that a child of a mode list is, if it is one. -/
def ChildMeets (C : MappingCondition doc) (mode : ParseMode) (child : Node doc.size) (w : World) :
    Prop :=
  match child with
  | .mapping ((k, v) :: pairs) =>
    match (doc.node k).txt.bind subsystemOf with
    | some sub => C sub mode ((k, v) :: pairs) w
    | none => True
  | _ => True

/-- Every mapping of a mode list meets the condition in the world it finds. -/
def ChildrenMeet (env : Env) (C : MappingCondition doc) (mode : ParseMode) :
    List (Fin doc.size) → World → Prop
  | [], _ => True
  | child :: children, w => ChildMeets C mode (doc.node child) w ∧
    ∀ errs v, parseChild env mode doc (doc.node child) w = .ok (errs, v) →
      ChildrenMeet env C mode children v

/-- The start of a mode list: a new reply, with everything in it for an empty print. -/
def openReply (mode : ParseMode) (items : List (Fin doc.size)) : M Nat := do
  modify fun w => { w with outlist := [] }
  if mode = .prn ∧ items = [] then emitAll else pure 0

/-- The end of a mode list: the reply goes under its mode. -/
def closeReply (keyname : Text) (errs : Nat) : M Nat := do
  if ← alloc then
    modify fun w => { w with outroot := w.outroot ++ [(keyname, .sequence w.outlist)] }
    return errs
  else nbErr ""; return errs + 1

theorem parsePair_eq {k v : Fin doc.size} {keyname : Text} {items : List (Fin doc.size)}
    (hk : doc.node k = .scalar keyname) (hv : doc.node v = .sequence items)
    (hm : modeOf keyname = some mode) :
    parsePair env doc k v = (do
      let errs ← openReply mode items
      let errs ← parseChildren env mode doc items errs
      closeReply keyname errs) := by
  unfold parsePair openReply closeReply
  rw [hk, hv]
  simp only [scalarValue, pure_bind, hm, bind_assoc]
  congr 1
  funext _
  by_cases hp : mode = .prn ∧ items = []
  · rw [if_pos hp, if_pos hp]
  · rw [if_neg hp, if_neg hp]
    rfl

def PairMeets (env : Env) (C : MappingCondition doc) (k v : Fin doc.size) (w : World) : Prop :=
  match (doc.node k).txt.bind modeOf, doc.node v with
  | some mode, .sequence items =>
    ∀ errs u, openReply mode items w = .ok (errs, u) → ChildrenMeet env C mode items u
  | _, _ => True

/-- Every mapping of a document meets the condition in the world it finds. -/
def MappingMeets (env : Env) (C : MappingCondition doc) : Pairs doc → World → Prop
  | [], _ => True
  | (k, v) :: pairs, w => PairMeets env C k v w ∧
    ∀ errs u, parsePair env doc k v w = .ok (errs, u) → MappingMeets env C pairs u

def DocumentMeets (env : Env) (C : MappingCondition doc) (w : World) : Prop :=
  match doc.root with
  | some (.mapping pairs) => MappingMeets env C pairs w
  | _ => True

/-- An invariant that implies consistency and does not depend on the idle parts. -/
structure Invariant (I : World → Prop) : Prop where
  consistent : ∀ w, I w → ∃ live, Consistent w live
  idle : ∀ w v, I w → Idle w v → I v

/-- An invariant that implies consistency and does not depend on the idle parts, except for
the open descriptors. -/
structure Steadfast (I : World → Prop) : Prop where
  consistent : ∀ w, I w → ∃ live, Consistent w live
  idle : ∀ w v, I w → Idle w v → v.openFds = w.openFds → I v

section Keeps

variable {I : World → Prop} {C : MappingCondition doc}

theorem Invariant.steadfast (hI : Invariant I) : Steadfast I :=
  ⟨hI.consistent, fun w v h hi _ => hI.idle w v h hi⟩

theorem Steadfast.fresh (hI : Steadfast I) (h : I w) : Fresh w := by
  obtain ⟨live, hc⟩ := hI.consistent w h
  exact hc.fresh

/-- What is below the parsers of ifaces opens and closes nothing. -/
instance openFds_policy {fds : List Nat} : Policy env (fun _ => True) (fun w => w.openFds = fds) where
  dangling := fun _ => trivial
  nullName := trivial
  nullMember := trivial
  beyond := fun h hb => hb.openFds.trans h
  forgetField := fun _ h => h
  forgetMemref := fun _ h => h
  forgetRule := fun _ h => h
  makeField := fun _ h _ => h
  makeMemref := fun _ h _ => h
  makeRule := fun _ h _ => h
  countField := fun _ h _ => h
  countState := fun _ h _ _ => h
  countRule := fun _ h _ => h
  changeIface := fun h _ _ _ => h

instance openReply_obeys {E : Fault → Prop} [Policy env E I] {items : List (Fin doc.size)} :
    Obeys env E I (openReply mode items) := by
  unfold openReply
  infer_instance

theorem Steadfast.keep (env : Env) (hI : Steadfast I) (h : I w) {m : M α} {Q : α → World → Prop}
    [ho : ∀ fds, Obeys env (fun _ => True) (fun v => v.openFds = fds) m]
    (hm : Frames NoDangle Idle m w Q) : Frames NoDangle Quiet m w (fun _ v => I v) :=
  (Runs.and hm ((ho w.openFds).keeps w rfl)).imp
    (fun _ v hv => ⟨hv.1.1.quiet (hI.fresh h), hI.idle w v h hv.1.1 hv.2.1⟩)

variable (hI : Steadfast I)
  (hC : ∀ sub mode mapping w, I w → C sub mode mapping w →
    Frames NoDangle Quiet (subsystemParse env sub mode doc mapping) w (fun _ v => I v))

include hI hC

theorem parseChild_keeps {child : Node doc.size} (h : I w) (hm : ChildMeets C mode child w) :
    Frames NoDangle Quiet (parseChild env mode doc child) w (fun _ v => I v) := by
  unfold parseChild
  split
  · intro a ha
    cases ha
  · rename_i k x pairs
    unfold ChildMeets at hm
    cases hk : doc.node k with
    | scalar keyval =>
      simp only [hk, Node.txt, Option.bind_some] at hm
      simp only [scalarValue, pure_bind]
      cases hs : subsystemOf keyval with
      | none => exact hI.keep env h nbErr_turn
      | some sub =>
        rw [hs] at hm
        exact hC sub mode _ w h hm
    | sequence items => exact badNode_noDangle
    | mapping pairs => exact badNode_noDangle
  · exact hI.keep env h nbErr_turn

theorem parseChildren_keeps {items : List (Fin doc.size)} {errCnt : Nat} (h : I w)
    (hm : ChildrenMeet env C mode items w) :
    Frames NoDangle Quiet (parseChildren env mode doc items errCnt) w (fun _ v => I v) := by
  induction items generalizing w errCnt with
  | nil => exact ⟨.refl (hI.fresh h), h⟩
  | cons child children ih =>
    unfold parseChildren
    apply (parseChild_keeps hI hC h hm.1).outcome.bind
    intro errs v hv
    exact ih hv.1 (hm.2 errs v hv.2)

theorem parsePair_keeps {k x : Fin doc.size} (h : I w) (hm : PairMeets env C k x w) :
    Frames NoDangle Quiet (parsePair env doc k x) w (fun _ v => I v) := by
  obtain ⟨live, hc⟩ := hI.consistent w h
  unfold PairMeets at hm
  cases hk : doc.node k with
  | scalar keyname =>
    simp only [hk, Node.txt, Option.bind_some] at hm
    cases hx : doc.node x with
    | scalar value =>
      unfold parsePair
      rw [hk, hx]
      simp only [scalarValue, pure_bind]
      exact hI.keep env h nbErr_turn
    | mapping pairs =>
      unfold parsePair
      rw [hk, hx]
      simp only [scalarValue, pure_bind]
      exact hI.keep env h nbErr_turn
    | sequence items =>
      rw [hx] at hm
      cases hmode : modeOf keyname with
      | none =>
        unfold parsePair
        rw [hk, hx]
        simp only [scalarValue, pure_bind, hmode]
        exact hI.keep env h nbErr_turn
      | some mode =>
        rw [hmode] at hm
        have hopen : Frames NoDangle Quiet (openReply mode items) w (fun _ v => I v) := by
          apply hI.keep env h (Q := fun _ _ => True)
          have hi : Idle w { w with outlist := [] } := { Idle.refl w with next := Nat.le_refl _ }
          refine Frames.bind (Q := fun _ v => Consistent v live) ⟨hi, hi.consistent hc⟩ ?_
          intro _ v hv
          split
          · exact emitAll_idle hv
          · exact pure_turn
        rw [parsePair_eq hk hx hmode]
        apply hopen.outcome.bind
        intro errs v hv
        apply (parseChildren_keeps hI hC hv.1 (hm errs v hv.2)).bind
        intro errs u hu
        unfold closeReply
        apply (hI.keep env hu alloc_idle).bind
        intro ok t ht
        cases ok with
        | true =>
          have hi : Idle t { t with outroot := t.outroot ++ [(keyname, .sequence t.outlist)] } :=
            { Idle.refl t with next := Nat.le_refl _ }
          exact ⟨hi.quiet (hI.fresh ht), hI.idle t _ ht hi rfl⟩
        | false =>
          simp only [Bool.false_eq_true, if_false]
          exact hI.keep env ht nbErr_turn
  | sequence items =>
    unfold parsePair
    rw [hk]
    exact badNode_noDangle
  | mapping pairs =>
    unfold parsePair
    rw [hk]
    exact badNode_noDangle

theorem parseMapping_keeps {pairs : Pairs doc} (h : I w) (hm : MappingMeets env C pairs w) :
    Frames NoDangle Quiet (parseMapping env doc pairs) w (fun _ v => I v) := by
  induction pairs generalizing w with
  | nil => exact ⟨.refl (hI.fresh h), h⟩
  | cons pair pairs ih =>
    obtain ⟨k, x⟩ := pair
    unfold parseMapping
    apply (parsePair_keeps hI hC h hm.1).outcome.bind
    intro errs v hv
    apply (ih hv.1 (hm.2 errs v hv.2)).bind
    intro rest u hu
    exact ⟨.refl (hI.fresh hu), hu⟩

/-- A document keeps what each of its mappings keeps. -/
theorem parseDocument_steadfast (h : I w) (hm : DocumentMeets env C w) :
    Frames NoDangle Quiet (parseDocument env doc) w (fun _ v => I v) := by
  unfold parseDocument
  unfold DocumentMeets at hm
  split
  · rename_i pairs hr
    rw [hr] at hm
    exact parseMapping_keeps hI hC h hm
  · exact ⟨.refl (hI.fresh h), h⟩

end Keeps

theorem parseDocument_keeps {I : World → Prop} {C : MappingCondition doc} (hI : Invariant I)
    (hC : ∀ sub mode mapping w, I w → C sub mode mapping w →
      Frames NoDangle Quiet (subsystemParse env sub mode doc mapping) w (fun _ v => I v))
    (h : I w) (hm : DocumentMeets env C w) :
    Frames NoDangle Quiet (parseDocument env doc) w (fun _ v => I v) :=
  parseDocument_steadfast hI.steadfast hC h hm

section Unconditional

/-- A condition that always holds is met. -/
theorem documentMeets_of {C : MappingCondition doc} (hC : ∀ sub mode mapping w, C sub mode mapping w) :
    DocumentMeets env C w := by
  have hchild : ∀ mode child w, ChildMeets C mode child w := by
    intro mode child w
    unfold ChildMeets
    split
    · split
      · exact hC _ _ _ _
      · trivial
    · trivial
  have hchildren : ∀ mode items w, ChildrenMeet env C mode items w := by
    intro mode items
    induction items with
    | nil => exact fun _ => trivial
    | cons child children ih => exact fun w => ⟨hchild _ _ _, fun _ v _ => ih v⟩
  have hpairs : ∀ pairs w, MappingMeets env C pairs w := by
    intro pairs
    induction pairs with
    | nil => exact fun _ => trivial
    | cons pair pairs ih =>
      intro w
      refine ⟨?_, fun _ v _ => ih v⟩
      unfold PairMeets
      split
      · exact fun _ _ _ => hchildren _ _ _
      · trivial
  unfold DocumentMeets
  split
  · exact hpairs _ _
  · trivial

end Unconditional

end Xdpacket
