import Xdpacket.Lib.Runs
import Xdpacket.Model.Parse

namespace Xdpacket

/-- A field as `field_new` makes it. -/
def FieldMade (env : Env) (f : Field) : Prop :=
  env.nstralloc f.name MAXLINELEN = .copy ∧ f.set.mask ≠ 0 ∧ f.set.flags = 0

/-- A state or value as it was made, but for the bytes of a state: a value is parsed from
its text. -/
def MemrefMade (env : Env) (r : Memref) : Prop :=
  match r.kind with
  | .state name _ => env.nstralloc name MAXLINELEN = .copy
  | .value none _ => True
  | .value (some input) rendered => env.nstralloc input MAXVALUELEN = .copy ∧
      ∃ parsed, env.valueParse input r.set.len.toNat = some parsed ∧ r.bytes = parsed.val ∧
        rendered = valueRender parsed.val

/-- Both sides of an operation were given, by a field or otherwise. -/
def Op.Complete (op : Op) : Prop :=
  (op.dstField.isSome ∨ op.dst.isSome) ∧ (op.srcField.isSome ∨ op.src.isSome)

def RuleMade (env : Env) (r : Rule) : Prop :=
  env.nstralloc r.name MAXLINELEN = .copy ∧ ∀ op ∈ r.matchJQ ++ r.writeJQ, op.Complete

/-- From `w` to `v` neither the configured objects nor the sockets changed. -/
structure Beyond (w v : World) : Prop where
  fields : v.fields = w.fields
  memrefs : v.memrefs = w.memrefs
  rules : v.rules = w.rules
  ifaces : v.ifaces = w.ifaces
  openFds : v.openFds = w.openFds
  tracked : v.tracked = w.tracked

/-- A program may end in a fault of `E`, and `I` holds at each of its steps: whatever is made
as it should be, counted or freed. -/
class Policy (env : Env) (E : Fault → Prop) (I : World → Prop) : Prop where
  dangling : ∀ a, E (.dangling a)
  nullName : E .nullName
  nullMember : E .nullMember
  beyond : ∀ {w v}, I w → Beyond w v → I v
  forgetField : ∀ {w} a, I w → I { w with fields := Function.update w.fields a none }
  forgetMemref : ∀ {w} a, I w → I { w with memrefs := Function.update w.memrefs a none }
  forgetRule : ∀ {w} a, I w → I { w with rules := Function.update w.rules a none }
  makeField : ∀ {w f} a, I w → FieldMade env f →
    I { w with fields := Function.update w.fields a (some f) }
  makeMemref : ∀ {w r} a, I w → MemrefMade env r →
    I { w with memrefs := Function.update w.memrefs a (some r) }
  makeRule : ∀ {w r} a, I w → RuleMade env r →
    I { w with rules := Function.update w.rules a (some r) }
  countField : ∀ {w a f} c, I w → w.fields a = some f →
    I { w with fields := Function.update w.fields a (some { f with refcnt := c }) }
  countState : ∀ {w a r name c} c', I w → w.memrefs a = some r → r.kind = .state name c →
    I { w with memrefs := Function.update w.memrefs a (some { r with kind := .state name c' }) }
  countRule : ∀ {w a r} c, I w → w.rules a = some r →
    I { w with rules := Function.update w.rules a (some { r with refcnt := c }) }
  changeIface : ∀ {w a i i'}, I w → w.ifaces a = some i → i'.fd = i.fd → i'.name = i.name →
    I { w with ifaces := Function.update w.ifaces a (some i') }

/-- A policy that the sockets do not matter to. -/
class SocketFree (env : Env) (E : Fault → Prop) (I : World → Prop) : Prop
    extends Policy env E I where
  sockets : ∀ {w v}, I w → v.fields = w.fields → v.memrefs = w.memrefs → v.rules = w.rules → I v

/-- The program follows the policy. -/
class Obeys (env : Env) (E : Fault → Prop) (I : World → Prop) (m : M α) : Prop where
  keeps : Keeps E I m (fun _ => True)

namespace Obeys

variable {α β : Type} {env : Env} {E : Fault → Prop} {I : World → Prop}
  {m m' : M α} {k : α → M β} {a field : Addr} {ref own other : Option Addr} {name : Option Text}
  {n : Text}

section Steps

theorem step [hm : Obeys env E I m] (h : ∀ a, Obeys env E I (k a)) : Obeys env E I (m >>= k) :=
  ⟨hm.keeps.bind (fun a _ => (h a).keeps)⟩

instance bind [Obeys env E I m] [h : ∀ a, Obeys env E I (k a)] : Obeys env E I (m >>= k) := step h

instance pure {r : α} : Obeys env E I (Pure.pure r : M α) := ⟨.pure trivial⟩

instance get : Obeys env E I (get : M World) := ⟨fun _ h => ⟨h, trivial⟩⟩

instance ite {c : Prop} [Decidable c] [h : Obeys env E I m] [h' : Obeys env E I m'] :
    Obeys env E I (if c then m else m') := by
  split
  · exact h
  · exact h'

variable [P : Policy env E I]

instance dangling : Obeys env E I (throw (.dangling a) : M α) := ⟨.throw (P.dangling a)⟩

instance nullName : Obeys env E I (throw .nullName : M α) := ⟨.throw P.nullName⟩

instance nullMember : Obeys env E I (throw .nullMember : M α) := ⟨.throw P.nullMember⟩

theorem elsewhere {f : World → World} (h : ∀ w, Beyond w (f w)) :
    Obeys env E I (modify f : M PUnit) :=
  ⟨.modify (fun w hw => P.beyond hw (h w))⟩

instance toFieldJS {g : World → NameStore Text} :
    Obeys env E I (modify fun w => { w with fieldJS := g w } : M PUnit) :=
  elsewhere (fun _ => ⟨rfl, rfl, rfl, rfl, rfl, rfl⟩)

instance toStateJS {g : World → NameStore Text} :
    Obeys env E I (modify fun w => { w with stateJS := g w } : M PUnit) :=
  elsewhere (fun _ => ⟨rfl, rfl, rfl, rfl, rfl, rfl⟩)

instance toRuleJS {g : World → NameStore Text} :
    Obeys env E I (modify fun w => { w with ruleJS := g w } : M PUnit) :=
  elsewhere (fun _ => ⟨rfl, rfl, rfl, rfl, rfl, rfl⟩)

instance toIfaceJS {g : World → NameStore Text} :
    Obeys env E I (modify fun w => { w with ifaceJS := g w } : M PUnit) :=
  elsewhere (fun _ => ⟨rfl, rfl, rfl, rfl, rfl, rfl⟩)

instance toProcessJS {g : World → NameStore Text} :
    Obeys env E I (modify fun w => { w with processJS := g w } : M PUnit) :=
  elsewhere (fun _ => ⟨rfl, rfl, rfl, rfl, rfl, rfl⟩)

instance toOutlist {g : World → List Out} :
    Obeys env E I (modify fun w => { w with outlist := g w } : M PUnit) :=
  elsewhere (fun _ => ⟨rfl, rfl, rfl, rfl, rfl, rfl⟩)

instance nbErr : Obeys env E I (nbErr n) := elsewhere (fun _ => ⟨rfl, rfl, rfl, rfl, rfl, rfl⟩)

instance putRset {o : Option RoutSet} : Obeys env E I (putRset a o) :=
  elsewhere (fun _ => ⟨rfl, rfl, rfl, rfl, rfl, rfl⟩)

instance putProcess {o : Option Process} : Obeys env E I (putProcess a o) :=
  elsewhere (fun _ => ⟨rfl, rfl, rfl, rfl, rfl, rfl⟩)

instance newAddr : Obeys env E I newAddr :=
  ⟨.modifyGet (fun _ h => P.beyond h ⟨rfl, rfl, rfl, rfl, rfl, rfl⟩)⟩

instance alloc : Obeys env E I alloc := by
  refine ⟨.modifyGet (fun w h => ?_)⟩
  split
  · exact h
  · exact P.beyond h ⟨rfl, rfl, rfl, rfl, rfl, rfl⟩

instance syscall : Obeys env E I syscall := by
  refine ⟨.modifyGet (fun w h => ?_)⟩
  split
  · exact h
  · exact P.beyond h ⟨rfl, rfl, rfl, rfl, rfl, rfl⟩

include P in
/-- What is done with an object may rely on its being there. -/
theorem deref_keeps {heap : World → Heap α} {Q : β → Prop}
    (h : ∀ w o, I w → heap w a = some o → Runs E (k o) w (fun r v => I v ∧ Q r)) :
    Keeps E I (deref heap a >>= k) Q := by
  intro w hw
  unfold deref
  simp only [Runs.bind_iff, Runs.get_iff]
  cases ho : heap w a with
  | none => exact P.dangling a
  | some o => exact h w o hw ho

instance deref {heap : World → Heap α} : Obeys env E I (deref heap a) := by
  refine step (fun w => ?_)
  split <;> infer_instance

instance jsGet {js : World → NameStore Text} : Obeys env E I (jsGet js name) := by
  refine step (fun w => ?_)
  split <;> infer_instance

instance calloc : Obeys env E I calloc := by
  unfold Xdpacket.calloc
  infer_instance

/-- A copy was taken only of a text that can be copied. -/
theorem strAlloc_keeps {max : Nat} : Keeps E I (env.strAlloc n max)
    (fun r => r = .copy → env.nstralloc n max = .copy) := by
  unfold Env.strAlloc
  refine (alloc (P := P)).keeps.bind ?_
  intro ok _
  cases ok with
  | false => exact .pure (fun hc => (by cases hc))
  | true => exact .pure id

instance forgetField : Obeys env E I (putField a none) := ⟨.modify (fun _ hw => P.forgetField a hw)⟩

instance forgetMemref : Obeys env E I (putMemref a none) :=
  ⟨.modify (fun _ hw => P.forgetMemref a hw)⟩

instance forgetRule : Obeys env E I (putRule a none) := ⟨.modify (fun _ hw => P.forgetRule a hw)⟩

theorem putField_keeps {f : Field} (h : FieldMade env f) :
    Keeps E I (putField a (some f)) (fun _ => True) :=
  .modify (fun _ hw => P.makeField a hw h)

theorem putMemref_keeps {r : Memref} (h : MemrefMade env r) :
    Keeps E I (putMemref a (some r)) (fun _ => True) :=
  .modify (fun _ hw => P.makeMemref a hw h)

theorem putRule_keeps {r : Rule} (h : RuleMade env r) :
    Keeps E I (putRule a (some r)) (fun _ => True) :=
  .modify (fun _ hw => P.makeRule a hw h)

instance emitReply {reply : Out} : Obeys env E I (emitReply reply) := by
  unfold Xdpacket.emitReply
  infer_instance

end Steps

section Fields

variable [P : Policy env E I]

instance fieldFree {refcnt : Nat} : Obeys env E I (fieldFree a name refcnt) := by
  unfold Xdpacket.fieldFree
  infer_instance

instance fieldFreeAt : Obeys env E I (fieldFreeAt a) := by
  unfold Xdpacket.fieldFreeAt
  infer_instance

theorem fieldSetOf_made {offt len mask : Int} {set : FieldSet} (h : fieldSetOf offt len mask = .ok set)
    (hm : mask ≠ 0) : set.mask ≠ 0 ∧ set.flags = 0 := by
  unfold fieldSetOf at h
  split at h
  · cases h
  split at h
  · cases h
  split at h
  · cases h
  · cases h
    refine ⟨?_, rfl⟩
    intro hz
    have hn := congrArg UInt8.toNat hz
    rw [UInt8.toNat_ofNat'] at hn
    simp only [UInt8.toNat_zero] at hn
    omega

instance fieldNew {offt len mask : Int} : Obeys env E I (fieldNew env name offt len mask) := by
  unfold Xdpacket.fieldNew
  refine step (fun w => ?_)
  split
  · infer_instance
  split
  · infer_instance
  refine step (fun ret => ?_)
  cases ret with
  | none => infer_instance
  | some ret =>
    refine ⟨(strAlloc_keeps (P := P)).bind ?_⟩
    intro copied hc
    cases copied with
    | null | inval | truncated copy => exact (inferInstance : Obeys env E I _).keeps
    | copy =>
      dsimp only
      split
      · exact (inferInstance : Obeys env E I _).keeps
      · rename_i set hset
        refine (toFieldJS (P := P)).keeps.bind (fun _ _ =>
          (putField_keeps (P := P) ⟨hc rfl, fieldSetOf_made hset ?_⟩).bind (fun _ _ => .pure trivial))
        split <;> omega

instance fieldRelease : Obeys env E I (fieldRelease ref) := by
  unfold Xdpacket.fieldRelease
  split
  · infer_instance
  · refine ⟨deref_keeps (P := P) (fun w f hw hf => ?_)⟩
    split
    · exact (nbErr (P := P)).keeps w hw
    · exact ⟨P.countField _ hw hf, trivial⟩

instance fieldGet : Obeys env E I (fieldGet n) := by
  refine step (fun r => ?_)
  split
  · infer_instance
  · exact ⟨deref_keeps (P := P) (fun w f hw hf => ⟨P.countField _ hw hf, trivial⟩)⟩

end Fields

section Memrefs

variable [P : Policy env E I]

instance memrefFree : Obeys env E I (memrefFree a name) := by
  unfold Xdpacket.memrefFree
  infer_instance

instance memrefRelease : Obeys env E I (memrefRelease ref) := by
  unfold Xdpacket.memrefRelease
  split
  · infer_instance
  · refine ⟨deref_keeps (P := P) (fun w r hw hr => ?_)⟩
    split
    · exact (forgetMemref (P := P)).keeps w hw
    · rename_i name refcnt hk
      split
      · exact ⟨P.countState _ hw hr hk, trivial⟩
      · exact (memrefFree (P := P)).keeps w hw

instance memrefValueNew {value : Text} : Obeys env E I (memrefValueNew env field value) := by
  refine step (fun f => step (fun ret => ?_))
  cases ret with
  | none => infer_instance
  | some ret =>
    refine ⟨(strAlloc_keeps (P := P)).bind ?_⟩
    intro input hc
    cases hp : env.valueParse value f.set.len.toNat with
    | none => cases input <;> exact (inferInstance : Obeys env E I _).keeps
    | some parsed =>
      have hput : ∀ input', (input' = some value → env.nstralloc value MAXVALUELEN = .copy) →
          input' = none ∨ input' = some value → Obeys env E I (putMemref ret (some (Memref.mk
            (.value input' (valueRender parsed.val))
            { f.set with flags := f.set.flags ||| MEMREF_FLAG_STATIC } parsed.val
              parsed.property))) := by
        intro input' hcopy hi
        refine ⟨putMemref_keeps (P := P) ?_⟩
        rcases hi with rfl | rfl
        · trivial
        · exact ⟨hcopy rfl, parsed, hp, rfl, rfl⟩
      cases input with
      | inval | truncated copy => exact (inferInstance : Obeys env E I _).keeps
      | null =>
        simp only [true_and]
        split
        · exact .throw P.nullName
        · refine (alloc (P := P)).keeps.bind (fun ok _ => ?_)
          cases ok with
          | false => exact (nbErr (P := P)).keeps.bind (fun _ _ => .pure trivial)
          | true =>
            exact .bind (hput none (fun hn => (by cases hn)) (.inl rfl)).keeps
              (fun _ _ => .pure trivial)
      | copy =>
        refine (alloc (P := P)).keeps.bind (fun ok _ => ?_)
        cases ok with
        | false => exact (nbErr (P := P)).keeps.bind (fun _ _ => .pure trivial)
        | true =>
          exact .bind (hput (some value) (fun _ => hc rfl) (.inr rfl)).keeps
            (fun _ _ => .pure trivial)

instance memrefStateGet : Obeys env E I (memrefStateGet env field n) := by
  refine step (fun f => step (fun r => ?_))
  cases r with
  | some a =>
    refine ⟨deref_keeps (P := P) (fun w r hw hr => ?_)⟩
    split
    · split
      · rename_i name refcnt hk
        exact ⟨P.countState _ hw hr hk, trivial⟩
      · exact P.dangling a
    · exact (inferInstance : Obeys env E I _).keeps w hw
  | none =>
    refine step (fun ret => ?_)
    cases ret with
    | none => infer_instance
    | some ret =>
      refine ⟨(strAlloc_keeps (P := P)).bind ?_⟩
      intro copied hc
      cases copied with
      | null | inval | truncated copy => exact (inferInstance : Obeys env E I _).keeps
      | copy =>
        have : Obeys env E I (putMemref ret (some (.newState n f.set))) :=
          ⟨putMemref_keeps (P := P) (hc rfl)⟩
        exact (inferInstance : Obeys env E I _).keeps

end Memrefs

section Operations

variable [P : Policy env E I]

instance opFree {op : Op} : Obeys env E I (opFree op) := by
  unfold Xdpacket.opFree
  infer_instance

include P in
theorem opDie_keeps {ret : Op} : Keeps E I (opDie ret n) (fun r => r = none) := by
  unfold opDie
  exact (nbErr (P := P)).keeps.bind (fun _ _ => (opFree (P := P)).keeps.bind (fun _ _ => .pure rfl))

include P in
/-- A side has what was asked for. -/
theorem opField_keeps : Keeps E I (opField name) (fun r =>
    ∀ f, r = some f → (f.isSome ↔ name.isSome)) := by
  unfold opField
  cases name with
  | none =>
    refine .pure (fun f hf => ?_)
    cases hf
    rfl
  | some n =>
    refine (fieldGet (P := P)).keeps.bind ?_
    intro r _
    cases r with
    | none => exact .pure (fun f hf => (by cases hf))
    | some a =>
      refine .pure (fun f hf => ?_)
      cases hf
      exact iff_of_true rfl rfl

instance opMemrefField : Obeys env E I (opMemrefField own other) := by
  unfold Xdpacket.opMemrefField
  split <;> infer_instance

include P in
theorem opState_keeps : Keeps E I (opState env own other name) (fun r =>
    ∀ m, r = some m → (m.isSome ↔ name.isSome)) := by
  unfold opState
  cases name with
  | none =>
    refine .pure (fun m hm => ?_)
    cases hm
    rfl
  | some n =>
    refine (opMemrefField (P := P)).keeps.bind (fun field _ => (memrefStateGet (P := P)).keeps.bind ?_)
    intro r _
    cases r with
    | none => exact .pure (fun m hm => (by cases hm))
    | some a =>
      refine .pure (fun m hm => ?_)
      cases hm
      exact iff_of_true rfl rfl

include P in
theorem opValue_keeps : Keeps E I (opValue env own other name) (fun r =>
    ∀ m, r = some m → (m.isSome ↔ name.isSome)) := by
  unfold opValue
  cases name with
  | none =>
    refine .pure (fun m hm => ?_)
    cases hm
    rfl
  | some n =>
    refine (opMemrefField (P := P)).keeps.bind (fun field _ => (memrefValueNew (P := P)).keeps.bind ?_)
    intro r _
    cases r with
    | none => exact .pure (fun m hm => (by cases hm))
    | some a =>
      refine .pure (fun m hm => ?_)
      cases hm
      exact iff_of_true rfl rfl

include P in
/-- `op_new` answers complete operations. -/
theorem opNew_keeps {df ds sf ss sv : Option Text} : Keeps E I (opNew env df ds sf ss sv)
    (fun r => ∀ op, r = some op → op.Complete) := by
  have hnone : ∀ op : Op, none = some op → op.Complete := fun op ho => by cases ho
  have herr : ∀ {msg : Text}, Keeps E I
      (Xdpacket.nbErr msg >>= fun _ => Pure.pure none : M (Option Op))
      (fun r => ∀ op, r = some op → op.Complete) :=
    (nbErr (P := P)).keeps.bind (fun _ _ => .pure hnone)
  have hdie : ∀ {ret : Op} {msg : Text}, Keeps E I (opDie ret msg)
      (fun r => ∀ op, r = some op → op.Complete) := by
    intro ret msg
    refine (opDie_keeps (P := P)).imp ?_
    intro r hr
    rw [hr]
    exact hnone
  unfold opNew
  split
  · exact herr
  split
  · exact herr
  rename_i hdst
  split
  · exact herr
  rename_i hsrc
  split
  · exact herr
  refine (alloc (P := P)).keeps.bind ?_
  intro ok _
  cases ok with
  | false => exact herr
  | true =>
    refine (opField_keeps (P := P)).bind ?_
    intro dstField hdf
    cases dstField with
    | none => exact hdie
    | some dstField =>
      refine (opField_keeps (P := P)).bind ?_
      intro srcField hsf
      cases srcField with
      | none => exact hdie
      | some srcField =>
        refine (opState_keeps (P := P)).bind ?_
        intro dst hds
        cases dst with
        | none => exact hdie
        | some dst =>
          have hgiven : Keeps E I (if ss ≠ none then opState env srcField dstField ss
              else opValue env srcField dstField sv)
              (fun r => ∀ m, r = some m → (m.isSome ↔ ss.isSome ∨ sv.isSome)) := by
            split
            · rename_i hs
              refine (opState_keeps (P := P)).imp (fun r hr m hm => ?_)
              rw [hr m hm]
              exact (or_iff_left_of_imp (fun _ => Option.isSome_iff_ne_none.mpr hs)).symm
            · rename_i hs
              refine (opValue_keeps (P := P)).imp (fun r hr m hm => ?_)
              rw [hr m hm, not_not.mp hs]
              simp
          refine hgiven.bind ?_
          intro src hss
          cases src with
          | none => exact hdie
          | some src =>
            refine (opMemrefField (P := P)).keeps.bind (fun _ _ => (deref (P := P)).keeps.bind (fun _ _ =>
              (opMemrefField (P := P)).keeps.bind (fun _ _ => (deref (P := P)).keeps.bind (fun _ _ => .pure ?_))))
            intro op ho
            cases ho
            unfold Op.Complete
            rw [hdf _ rfl, hds _ rfl, hsf _ rfl, hss _ rfl]
            simp only [Option.isSome_iff_ne_none]
            exact ⟨not_and_or.mp hdst, (not_and_or.mp hsrc).imp_right not_and_or.mp⟩

end Operations

end Obeys

end Xdpacket
