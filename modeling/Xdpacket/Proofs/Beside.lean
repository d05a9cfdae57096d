import Xdpacket.Lib.Lockstep
import Xdpacket.Model.Process

namespace Xdpacket

/-- The world with other messages printed, and with rules and processes seen
through `g` and `p`. -/
def World.aside (w : World) (g : Heap Rule → Heap Rule) (p : Heap Process → Heap Process)
    (l : List Text) : World :=
  { w with log := l, rules := g w.rules, processes := p w.processes }

def Beside (g : Heap Rule → Heap Rule) (p : Heap Process → Heap Process) (w v : World) : Prop :=
  ∃ l, v = w.aside g p l

/-- A program that answers the same beside. -/
abbrev Steady (g : Heap Rule → Heap Rule) (p : Heap Process → Heap Process) (m : M α) : Prop :=
  Lockstep (Beside g p) Eq m m

namespace Steady

variable {g : Heap Rule → Heap Rule} {p : Heap Process → Heap Process} {a field : Addr}
  {ref own other : Option Addr} {name : Option Text} {n : Text} {env : Env}

section Steps

theorem bind {m : M α} {k : α → M β} (h : Steady g p m) (hk : ∀ a, Steady g p (k a)) :
    Steady g p (m >>= k) := by
  refine Lockstep.bind h ?_
  intro a b hab
  subst hab
  exact hk a

theorem pure {r : α} : Steady g p (Pure.pure r : M α) := Lockstep.pure rfl

theorem throw {e : Fault} : Steady g p (MonadExcept.throw e : M α) := Lockstep.throw

theorem deref {heap : World → Heap α} (hh : ∀ w l, heap (World.aside w g p l) = heap w) :
    Steady g p (deref heap a) := by
  apply Lockstep.get_bind
  intro w v hr
  obtain ⟨l, rfl⟩ := hr
  rw [hh w l]
  cases heap w a with
  | none => exact rfl
  | some o => exact ⟨rfl, l, rfl⟩

theorem jsGet {js : World → NameStore Text} (hj : ∀ w l, js (World.aside w g p l) = js w) :
    Steady g p (jsGet js name) := by
  apply Lockstep.get_bind
  intro w v hr
  obtain ⟨l, rfl⟩ := hr
  rw [hj w l]
  cases name with
  | none => exact rfl
  | some n => exact ⟨rfl, l, rfl⟩

theorem change {f : World → World}
    (hf : ∀ w l, ∃ l', f (World.aside w g p l) = World.aside (f w) g p l') :
    Steady g p (modify f) := by
  apply Lockstep.change
  intro w v hr
  obtain ⟨l, rfl⟩ := hr
  exact hf w l

theorem nbErr {msg : Text} : Steady g p (nbErr msg) :=
  change (fun _ l => ⟨l ++ [msg], rfl⟩)

theorem alloc : Steady g p alloc := by
  apply Lockstep.changeGet
  intro w v hr
  obtain ⟨l, rfl⟩ := hr
  have hoom : (w.aside g p l).oom = w.oom := rfl
  simp only [hoom]
  cases w.oom with
  | nil => exact ⟨rfl, l, rfl⟩
  | cons fails rest => exact ⟨rfl, l, rfl⟩

theorem calloc : Steady g p calloc := by
  apply alloc.bind
  intro ok
  cases ok with
  | false => exact .pure
  | true =>
    refine .bind ?_ (fun _ => .pure)
    apply Lockstep.changeGet
    intro w v hr
    obtain ⟨l, rfl⟩ := hr
    exact ⟨rfl, l, rfl⟩

theorem strAlloc {max : Nat} : Steady g p (env.strAlloc n max) := by
  apply alloc.bind
  intro ok
  cases ok with
  | false => exact .pure
  | true => exact .pure

end Steps

section Operations

theorem fieldRelease : Steady g p (fieldRelease ref) := by
  unfold Xdpacket.fieldRelease
  cases ref with
  | none => exact .pure
  | some a =>
    apply (deref (fun _ _ => rfl)).bind
    intro f
    split
    · exact .nbErr
    · exact change (fun _ l => ⟨l, rfl⟩)

theorem fieldGet : Steady g p (fieldGet n) := by
  unfold Xdpacket.fieldGet
  apply (jsGet (fun _ _ => rfl)).bind
  intro r
  cases r with
  | none => exact .pure
  | some a =>
    apply (deref (fun _ _ => rfl)).bind
    intro f
    exact (change (fun _ l => ⟨l, rfl⟩)).bind (fun _ => .pure)

theorem memrefFree : Steady g p (memrefFree a name) := by
  unfold Xdpacket.memrefFree
  apply (jsGet (fun _ _ => rfl)).bind
  intro r
  have hput : Steady g p (putMemref a none) := change (fun _ l => ⟨l, rfl⟩)
  split
  · exact (change (fun _ l => ⟨l, rfl⟩)).bind (fun _ => hput)
  · exact hput

theorem memrefRelease : Steady g p (memrefRelease ref) := by
  unfold Xdpacket.memrefRelease
  cases ref with
  | none => exact .pure
  | some a =>
    apply (deref (fun _ _ => rfl)).bind
    intro r
    split
    · exact change (fun _ l => ⟨l, rfl⟩)
    · split
      · exact change (fun _ l => ⟨l, rfl⟩)
      · exact memrefFree

theorem opFree {op : Op} : Steady g p (opFree op) := by
  unfold Xdpacket.opFree
  apply fieldRelease.bind
  intro _
  apply fieldRelease.bind
  intro _
  exact memrefRelease.bind (fun _ => memrefRelease)

theorem opFreeAll {ops : List Op} : Steady g p (opFreeAll ops) := by
  induction ops with
  | nil => exact .pure
  | cons op ops ih => exact opFree.bind (fun _ => ih)

theorem memrefValueNew {value : Text} : Steady g p (memrefValueNew env field value) := by
  have hfail : ∀ {msg : Text}, Steady g p
      (Xdpacket.nbErr msg >>= fun _ => Pure.pure none : M (Option Addr)) :=
    nbErr.bind (fun _ => .pure)
  unfold Xdpacket.memrefValueNew
  apply (deref (fun _ _ => rfl)).bind
  intro f
  apply calloc.bind
  intro ret
  cases ret with
  | none => exact hfail
  | some ret =>
    apply strAlloc.bind
    intro input
    by_cases hthrow : input = .null ∧ f.set.len ≠ 0
    · simp only [if_pos hthrow]
      exact fun _ _ _ => rfl
    · simp only [if_neg hthrow]
      cases input with
      | inval => exact hfail
      | truncated copy => exact hfail
      | null | copy =>
        simp only []
        cases env.valueParse value f.set.len.toNat with
        | none => exact hfail
        | some parsed =>
          apply alloc.bind
          intro ok
          cases ok with
          | false => exact hfail
          | true => exact (change (fun _ l => ⟨l, rfl⟩)).bind (fun _ => .pure)

theorem memrefStateGet : Steady g p (memrefStateGet env field n) := by
  have hfail : ∀ {msg : Text}, Steady g p
      (Xdpacket.nbErr msg >>= fun _ => Pure.pure none : M (Option Addr)) :=
    nbErr.bind (fun _ => .pure)
  unfold Xdpacket.memrefStateGet
  apply (deref (fun _ _ => rfl)).bind
  intro f
  apply (jsGet (fun _ _ => rfl)).bind
  intro r
  cases r with
  | some a =>
    apply (deref (fun _ _ => rfl)).bind
    intro r
    split
    · split
      · exact (change (fun _ l => ⟨l, rfl⟩)).bind (fun _ => .pure)
      · exact .throw
    · exact hfail
  | none =>
    apply calloc.bind
    intro ret
    cases ret with
    | none => exact hfail
    | some ret =>
      apply strAlloc.bind
      intro copied
      cases copied with
      | null | inval => exact nbErr.bind (fun _ => memrefFree.bind (fun _ => .pure))
      | truncated copy => exact nbErr.bind (fun _ => memrefFree.bind (fun _ => .pure))
      | copy =>
        apply (change (fun _ l => ⟨l, rfl⟩)).bind
        intro _
        exact (change (fun _ l => ⟨l, rfl⟩)).bind (fun _ => .pure)

theorem opField : Steady g p (opField name) := by
  unfold Xdpacket.opField
  cases name with
  | none => exact .pure
  | some n =>
    apply fieldGet.bind
    intro r
    cases r with
    | none => exact .pure
    | some a => exact .pure

theorem opMemrefField : Steady g p (opMemrefField own other) := by
  unfold Xdpacket.opMemrefField
  split
  · exact .pure
  · exact .pure
  · exact .throw

theorem opState : Steady g p (opState env own other name) := by
  unfold Xdpacket.opState
  cases name with
  | none => exact .pure
  | some n =>
    apply opMemrefField.bind
    intro field
    apply memrefStateGet.bind
    intro r
    cases r with
    | none => exact .pure
    | some a => exact .pure

theorem opValue : Steady g p (opValue env own other name) := by
  unfold Xdpacket.opValue
  cases name with
  | none => exact .pure
  | some n =>
    apply opMemrefField.bind
    intro field
    apply memrefValueNew.bind
    intro r
    cases r with
    | none => exact .pure
    | some a => exact .pure

theorem opDie {ret : Op} {msg : Text} : Steady g p (opDie ret msg) :=
  nbErr.bind (fun _ => opFree.bind (fun _ => .pure))

theorem opNew {df ds sf ss sv : Option Text} : Steady g p (opNew env df ds sf ss sv) := by
  have hfail : ∀ {msg : Text}, Steady g p
      (Xdpacket.nbErr msg >>= fun _ => Pure.pure none : M (Option Op)) :=
    nbErr.bind (fun _ => .pure)
  unfold Xdpacket.opNew
  split
  · exact hfail
  split
  · exact hfail
  split
  · exact hfail
  split
  · exact hfail
  apply alloc.bind
  intro ok
  split
  · exact hfail
  apply opField.bind
  intro dstField
  cases dstField with
  | none => exact opDie
  | some dstField =>
    apply opField.bind
    intro srcField
    cases srcField with
    | none => exact opDie
    | some srcField =>
      apply opState.bind
      intro dst
      cases dst with
      | none => exact opDie
      | some dst =>
        refine bind (m := if ss ≠ none then Xdpacket.opState env srcField dstField ss
          else Xdpacket.opValue env srcField dstField sv) ?_ ?_
        · split
          · exact opState
          · exact opValue
        · intro src
          cases src with
          | none => exact opDie
          | some src =>
            apply opMemrefField.bind
            intro a
            apply (deref (fun _ _ => rfl)).bind
            intro dstSet
            apply opMemrefField.bind
            intro b
            exact (deref (fun _ _ => rfl)).bind (fun _ => .pure)

end Operations

section Routs

theorem ruleRelease : Steady id p (ruleRelease ref) := by
  unfold Xdpacket.ruleRelease
  cases ref with
  | none => exact .pure
  | some a =>
    apply (deref (fun _ _ => rfl)).bind
    intro r
    split
    · exact .nbErr
    · exact change (fun _ l => ⟨l, rfl⟩)

theorem ruleGet : Steady id p (ruleGet n) := by
  unfold Xdpacket.ruleGet
  apply (jsGet (fun _ _ => rfl)).bind
  intro r
  cases r with
  | none => exact .pure
  | some a =>
    apply (deref (fun _ _ => rfl)).bind
    intro f
    exact (change (fun _ l => ⟨l, rfl⟩)).bind (fun _ => .pure)

theorem ifaceRelease : Steady g p (ifaceRelease ref) := by
  unfold Xdpacket.ifaceRelease
  cases ref with
  | none => exact .pure
  | some a =>
    apply (deref (fun _ _ => rfl)).bind
    intro i
    split
    · exact .nbErr
    · exact change (fun _ l => ⟨l, rfl⟩)

theorem ifaceGet : Steady g p (ifaceGet n) := by
  unfold Xdpacket.ifaceGet
  apply (jsGet (fun _ _ => rfl)).bind
  intro r
  cases r with
  | none => exact .pure
  | some a =>
    apply (deref (fun _ _ => rfl)).bind
    intro i
    exact (change (fun _ l => ⟨l, rfl⟩)).bind (fun _ => .pure)

theorem routSetNew {rule output : Addr} : Steady id p (routSetNew rule output) := by
  unfold Xdpacket.routSetNew
  apply calloc.bind
  intro ret
  cases ret with
  | none => exact nbErr.bind (fun _ => .pure)
  | some ret =>
    apply (deref (fun _ _ => rfl)).bind
    intro r
    exact (change (fun _ l => ⟨l, rfl⟩)).bind (fun _ => .pure)

theorem routSetFree : Steady g p (routSetFree ref) := by
  unfold Xdpacket.routSetFree
  cases ref with
  | none => exact .pure
  | some a =>
    apply (deref (fun _ _ => rfl)).bind
    intro _
    exact change (fun _ l => ⟨l, rfl⟩)

theorem routFree {rule output set : Option Addr} : Steady id p (routFree rule output set) :=
  ruleRelease.bind (fun _ => ifaceRelease.bind (fun _ => routSetFree))

theorem routFreeAll {rts : List Rout} : Steady id p (routFreeAll rts) := by
  induction rts with
  | nil => exact .pure
  | cons rt rts ih => exact routFree.bind (fun _ => ih)

theorem routNew {ruleName outName : Option Text} : Steady id p (routNew ruleName outName) := by
  have hfail : ∀ {msg : Text}, Steady id p
      (Xdpacket.nbErr msg >>= fun _ => Pure.pure none : M (Option Rout)) :=
    nbErr.bind (fun _ => .pure)
  unfold Xdpacket.routNew
  cases ruleName with
  | none => exact hfail
  | some ruleName =>
    cases outName with
    | none => exact hfail
    | some outName =>
      apply alloc.bind
      intro ok
      split
      · exact hfail
      apply ruleGet.bind
      intro rule
      cases rule with
      | none => exact nbErr.bind (fun _ => routFree.bind (fun _ => .pure))
      | some rule =>
        apply ifaceGet.bind
        intro output
        cases output with
        | none => exact nbErr.bind (fun _ => routFree.bind (fun _ => .pure))
        | some output =>
          apply routSetNew.bind
          intro set
          cases set with
          | none => exact nbErr.bind (fun _ => routFree.bind (fun _ => .pure))
          | some set => exact .pure

end Routs

end Steady

end Xdpacket
