import Xdpacket.Proofs.Access
import Xdpacket.Proofs.NoLeaks

namespace Xdpacket

variable {w v : World} {live : Multiset Ref} {env : Env} {op : Op} {m : Mem}
  {df ds sf ss sv : Option Text}

/-- The memref of a finished operation has the length of its side. -/
theorem Backed.backs {ref : Option Addr} {set : FieldSet} (h : Backed v ref set)
    (hl : ∀ a, ref = some a → ∃ r, v.memrefs a = some r)
    (hm : ∀ a, (m.memrefs a).map Memref.set = (v.memrefs a).map Memref.set) : m.Backs ref set := by
  intro a ha
  obtain ⟨r, hr⟩ := hl a ha
  have hs := hm a
  rw [hr, Option.map_some] at hs
  obtain ⟨q, hq, he⟩ := Option.map_eq_some_iff.mp hs
  exact ⟨q, hq, by rw [he]; exact ((h a ha).2 r hr).1⟩

/-- What a finished operation points at is live while the operation is held. -/
theorem Consistent.op_backs (h : Consistent v (op.refs + live)) (ho : OpOk v op)
    (hm : ∀ a, (m.memrefs a).map Memref.set = (v.memrefs a).map Memref.set) :
    m.Backs op.set.to' op.set.setTo ∧ m.Backs op.set.from' op.set.setFrom := by
  rw [ho.to', ho.from']
  constructor
  · apply ho.dst.backs _ hm
    intro a ha
    exact h.memref_live (Multiset.mem_add.mpr (.inl (by simp [Op.refs, ha, holdOpt])))
  · apply ho.src.backs _ hm
    intro a ha
    exact h.memref_live (Multiset.mem_add.mpr (.inl (by simp [Op.refs, ha, holdOpt])))

/-- An operation that `op_new` accepts stays inside the packet and its memrefs, whatever
they contain, exactly when both operands have the larger of the two lengths. -/
theorem op_stays_inside_iff (cpy : CopyOrder) (h : Consistent w live)
    (hr : opNew env df ds sf ss sv w = .ok (some op, v))
    (hm : ∀ a, (m.memrefs a).map Memref.set = (v.memrefs a).map Memref.set) :
    (StaysInside (opMatch op.set) m ∧ StaysInside (opWrite cpy op.set) m) ↔
      op.set.InBounds m.pkt.length := by
  obtain ⟨-, hc, ho⟩ := (opNew_does h).ok hr
  obtain ⟨ht, hf⟩ := hc.op_backs (ho op rfl) hm
  exact stays_inside_iff cpy ht hf

theorem op_stays_inside_byteState : ∃ w op v, handleAll .sample [byteFieldAdd]
      (World.start [] [] []) = .ok ((), w) ∧
    opNew .sample (some "f") (some "s") (some "f") none none w = .ok (some op, v) ∧
    ((StaysInside (opMatch op.set) { v.toMem with pkt := [7] } ∧
      StaysInside (opWrite Env.sample.cpy op.set) { v.toMem with pkt := [7] }) ↔
        op.set.InBounds 1) := by
  have hrun : Runs (fun _ => False) (do
      handleAll .sample [byteFieldAdd]
      opNew .sample (some "f") (some "s") (some "f") none none) (World.start [] [] [])
      (fun op _ => op.isSome) := by
    decide +kernel
  obtain ⟨op, v, hr, hs⟩ := hrun.exists_ok
  obtain ⟨op, rfl⟩ := Option.isSome_iff_exists.mp hs
  obtain ⟨⟨⟩, w, hw, ho⟩ := bind_eq_ok.mp hr
  obtain ⟨live, hc⟩ := Reachable.consistent ⟨[], [], [], [byteFieldAdd], hw⟩
  exact ⟨w, op, v, hw, ho, op_stays_inside_iff _ hc ho (fun _ => rfl)⟩

def pairFieldAdd : Event := lenFieldAdd "g" "2"

/-- A state made for a field of one byte is written from a field of two. -/
theorem op_leaves_state : ∃ w op v, handleAll .sample [byteFieldAdd, pairFieldAdd]
      (World.start [] [] []) = .ok ((), w) ∧
    opNew .sample (some "f") (some "s") (some "g") none none w = .ok (some op, v) ∧
    ¬ StaysInside (opWrite Env.sample.cpy op.set) { v.toMem with pkt := [0, 0] } := by
  have hrun : Runs (fun _ => False) (do
      handleAll .sample [byteFieldAdd, pairFieldAdd]
      opNew .sample (some "f") (some "s") (some "g") none none) (World.start [] [] [])
      (fun op v => op.isSome ∧ ¬ StaysInside (opWrite Env.sample.cpy (op.getD .zero).set)
        { v.toMem with pkt := [0, 0] }) := by
    decide +kernel
  obtain ⟨op, v, hr, hs, hw⟩ := hrun.exists_ok
  obtain ⟨op, rfl⟩ := Option.isSome_iff_exists.mp hs
  obtain ⟨⟨⟩, w, hw', ho⟩ := bind_eq_ok.mp hr
  exact ⟨w, op, v, hw', ho, hw⟩

end Xdpacket
