import Xdpacket.Proofs.NoDangling
import Xdpacket.Proofs.Server

namespace Xdpacket

variable {s w v : World} {live : Multiset Ref} {env : Env} {ext : List Nat} {x : Ref} {a : Addr}
  {tk : Traversal}

section Pinned

end Pinned

section Unwinding

/-- The world on the way out, since `s`: no reference is lost or found, no object changes. -/
structure Unwinds (s : World) (live : Multiset Ref) (ext : List Nat) (w : World) : Prop where
  shrinks : Shrinks s w
  ifaces : ∀ a i, w.ifaces a = some i → ∃ j, s.ifaces a = some j ∧ i.fd = j.fd
  consistent : Consistent w live
  descriptors : Descriptors ext w

theorem Unwinds.refl (hc : Consistent w live) (hd : Descriptors ext w) : Unwinds w live ext w :=
  ⟨⟨.refl hc.fresh, rfl⟩, fun _ i hi => ⟨i, hi, rfl⟩, hc, hd⟩

theorem Unwinds.step {ext' : List Nat} (h : Unwinds s live ext w) (hs : Shrinks w v)
    (hi : ∀ a i, v.ifaces a = some i → ∃ j, w.ifaces a = some j ∧ i.fd = j.fd)
    (hc : Consistent v live) (hd : Descriptors ext' v) : Unwinds s live ext' v where
  shrinks := ⟨h.shrinks.toQuiet.trans hs.toQuiet, hs.next_eq.trans h.shrinks.next_eq⟩
  ifaces := by
    intro a i ha
    obtain ⟨j, hj, hf⟩ := hi a i ha
    obtain ⟨k, hk, hf'⟩ := h.ifaces a j hj
    exact ⟨k, hk, hf.trans hf'⟩
  consistent := hc
  descriptors := hd

theorem Unwinds.log (h : Unwinds s live ext w) (log : List Text) :
    Unwinds s live ext { w with log := log } := by
  have hi : Idle w { w with log := log } := { Idle.refl w with next := Nat.le_refl _ }
  exact h.step ⟨(hi.same h.consistent.fresh).toQuiet, rfl⟩ (fun _ i ha => ⟨i, ha, rfl⟩)
    (hi.consistent h.consistent) (h.descriptors.of_idle hi rfl)

/-- Its rules hold what they held. -/
theorem Unwinds.rules (h : Unwinds s live ext w) {r : Rule} (hr : w.rules a = some r) :
    ∃ r', s.rules a = some r' ∧ r'.refs = r.refs := by
  have hb := h.consistent.fresh.rules.below hr
  rw [h.shrinks.next_eq] at hb
  obtain ⟨r', hr', hk⟩ := h.shrinks.rules a hb r hr
  simp only [Rule.key, Prod.mk.injEq] at hk
  exact ⟨r', hr', by rw [Rule.refs, Rule.refs, hk.2.1, hk.2.2]⟩

end Unwinding

section Sweeps

end Sweeps

section Tracker

def Registration.fds : Registration → List Nat
  | .iface _ => []
  | .parse fdin fdout => pairFds fdin fdout
  | .netsock fd => [fd]

def Registration.iface? : Registration → Option Addr
  | .iface a => some a
  | _ => none

/-- What is still to be destroyed is there, each once, and nothing else of it is. -/
structure Destroyable (ext : List Nat) (regs : List Registration) (w : World) : Prop where
  own : ∀ fd ≠ 0, (regs.flatMap Registration.fds).count fd ≤ 1
  apart : ∀ fd ≠ 0, fd ∈ regs.flatMap Registration.fds → fd ∉ ext
  once : (regs.filterMap Registration.iface?).Nodup
  live : ∀ a ∈ regs.filterMap Registration.iface?, (w.ifaces a).isSome

theorem Destroyable.rest {reg : Registration} {regs : List Registration}
    (h : Destroyable ext (reg :: regs) w)
    (hkeep : ∀ a ∈ regs.filterMap Registration.iface?, (v.ifaces a).isSome) :
    Destroyable ext regs v where
  own := by
    intro x hz
    have hone := h.own x hz
    rw [List.flatMap_cons, List.count_append] at hone
    omega
  apart := fun x hz hx => h.apart x hz (by
    rw [List.flatMap_cons]
    exact List.mem_append_right _ hx)
  once := h.once.sublist ((List.sublist_cons_self _ _).filterMap _)
  live := hkeep

theorem Unwinds.close {ext' : List Nat} (h : Unwinds s live ext w) (fds : List Nat)
    (hfds : ∀ fd ∈ fds, fd ∈ ext) (he : ∀ x ≠ 0, x ∈ ext' ↔ x ∉ fds ∧ x ∈ ext) :
    Unwinds s live ext' (w.close fds) :=
  h.step ⟨((w.close_idle fds).same h.consistent.fresh).toQuiet, rfl⟩ (fun _ i ha => ⟨i, ha, rfl⟩)
    ((w.close_idle fds).consistent h.consistent) (h.descriptors.release hfds he)

end Tracker

section Exit

end Exit

end Xdpacket
