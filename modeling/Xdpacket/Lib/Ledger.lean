import Mathlib.Data.Multiset.Count
import Mathlib.Data.Multiset.AddSub
import Mathlib.Logic.Function.Basic

/-- Every count is exactly the number of its holders: those that are stored
and those that are in flight. -/
def InBalance (count stored : R → Nat) [DecidableEq R] (live : Multiset R) : Prop :=
  ∀ r, count r = stored r + live.count r

namespace InBalance

variable {R : Type} [DecidableEq R] {count count' stored stored' : R → Nat}
  {live moved : Multiset R} {x : R}

/-- Taking one reference puts one holder in flight. -/
theorem take (h : InBalance count stored live)
    (hc : ∀ r, count' r = count r + if r = x then 1 else 0) :
    InBalance count' stored (x ::ₘ live) := by
  intro r
  have := h r
  rw [hc r, Multiset.count_cons]
  omega

/-- Releasing a reference in flight ends one holder. -/
theorem release (h : InBalance count stored (x ::ₘ live))
    (hc : ∀ r, count r = count' r + if r = x then 1 else 0) : InBalance count' stored live := by
  intro r
  have := h r
  rw [hc r, Multiset.count_cons] at this
  omega

/-- Raising one count by one. -/
theorem take_update (h : InBalance count stored live) :
    InBalance (Function.update count x (count x + 1)) stored (x ::ₘ live) := by
  apply h.take
  intro r
  by_cases hr : r = x
  · subst hr
    simp
  · simp [hr]

/-- Lowering the count of a reference in flight by one. -/
theorem release_update (h : InBalance count stored (x ::ₘ live)) :
    InBalance (Function.update count x (count x - 1)) stored live := by
  have hp : 0 < count x := by
    have := h x
    rw [Multiset.count_cons_self] at this
    omega
  apply h.release
  intro r
  by_cases hr : r = x
  · subst hr
    simp
    omega
  · simp [hr]

/-- Storing an object moves the references it holds out of flight. -/
theorem store (h : InBalance count stored (moved + live))
    (hs : ∀ r, stored' r = stored r + moved.count r) : InBalance count stored' live := by
  intro r
  have := h r
  rw [Multiset.count_add] at this
  rw [hs r]
  omega

/-- Unlinking a stored object puts the references it holds back in flight. -/
theorem unlink (h : InBalance count stored live)
    (hs : ∀ r, stored r = stored' r + moved.count r) : InBalance count stored' (moved + live) := by
  intro r
  have := h r
  rw [Multiset.count_add]
  rw [hs r] at this
  omega

/-- A reference in flight is counted. -/
theorem pos_of_mem (h : InBalance count stored live) (hx : x ∈ live) : 0 < count x := by
  have := h x
  have := Multiset.count_pos.mpr hx
  omega

theorem stored_le (h : InBalance count stored live) (r : R) : stored r ≤ count r := by
  have := h r
  omega

/-- With nothing in flight the stored holders alone fix every count. -/
theorem exact (h : InBalance count stored (0 : Multiset R)) (r : R) : count r = stored r := by
  simpa using h r

end InBalance
