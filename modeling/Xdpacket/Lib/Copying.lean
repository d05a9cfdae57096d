import Mathlib.Data.List.Perm.Basic
import Mathlib.Data.List.Nodup
import Mathlib.Logic.Function.Basic

/-- Copy each cell `src i` to the cell `dst i`, one after the other. -/
def copyCells [DecidableEq α] (dst src : ι → α) : List ι → (α → β) → α → β
  | [], f => f
  | i :: is, f => copyCells dst src is (Function.update f (dst i) (f (src i)))

/-- A source cell that is also a destination gets the value that it has. -/
def Harmless (dst src : ι → α) (is : List ι) (f : α → β) : Prop :=
  ∀ i ∈ is, ∀ k ∈ is, dst k = src i → f (src k) = f (src i)

namespace copyCells

variable {α β ι : Type} [DecidableEq α] {dst src : ι → α} {is js : List ι} {f : α → β} {i : ι} {x : α}

/-- Only destinations change. -/
theorem of_ne (h : ∀ i ∈ is, x ≠ dst i) : copyCells dst src is f x = f x := by
  induction is generalizing f with
  | nil => rfl
  | cons i is ih =>
    unfold copyCells
    rw [ih (fun k hk => h k (List.mem_cons_of_mem _ hk)),
      Function.update_of_ne (h i (List.mem_cons_self ..))]

/-- Where it is harmless, cells are copied in any order as through a temporary. -/
theorem copied (hd : Function.Injective dst) (h : Harmless dst src is f) (hi : i ∈ is) :
    copyCells dst src is f (dst i) = f (src i) := by
  induction is generalizing f with
  | nil => cases hi
  | cons k is ih =>
    unfold copyCells
    have hkeep : ∀ j ∈ k :: is, Function.update f (dst k) (f (src k)) (src j) = f (src j) := by
      intro j hj
      by_cases hjk : src j = dst k
      · rw [hjk, Function.update_self]
        exact (h j hj k (List.mem_cons_self ..) hjk.symm).trans (by rw [hjk])
      · rw [Function.update_of_ne hjk]
    have hrest : Harmless dst src is (Function.update f (dst k) (f (src k))) := by
      intro j hj l hl he
      rw [hkeep l (List.mem_cons_of_mem _ hl), hkeep j (List.mem_cons_of_mem _ hj)]
      exact h j (List.mem_cons_of_mem _ hj) l (List.mem_cons_of_mem _ hl) he
    by_cases hin : i ∈ is
    · rw [ih hrest hin, hkeep i hi]
    · obtain rfl : i = k := (List.mem_cons.mp hi).resolve_right hin
      rw [of_ne, Function.update_self]
      intro l hl he
      exact hin (hd he ▸ hl)

/-- If every order copies as through a temporary, then no source was disturbed: the order
that starts with a disturbing cell and the disturbed one shows it. -/
theorem harmless [DecidableEq ι] (hd : Function.Injective dst) (hn : is.Nodup)
    (h : ∀ js, js.Perm is → ∀ i ∈ is, copyCells dst src js f (dst i) = f (src i)) :
    Harmless dst src is f := by
  intro i hi k hk he
  by_cases hik : i = k
  · rw [hik]
  have hi' : i ∈ is.erase k := (List.mem_erase_of_ne hik).mpr hi
  have hperm : (k :: i :: (is.erase k).erase i).Perm is :=
    ((List.perm_cons_erase hi').symm.cons k).trans (List.perm_cons_erase hk).symm
  have hfirst := h _ hperm i hi
  have hnot : i ∉ (is.erase k).erase i := (hn.erase k).not_mem_erase
  unfold copyCells copyCells at hfirst
  rw [of_ne, Function.update_self, ← he, Function.update_self] at hfirst
  · rw [hfirst, he]
  · intro l hl hc
    exact hnot (hd hc ▸ hl)

end copyCells
