import Mathlib.Data.List.AList
import Mathlib.Data.List.Sort
import Xdpacket.Lib.Runs

namespace Cursor

variable {κ β σ ε : Type} [LinearOrder κ] {s : AList (fun _ : κ => β)} {k n : κ} {v : β}

/-- The entries of a store, in the order of their keys. -/
def inOrder (s : AList (fun _ : κ => β)) : List (κ × β) :=
  (s.entries.map (fun e => (e.1, e.2))).insertionSort (fun a b => a.1 ≤ b.1)

/-- What a cursor that stands at `k` has not reached. -/
def beyond (s : AList (fun _ : κ => β)) (k : κ) : List (κ × β) :=
  (inOrder s).filter (fun e => k < e.1)

end Cursor
