/-!
# Lists in pieces

A list is cut into consecutive pieces of one size. The last piece may be shorter.
-/

namespace Secp

/-- Cut a list into pieces of one size; the last may be shorter. A size of zero gives none. -/
def pieces {α : Type} (size : Nat) (xs : List α) : List (List α) :=
  if _h : size = 0 ∨ xs = [] then [] else xs.take size :: pieces size (xs.drop size)
termination_by xs.length
decreasing_by
  have : 0 < xs.length := List.length_pos_iff.mpr (by simp_all)
  rw [List.length_drop]
  omega

end Secp
