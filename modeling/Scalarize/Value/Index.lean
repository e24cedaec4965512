/-!
# Scalarize — signed indices

An index counts from the front, and a negative one from the end: `-1` is the last element.
-/

namespace Scalarize

/-- The position in a list of length `n` that a signed index means. -/
def position? (n : Nat) (i : Int) : Option Nat :=
  if 0 ≤ i then
    if i < n then some i.toNat else none
  else if 0 ≤ i + n then some (i + n).toNat
  else none

/-- The element at a signed index. -/
def signedGet? {α : Type} (xs : List α) (i : Int) : Option α :=
  (position? xs.length i).bind fun k => xs[k]?

end Scalarize
