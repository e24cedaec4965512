/-!
# Scalarize — totals

The sum of a list of natural numbers, which is used as a measure and as a size.
-/

namespace Scalarize

/-- The sum of the numbers. -/
def total : List Nat → Nat
  | [] => 0
  | n :: ns => n + total ns

@[simp] theorem total_nil : total [] = 0 := rfl

@[simp] theorem total_cons (n : Nat) (ns : List Nat) : total (n :: ns) = n + total ns := rfl

end Scalarize
