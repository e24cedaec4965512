import Scalarize.Program.Folding
import Scalarize.Program.Propagation

/-!
# Scalarize — reducing programs

Propagation and folding take turns until neither finds anything to do.
-/

namespace Scalarize.Tree

open Traced

/-- Reduce a program in at most the given number of steps. -/
def reduceIn : Nat → Tree → Traced Tree
  | 0, _ => give .endlessReduction
  | steps + 1, t =>
    match t.propagateStep with
    | some t' => reduceIn steps t'
    | none => do
      match ← t.fold with
      | some t' => reduceIn steps t'
      | none => return t

/-- More steps than a program can take in which every variable is assigned once and before it is
read: the right-hand sides grow by no more than a factor of the size of each. -/
def stepBound (t : Tree) : Nat :=
  Nat.pow 4 (t.size + 2)

/-- Reduce a program. -/
def reduce (program : Tree) : Traced Tree :=
  if program.kind != "program" then give .wrongKind
  else program.reduceIn program.stepBound

end Scalarize.Tree
