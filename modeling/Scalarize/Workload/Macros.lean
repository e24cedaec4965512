import Scalarize.Library.Basic
import Scalarize.Total
import Scalarize.Workload.Programs

/-!
# Scalarize — libraries of any size

A library of macros with two parameters each.
-/

namespace Scalarize.Workload

/-- The text of a definition. -/
def definitionText (i : Nat) : String :=
  "define " ++ numbered "m" i ++ " (number A, number B) -> number = A + B\n"

/-- A library of so many definitions. -/
def libraryFile (n : Nat) : StoredFile :=
  ⟨Library.fileName "series", some (String.join ((List.range n).map definitionText))⟩

/-- The number of parameters of a definition. -/
def parameterCount (t : Tree) : Nat :=
  match t.children with
  | _ :: params :: _ => params.children.length
  | _ => 0

/-- The number of parameters and of definitions in the library. -/
def librarySummary (n : Nat) : Except Failure (Nat × Nat) := do
  let definitions ← Library.load [libraryFile n] "series"
  return (total (definitions.map parameterCount), definitions.length)

end Scalarize.Workload
