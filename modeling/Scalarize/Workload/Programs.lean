import Scalarize.Output.Layout
import Scalarize.Program.NamePool
import Scalarize.Program.Reduction

/-!
# Scalarize — chip programs of any size

Programs that are made by rule, each with a short summary of what a part of the compiler makes of
it: copies for the reduction, chains for the elimination of dead code and for the short names, and
ladders for the layout.
-/

namespace Scalarize.Workload

/-- An assignment on a line of its own. -/
def line (name : String) (e : Tree) : Tree :=
  .node "line" [.node "assignment" [.variableNamed name, e]]

/-- A name with a number. -/
def numbered (stem : String) (i : Nat) : String :=
  stem ++ toString i

/-- The name of a column: one capital letter, then two, and so on. There is none below zero. -/
def columnName (i : Int) : String :=
  if i < 0 then "" else String.ofList (lettersOf 'A' i.toNat)

/-! ### Copies -/

/-- Copies of so many external variables, and after them a copy of a copy. -/
def copies (n : Nat) : Tree :=
  .node "program"
    ((List.range n).map (fun i => line (numbered "v" i) (.variableNamed (numbered "ext" i))) ++
      [line "c0" (.variableNamed "extZ"), line "c1" (.variableNamed "c0")])

/-- How many steps of propagation a program takes, up to a limit. -/
def propagationSteps : Nat → Tree → Nat
  | 0, _ => 0
  | limit + 1, t =>
    match t.propagateStep with
    | some t' => propagationSteps limit t' + 1
    | none => 0

/-- The number of steps of propagation in the copies, and what they are reduced to. -/
def reducedCopies (n : Nat) : Traced (Nat × Tree) := do
  let program := copies n
  let reduced ← program.reduce
  return (propagationSteps program.size program, reduced)

/-! ### Chains -/

/-- A variable of a chain. -/
def linkName (i : Nat) : String :=
  numbered "var_" i

/-- The value of a variable of a chain: the variable before it, or the external variable that the
chain starts with. -/
def linkValue : Nat → Tree
  | 0 => .variableNamed "gauge"
  | i + 1 => .node "add" [.variableNamed (linkName i), .variableNamed "gauge"]

/-- A chain of so many variables, each of which reads the one before it. Beside each there is one
that nothing reads. -/
def chain (n : Nat) : Tree :=
  .node "program" ((List.range n).flatMap fun i =>
    [line (linkName i) (linkValue i), line (numbered "spare_" i) (.variableNamed (linkName i))])

/-- The variables of a chain that are exported: every second one. -/
def exportedLinks (n : Nat) : List String :=
  ((List.range n).filter (· % 2 == 0)).map linkName

/-- What is left of a chain. -/
structure ChainSummary where
  /-- The number of assignments. -/
  assignments : Nat
  /-- The number of names that are not shortened. -/
  keptNames : Nat
  /-- The last variable that is assigned. -/
  lastName : String
  /-- The first variable that is assigned. -/
  firstName : String

/-- A chain without its dead code and with short names. The last variable is read from outside. -/
def shortenedChain (n : Nat) : Except Fault ChainSummary := do
  let exported := exportedLinks n
  let alive ← (chain n).eliminateDead (linkName (n - 1) :: exported)
  let short ← alive.shortenNames ["gauge"] exported
  let names := short.assignments.map Tree.targetName
  match names.head?, names.getLast? with
  | some first, some last =>
    let kept := ("gauge" :: exported).filter short.variableNames.contains
    return ⟨names.length, kept.length, last, first⟩
  | _, _ => throw .missingChild

/-! ### Ladders -/

/-- The operations on one number, in the order in which the ladders use them. -/
def unaryKinds : List String :=
  ["neg", "not", "abs", "sin", "cos", "tan", "sqrt", "arcsin", "arccos", "arctan"]

/-- The operations on two numbers, in the order in which the ladders use them. -/
def binaryKinds : List String :=
  ["add", "sub", "mul", "div", "mod", "exp", "lt", "le", "gt", "ge", "eq", "ne", "and", "or"]

/-- The kind at a place in a list that is gone through again and again. -/
def kindAt (kinds : List String) (i : Nat) : String :=
  kinds.getD (i % kinds.length) ""

/-- An expression with so many operations on two numbers, one inside the other. -/
def rungs (start : Tree) : Nat → Tree
  | 0 => start
  | j + 1 => .node (kindAt binaryKinds j) [rungs start j, .text "number" (toString (j + 1))]

/-- The height of a ladder grows from one to the next and starts again after twenty. -/
def height (i : Nat) : Nat :=
  i % 20 + 2

/-- An operation on one number above a ladder of operations on two. -/
def ladder (i : Nat) : Tree :=
  .node (kindAt unaryKinds i) [rungs (.variableNamed (numbered "x" i)) (height i)]

/-- A program of so many ladders. -/
def ladders (n : Nat) : Tree :=
  .node "program" ((List.range n).map fun i => line (numbered "out_" i) (ladder i))

/-- The sizes of a program in its two printed forms. -/
structure PrintedSize where
  text : Nat
  tree : Nat
  /-- The number of line ends in the text. -/
  lineEnds : Nat

/-- The sizes of the ladders in print. -/
def printedLadders (n : Nat) : Except Fault PrintedSize := do
  let page ← Layout.page (ladders n)
  return ⟨page.text.length, ((ladders n).pretty 0).length, page.text.toList.count '\n'⟩

end Scalarize.Workload
