import Scalarize.Tree.Basic

/-!
# Scalarize — the two written forms of a tree

The bracket form stands on one line, with every child in brackets. The indented form gives every
node a line of its own, two spaces deeper than its parent.
-/

namespace Scalarize.Tree

mutual

/-- The bracket form. -/
def render : Tree → String
  | leaf k v => k ++ " " ++ valueText v
  | branch k _ cs => k ++ " " ++ String.intercalate " " (renderAll cs)

/-- The bracket forms of a list of trees, each in brackets. -/
def renderAll : List Tree → List String
  | [] => []
  | t :: ts => ("(" ++ render t ++ ")") :: renderAll ts

end

/-- The margin of a nesting depth. -/
def margin (depth : Nat) : String :=
  String.ofList (List.replicate (2 * depth) ' ')

mutual

/-- The indented form. A program without a list of children is the word alone. -/
def pretty (depth : Nat) : Tree → String
  | leaf k v =>
    if k == "program" then "program" else margin depth ++ k ++ " " ++ valueText v ++ "\n"
  | branch k _ cs => margin depth ++ k ++ "\n" ++ prettyAll (depth + 1) cs

/-- The indented forms of a list of trees, one after the other. -/
def prettyAll (depth : Nat) : List Tree → String
  | [] => ""
  | t :: ts => pretty depth t ++ prettyAll depth ts

end

end Scalarize.Tree
