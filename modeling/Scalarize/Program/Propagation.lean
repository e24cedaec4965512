import Scalarize.Program.Liveness

/-!
# Scalarize — propagating constants and copies

A variable whose first assignment is a single variable or an expression without variables is
replaced by that expression. One step replaces one occurrence, the first that can be replaced.
-/

namespace Scalarize.Tree

/-- Can the expression take the place of a variable? -/
def isPropagated (e : Tree) : Bool :=
  e.isVariable || e.variableNodes.isEmpty

/-- The expression that takes the place of a variable: that of the first of the assignments to its
name, if it can. -/
def replacement? (assigned : List (String × Tree)) (name : String) : Option Tree :=
  match assigned.lookup name with
  | some e => if e.isPropagated then some e else none
  | none => none

mutual

/-- Replace the first variable below a tree that can be replaced. -/
def propagateBelow (find : String → Option Tree) : Tree → Option Tree
  | leaf _ _ => none
  | branch k v cs => (propagateAll find (k == "assignment") cs).map (branch k v)

/-- `propagateBelow` on a list of trees. The first of them is passed over if it is the target of an
assignment. -/
def propagateAll (find : String → Option Tree) (target : Bool) : List Tree → Option (List Tree)
  | [] => none
  | t :: ts =>
    match (if t.isVariable && !target then find t.name else none) with
    | some e => some (e :: ts)
    | none =>
      match propagateBelow find t with
      | some t' => some (t' :: ts)
      | none => (propagateAll find false ts).map (t :: ·)

end

/-- The names and the expressions of the assignments of a program. -/
def assigned (program : Tree) : List (String × Tree) :=
  program.assignments.filterMap fun t =>
    match t.children with
    | x :: e :: _ => some (x.name, e)
    | _ => none

/-- One step of propagation; `none` if nothing can be replaced. -/
def propagateStep (program : Tree) : Option Tree :=
  program.propagateBelow (replacement? program.assigned)

/-- One step of propagation in what has to be a program. -/
def propagate (program : Tree) : Except Fault (Option Tree) :=
  if program.kind != "program" then .error .wrongKind else .ok program.propagateStep

end Scalarize.Tree
