import Scalarize.Failure
import Scalarize.Total

/-!
# Scalarize — dropping dead assignments

An assignment is alive if its target is wanted, or is read by the assignment of a live name. The
dead ones are dropped, and then the lines that have become empty.
-/

namespace Scalarize

/-- For each assigned name, in the order of the first assignments, the names that its last
assignment reads. -/
abbrev DependencyGraph := List (String × List String)

namespace DependencyGraph

/-- Give a name its dependencies; a name that is there keeps its place. -/
def set (name : String) (deps : List String) : DependencyGraph → DependencyGraph
  | [] => [(name, deps)]
  | (n, ds) :: rest => if n == name then (n, deps) :: rest else (n, ds) :: set name deps rest

/-- The number of dependencies. -/
def weight (g : DependencyGraph) : Nat :=
  total (g.map (·.2.length))

/-- The dependencies of a name; a name without an entry has none. -/
def reads (g : DependencyGraph) (name : String) : List String :=
  (g.lookup name).getD []

/-- The graph without the entries of a name. -/
def without (g : DependencyGraph) (name : String) : DependencyGraph :=
  g.filter fun e => !(name == e.1)

/-- Taking out a name takes out its dependencies. -/
theorem weight_without (g : DependencyGraph) (name : String) :
    (g.without name).weight + (g.reads name).length ≤ g.weight := by
  induction g with
  | nil => simp [without, reads, weight]
  | cons e rest ih =>
    obtain ⟨n, ds⟩ := e
    simp only [without, reads, weight] at ih ⊢
    by_cases h : name == n
    · simp only [h, List.filter_cons, List.lookup_cons, Bool.not_true, Bool.false_eq_true,
        if_false, Option.getD_some, List.map_cons, total_cons]
      omega
    · simp only [Bool.not_eq_true] at h
      simp only [h, List.filter_cons, List.lookup_cons, Bool.not_false, if_true, List.map_cons,
        total_cons]
      omega

/-- The names that can be reached from those of the queue, added to those already known. A name that
has been visited needs no entry any more. -/
def reachable (g : DependencyGraph) (queue known : List String) : List String :=
  match queue with
  | [] => known
  | x :: rest =>
    if known.contains x then reachable g rest known
    else reachable (g.without x) (g.reads x ++ rest) (known ++ [x])
termination_by g.weight + queue.length
decreasing_by
  · simp
  · have := weight_without g x
    simp only [List.length_append, List.length_cons]
    omega

/-- The live names: the wanted ones and all that they depend on. -/
def alive (g : DependencyGraph) (keep : List String) : List String :=
  g.reachable keep []

end DependencyGraph

namespace Tree

/-- The target and the expression of an assignment. -/
def assignmentParts (t : Tree) : Except Fault (Tree × Tree) :=
  match t.children with
  | x :: e :: _ => .ok (x, e)
  | _ => .error .missingChild

/-- The name that an assignment assigns. -/
def targetName (t : Tree) : String :=
  match t.children with
  | x :: _ => x.name
  | [] => valueText none

/-- What the assignments of a program depend on. -/
def dependencies (program : Tree) : Except Fault DependencyGraph :=
  if program.kind != "program" then .error .wrongKind
  else
    program.assignments.foldlM (fun g t => do
      let (x, e) ← t.assignmentParts
      return g.set x.name e.variableNames.eraseDups) []

mutual

/-- Drop the nodes below a tree that satisfy a predicate, with all that is below them. -/
def dropBelow (p : Tree → Bool) : Tree → Tree
  | leaf k v => leaf k v
  | branch k v cs => branch k v (dropAll p cs)

/-- `dropBelow` on a list of trees, which may be dropped themselves. -/
def dropAll (p : Tree → Bool) : List Tree → List Tree
  | [] => []
  | t :: ts => if p t then dropAll p ts else dropBelow p t :: dropAll p ts

end

/-- Is the node an assignment to a name that is not alive? -/
def isDead (alive : List String) (t : Tree) : Bool :=
  t.isAssignment && !alive.contains t.targetName

/-- Is the node a line without statements? -/
def isEmptyLine (t : Tree) : Bool :=
  t.kind == "line" && !t.isLeaf && t.children.isEmpty

/-- Drop the dead assignments of a program and the lines that are empty then. -/
def dropDead (alive : List String) (program : Tree) : Except Fault Tree :=
  if program.kind != "program" then .error .wrongKind
  else .ok ((program.dropBelow (isDead alive)).dropBelow isEmptyLine)

/-- Keep only what the wanted names need. -/
def eliminateDead (keep : List String) (program : Tree) : Except Fault Tree := do
  let g ← program.dependencies
  program.dropDead (g.alive keep)

end Tree

end Scalarize
