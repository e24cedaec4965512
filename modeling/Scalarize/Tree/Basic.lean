import Scalarize.Numeral.Basic

/-!
# Scalarize — trees

Source programs, expressions and chip programs are trees whose nodes have a kind, perhaps a value
and perhaps children. A leaf has no list of children at all, which is not the same as an empty one:
the two are printed in different ways.
-/

namespace Scalarize

/-- A tree of a source program or of a chip program. -/
inductive Tree where
  | leaf (kind : String) (value : Option Scalar)
  | branch (kind : String) (value : Option Scalar) (children : List Tree)
deriving Inhabited

namespace Tree

/-- What the node is. -/
def kind : Tree → String
  | leaf k _ => k
  | branch k _ _ => k

/-- The value of the node. -/
def value : Tree → Option Scalar
  | leaf _ v => v
  | branch _ v _ => v

/-- The children of the node; a leaf has none. -/
def children : Tree → List Tree
  | leaf _ _ => []
  | branch _ _ cs => cs

/-- Is there no list of children? -/
def isLeaf : Tree → Bool
  | leaf _ _ => true
  | branch _ _ _ => false

/-- A node that has children and no value. -/
def node (kind : String) (children : List Tree) : Tree :=
  branch kind none children

/-- A leaf that holds a text. -/
def text (kind value : String) : Tree :=
  leaf kind (some (.text value))

/-- A leaf that names a variable. -/
def variableNamed (name : String) : Tree :=
  text "variable" name

/-- A leaf that holds a number. -/
def numberOf (n : Numeral) : Tree :=
  leaf "number" (some (.numeral n))

/-- The text of a value, a missing one being written out. -/
def valueText : Option Scalar → String
  | some s => s.render
  | none => "None"

/-- The value of the node as a name. -/
def name (t : Tree) : String :=
  valueText t.value

/-- Is the node a variable? -/
def isVariable (t : Tree) : Bool :=
  t.kind == "variable"

/-- Is the node a number? -/
def isNumber (t : Tree) : Bool :=
  t.kind == "number"

/-- Is the node an assignment? -/
def isAssignment (t : Tree) : Bool :=
  t.kind == "assignment"

/-- The same node with another value. -/
def setValue (v : Option Scalar) : Tree → Tree
  | leaf k _ => leaf k v
  | branch k _ cs => branch k v cs

/-- The same node with other children; a leaf stays one. -/
def setChildren (cs : List Tree) : Tree → Tree
  | leaf k v => leaf k v
  | branch k v _ => branch k v cs

mutual

/-- The number of nodes. -/
def size : Tree → Nat
  | leaf _ _ => 1
  | branch _ _ cs => 1 + sizeAll cs

/-- The number of nodes of a list of trees. -/
def sizeAll : List Tree → Nat
  | [] => 0
  | t :: ts => size t + sizeAll ts

end

mutual

/-- The nodes that satisfy a predicate, a node before its children. -/
def find (p : Tree → Bool) : Tree → List Tree
  | leaf k v => if p (leaf k v) then [leaf k v] else []
  | branch k v cs =>
    if p (branch k v cs) then branch k v cs :: findAll p cs else findAll p cs

/-- `find` on a list of trees. -/
def findAll (p : Tree → Bool) : List Tree → List Tree
  | [] => []
  | t :: ts => find p t ++ findAll p ts

end

mutual

/-- Change the value of every variable. -/
def mapVariables (f : Option Scalar → Option Scalar) : Tree → Tree
  | leaf k v => leaf k (if k == "variable" then f v else v)
  | branch k v cs => branch k (if k == "variable" then f v else v) (mapVariablesAll f cs)

/-- `mapVariables` on a list of trees. -/
def mapVariablesAll (f : Option Scalar → Option Scalar) : List Tree → List Tree
  | [] => []
  | t :: ts => mapVariables f t :: mapVariablesAll f ts

end

/-- The variables of a tree, a node before its children. -/
def variableNodes (t : Tree) : List Tree :=
  t.find isVariable

/-- The names of the variables of a tree, in the order in which they occur. -/
def variableNames (t : Tree) : List String :=
  t.variableNodes.map name

/-- The assignments of a tree, a node before its children. -/
def assignments (t : Tree) : List Tree :=
  t.find isAssignment

end Tree

end Scalarize
