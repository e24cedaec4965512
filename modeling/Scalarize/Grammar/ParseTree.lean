import Scalarize.Tree.Basic

/-!
# Scalarize — parse trees

A parse tree has the texts of the kept terminals as leaves and the names of the grammar rules as
inner nodes. A node around a single text becomes a leaf that holds the text; anywhere else a text
has no place.
-/

namespace Scalarize.Grammar

/-- What the grammar makes of a source text. -/
inductive ParseTree where
  | token (text : String)
  | branch (rule : String) (children : List ParseTree)
deriving Inhabited

/-- A text that is not the only child of its node. -/
structure NakedToken where
  text : String
deriving DecidableEq, Repr

namespace ParseTree

mutual

/-- The tree of a program or of one of its parts. -/
def toTree : ParseTree → Except NakedToken Tree
  | token text => .error ⟨text⟩
  | branch rule [token text] => .ok (.text rule text)
  | branch rule children => do
    let cs ← toTrees children
    return .node rule cs

/-- `toTree` on a list of parse trees; the first naked token is reported. -/
def toTrees : List ParseTree → Except NakedToken (List Tree)
  | [] => .ok []
  | t :: ts => do
    let c ← toTree t
    let cs ← toTrees ts
    return c :: cs

end

end ParseTree

end Scalarize.Grammar
