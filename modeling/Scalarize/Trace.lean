import Scalarize.Failure

/-!
# Scalarize — where a compilation stands

While the compiler works it keeps in mind which statement and which expression it has come to. An
error is reported together with this focus, so computations here return their trace even if they
fail. The focus is set when a statement or an expression is entered and is not set back when it is
left.
-/

namespace Scalarize

/-- What a compilation has come to. -/
structure Trace where
  statement : Option Tree
  expression : Option Tree
  /-- The sort of the first variable that was defined, if its index was the first thing taken from
  the environment that the compilation started with. -/
  spent : Option ValueSort
  /-- Has the compilation left behind the environment that it started with? -/
  moved : Bool

namespace Trace

/-- Nothing has been entered. -/
def start : Trace :=
  ⟨none, none, none, false⟩

/-- The report of the focus. -/
def report (t : Trace) : String :=
  let part (title : String) : Option Tree → String
    | some tree => title ++ ":\n\n" ++ tree.pretty 0 ++ "\n"
    | none => ""
  part "In statement" t.statement ++ part "With expression" t.expression

end Trace

/-- A computation that may fail and leaves its trace in any case. -/
abbrev Traced := ExceptT Failure (StateM Trace)

namespace Traced

/-- Run a computation. -/
def runFrom {α : Type} (t : Trace) (x : Traced α) : Except Failure α × Trace :=
  (ExceptT.run x).run t

/-- Enter a statement. -/
def enterStatement (statement : Tree) : Traced Unit :=
  modifyThe Trace fun t => { t with statement := some statement, expression := none }

/-- Enter an expression. -/
def enterExpression (expression : Tree) : Traced Unit :=
  modifyThe Trace fun t => { t with expression := some expression }

/-- Stop with a diagnostic. -/
def reject {α : Type} (d : Diagnostic) : Traced α :=
  throw (.diagnostic d)

/-- Stop with a fault. -/
def give {α : Type} (f : Fault) : Traced α :=
  throw (.fault f)

/-- A result that may be a diagnostic. -/
def check {α : Type} (x : Except Diagnostic α) : Traced α :=
  match x with
  | .ok a => pure a
  | .error d => reject d

/-- A result that may be a failure. -/
def lift {α : Type} (x : Except Failure α) : Traced α :=
  match x with
  | .ok a => pure a
  | .error f => throw f

end Traced

end Scalarize
