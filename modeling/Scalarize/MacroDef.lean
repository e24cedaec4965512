import Scalarize.Failure

/-!
# Scalarize — macros

A macro is an expression with parameters. A call puts the arguments, as they are written, in the
places of the parameters. This happens below the root of the body only: a body that is nothing but a
parameter stays as it is.
-/

namespace Scalarize

/-- A parameter of a macro. The sort is checked against the arguments if it is given. -/
structure Param where
  sort : Option String
  name : String

/-- A macro. -/
structure MacroDef where
  params : List Param
  returns : String
  body : Tree

namespace Tree

mutual

/-- Put trees in the places of variables; a variable without one stays. -/
def substitute (σ : String → Option Tree) : Tree → Tree
  | leaf k v => if k == "variable" then (σ (valueText v)).getD (leaf k v) else leaf k v
  | branch k v cs =>
    if k == "variable" then (σ (valueText v)).getD (branch k v cs)
    else branch k v (substituteAll σ cs)

/-- `substitute` on a list of trees. -/
def substituteAll (σ : String → Option Tree) : List Tree → List Tree
  | [] => []
  | t :: ts => substitute σ t :: substituteAll σ ts

end

/-- Put trees in the places of the variables below the root. -/
def substituteBelow (σ : String → Option Tree) (t : Tree) : Tree :=
  t.setChildren (substituteAll σ t.children)

/-- The macro calls in a tree, a node before its children. -/
def calls (t : Tree) : List Tree :=
  t.find (·.kind == "call")

/-- The name of the macro that a call names. -/
def calledName (t : Tree) : String :=
  match t.children with
  | m :: _ => m.name
  | [] => valueText none

end Tree

namespace MacroDef

/-- The names of the parameters. -/
def paramNames (m : MacroDef) : List String :=
  m.params.map (·.name)

/-- The number of parameters. -/
def arity (m : MacroDef) : Nat :=
  m.params.length

/-- Check a macro that is to have the given name: parameters must differ, the body may use no other
variables, and it may not call the macro itself. -/
def check (name : String) (m : MacroDef) : Except Diagnostic MacroDef :=
  if ¬ m.paramNames.Nodup then .error .duplicateParameters
  else
    match m.body.variableNames.find? (!m.paramNames.contains ·) with
    | some x => .error (.undefinedVariable x)
    | none =>
      if m.body.calls.any (·.calledName == name) then .error .recursiveMacro else .ok m

/-- Check an argument against the sort of its parameter. -/
def checkArg (p : Param) (arg : Tree) : Except Diagnostic Unit :=
  match p.sort.bind ValueSort.ofWord? with
  | some s => if s.admits arg.kind then .ok () else .error (.argumentSort s arg.kind)
  | none => .ok ()

/-- Check the arguments one after the other. -/
def checkArgs : List Param → List Tree → Except Diagnostic Unit
  | p :: ps, a :: as => do
    checkArg p a
    checkArgs ps as
  | _, _ => .ok ()

/-- The argument for a parameter. -/
def binding (m : MacroDef) (args : List Tree) (name : String) : Option Tree :=
  (m.paramNames.zip args).lookup name

/-- Call a macro: the body with the arguments in the places of the parameters. -/
def call (m : MacroDef) (args : List Tree) : Except Diagnostic Tree :=
  if args.length ≠ m.arity then .error (.argumentCount m.arity args.length)
  else do
    checkArgs m.params args
    return m.body.substituteBelow (m.binding args)

end MacroDef

end Scalarize
