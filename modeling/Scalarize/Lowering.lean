import Scalarize.Expression
import Scalarize.Library.Basic
import Scalarize.Text.Lowercase

/-!
# Scalarize — lowering programs

A program is lowered statement by statement. Each `let` gives one line of the chip program, with one
assignment for each component of the value; all other statements only change the environment.
-/

namespace Scalarize

open Traced

/-- The environment that the compilation started with has been left behind. -/
def leaveStart : Traced Unit :=
  modifyThe Trace fun t => { t with moved := true }

/-- A variable of the given sort takes its index. The environment that the compilation started with
loses the index if nothing else has been taken from it before. -/
def takeIndex (s : ValueSort) : Traced Unit :=
  modifyThe Trace fun t => if t.moved then t else { t with spent := some s, moved := true }

/-- Import one name. -/
def lowerImport (env : Env) (t : Tree) : Traced Env := do
  enterStatement t
  if t.kind != "import" then give .wrongKind
  else
    match t.children with
    | target :: rest => do
      let target := Text.lower target.name
      let handle :=
        match rest with
        | [a] => Text.lower a.name
        | _ => target
      let env ← check (env.addImport handle target)
      leaveStart
      return env
    | [] => give .missingChild

/-- Import the names of a group. -/
def lowerImportGroup (env : Env) (t : Tree) : Traced Env := do
  enterStatement t
  t.children.foldlM lowerImport env

/-- Export a variable. -/
def lowerExport (env : Env) (t : Tree) : Traced Env := do
  enterStatement t
  match t.children with
  | source :: rest => do
    let target :=
      match rest with
      | [a] => Text.lower a.name
      | _ => Text.lower source.name
    let env ← check (env.addExport source.name target)
    leaveStart
    return env
  | [] => give .missingChild

/-- The value that a `let` of the given kind gives its variable. -/
def letValue (env : Env) (kind : String) (expr : Tree) : Traced Value :=
  if kind == "let_num" then do
    let x ← evalNumber env expr
    return .number x
  else if kind == "let_vec" then do
    let v ← evalVector env expr
    return .vector v
  else if kind == "let_mat" then do
    let m ← evalMatrix env expr
    return .matrix m
  else give (.unexpectedLet kind)

/-- Define a variable: the new environment and the line of the chip program. -/
def lowerLet (env : Env) (t : Tree) : Traced (Env × Tree) := do
  enterStatement t
  match t.children with
  | variableRef :: expr :: _ => do
    let value ← letValue env t.kind expr
    let (env, assignments) ← check (env.bind variableRef.name value)
    takeIndex value.sort
    return (env, .node "line" assignments)
  | _ => give .missingChild

/-- The sort that a definition of the given kind says its macro has. -/
def definedSort? (kind : String) : Option ValueSort :=
  if kind == "def_num" then some .number
  else if kind == "def_vec" then some .vector
  else if kind == "def_mat" then some .matrix
  else none

/-- A parameter of a definition. -/
def paramOf (t : Tree) : Except Fault Param :=
  match t.children with
  | sort :: name :: _ => .ok ⟨sort.value.map Scalar.render, name.name⟩
  | _ => .error .missingChild

/-- Define a macro. -/
def lowerDefine (env : Env) (t : Tree) : Traced Env := do
  enterStatement t
  match t.children with
  | name :: params :: body :: _ =>
    match definedSort? t.kind with
    | none => give (.unexpectedDefinition t.kind)
    | some s =>
      match params.children.mapM paramOf with
      | .error f => give f
      | .ok params => do
        let m ← check (MacroDef.check name.name ⟨params, s.word, body⟩)
        let env ← check (env.define name.name m)
        leaveStart
        return env
  | _ => give .missingChild

/-- Define the macros of a library. -/
def lowerUsing (files : FileStore) (env : Env) (t : Tree) : Traced Env := do
  enterStatement t
  match t.children with
  | library :: _ => do
    let definitions ← lift (Library.load files library.name)
    definitions.foldlM lowerDefine env
  | [] => give .missingChild

/-- Lower a statement: the new environment, and a line of the chip program if there is one. -/
def lowerStatement (files : FileStore) (env : Env) (t : Tree) : Traced (Env × Option Tree) :=
  if t.kind == "import_group" then do
    let env ← lowerImportGroup env t
    return (env, none)
  else if t.kind == "export" then do
    let env ← lowerExport env t
    return (env, none)
  else if Text.startsWith "let" t.kind then do
    let (env, line) ← lowerLet env t
    return (env, some line)
  else if Text.startsWith "def" t.kind then do
    let env ← lowerDefine env t
    return (env, none)
  else if t.kind == "using" then do
    let env ← lowerUsing files env t
    return (env, none)
  else if t.kind == "comment" then
    return (env, none)
  else give (.unexpectedStatement t.kind)

/-- Lower statements one after the other: the last environment and the lines of the chip program. -/
def lowerStatements (files : FileStore) : Env → List Tree → Traced (Env × List Tree)
  | env, [] => return (env, [])
  | env, t :: ts => do
    let (env, line) ← lowerStatement files env t
    let (env, lines) ← lowerStatements files env ts
    return (env, line.toList ++ lines)

/-- The chip program with the given lines; without lines it is a leaf. -/
def chipProgram : List Tree → Tree
  | [] => .leaf "program" none
  | lines => .node "program" lines

/-- Lower a program in an environment: the environment it leaves and the chip program. -/
def lowerProgram (files : FileStore) (env : Env) (program : Tree) : Traced (Env × Tree) :=
  if program.kind != "program" then give .wrongKind
  else
    match Library.statements program with
    | .error f => give f
    | .ok statements => do
      let (env, lines) ← lowerStatements files env statements
      return (env, chipProgram lines)

end Scalarize
