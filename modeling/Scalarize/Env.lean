import Scalarize.MacroDef
import Scalarize.Value.Basic

/-!
# Scalarize — environments

The environment holds what the statements so far have defined: variables with their values and
indices, macros, and the aliases under which a program talks to its surroundings. Everything is kept
in the order of definition.
-/

namespace Scalarize

/-- A variable of the source program. -/
structure Binding where
  name : String
  value : Value
  /-- The index of the variable among those of its sort. -/
  index : Nat

/-- What has been defined. -/
structure Env where
  /-- The index that the next variable of a sort gets. -/
  numNext : Nat
  vecNext : Nat
  matNext : Nat
  bindings : List Binding
  macros : List (String × MacroDef)
  /-- Names in the surroundings, each under the alias that the program uses for it. -/
  imports : List (String × String)
  /-- Variables of the program, each with the name under which the surroundings know it. -/
  exports : List (String × String)

namespace Env

/-- Nothing is defined. -/
def empty : Env :=
  ⟨0, 0, 0, [], [], [], []⟩

/-- The variable of a name. -/
def binding? (env : Env) (name : String) : Option Binding :=
  env.bindings.find? (·.name == name)

/-- The macro of a name. -/
def findMacro? (env : Env) (name : String) : Option MacroDef :=
  env.macros.lookup name

/-- The index that the next variable of a sort gets. -/
def nextIndex (env : Env) : ValueSort → Nat
  | .number => env.numNext
  | .vector => env.vecNext
  | .matrix => env.matNext

/-- Use up an index. -/
def skipIndex (env : Env) : ValueSort → Env
  | .number => { env with numNext := env.numNext + 1 }
  | .vector => { env with vecNext := env.vecNext + 1 }
  | .matrix => { env with matNext := env.matNext + 1 }

/-- Look a variable up. -/
def lookup (env : Env) (name : String) : Except Diagnostic Binding :=
  match env.binding? name with
  | some b => .ok b
  | none => .error (.undefinedVariable name)

/-- Look a macro up. -/
def lookupMacro (env : Env) (name : String) : Except Diagnostic MacroDef :=
  match env.findMacro? name with
  | some m => .ok m
  | none => .error (.undefinedMacro name)

/-- Define a variable: the new environment, and the statements that assign its components. -/
def bind (env : Env) (name : String) (value : Value) : Except Diagnostic (Env × List Tree) :=
  if (env.binding? name).isSome then .error (.variableExists name)
  else if (env.findMacro? name).isSome then .error (.nameClash name)
  else
    let index := env.nextIndex value.sort
    let (statements, names) := value.assign index
    let env := env.skipIndex value.sort
    .ok ({ env with bindings := env.bindings ++ [⟨name, names, index⟩] }, statements)

/-- Define a macro. -/
def define (env : Env) (name : String) (m : MacroDef) : Except Diagnostic Env :=
  if (env.findMacro? name).isSome then .error (.macroExists name)
  else if (env.binding? name).isSome then .error (.nameClash name)
  else .ok { env with macros := env.macros ++ [(name, m)] }

/-- The names in the surroundings that the imports stand for. -/
def importTargets (env : Env) : List String :=
  env.imports.map (·.2)

/-- The names in the surroundings under which variables are exported. -/
def exportTargets (env : Env) : List String :=
  env.exports.map (·.2)

/-- What an alias stands for. -/
def target (env : Env) (name : String) : Except Diagnostic String :=
  match env.imports.lookup name with
  | some t => .ok t
  | none =>
    match env.exports.lookup name with
    | some t => .ok t
    | none => .error (.undefinedAlias name)

/-- Import a name of the surroundings under an alias. -/
def addImport (env : Env) (name target : String) : Except Diagnostic Env :=
  if (env.imports.lookup name).isSome then .error (.importExists name)
  else if env.importTargets.contains target || env.exportTargets.contains target then
    .error (.importTargetTaken target)
  else .ok { env with imports := env.imports ++ [(name, target)] }

/-- Export a variable under a name of the surroundings. -/
def addExport (env : Env) (name target : String) : Except Diagnostic Env :=
  if (env.binding? name).isNone then .error (.exportUndefined name)
  else if (env.exports.lookup name).isSome then .error (.exportExists name)
  else if env.exportTargets.contains target || (env.imports.lookup target).isSome ||
      env.importTargets.contains target then
    .error (.exportTargetTaken target)
  else .ok { env with exports := env.exports ++ [(name, target)] }

end Env

end Scalarize
