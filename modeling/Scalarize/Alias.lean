import Scalarize.Env

/-!
# Scalarize — resolving aliases

The lowered program calls imported names by their aliases and exported variables by their generated
names. Resolution puts the names of the surroundings in their places: first one import after the
other, by the whole name, then one export after the other, by the beginning of the name.
-/

namespace Scalarize

/-- A resolved program with the names it shares with its surroundings. -/
structure Resolution where
  program : Tree
  imported : List String
  exported : List String

/-- A list with one more element, unless it is there already. -/
def insertNew (xs : List String) (x : String) : List String :=
  if xs.contains x then xs else xs ++ [x]

/-- Change the names of the variables of a tree. -/
def Tree.renameVariables (f : String → String) (t : Tree) : Tree :=
  t.mapVariables fun
    | some (.text s) => some (.text (f s))
    | v => v

namespace Resolution

/-- Resolve one import. -/
def resolveImport (r : Resolution) (handle target : String) : Resolution :=
  let used := r.program.variableNames.contains handle
  { r with
    program := r.program.renameVariables fun s => if s == handle then target else s
    imported := if used then insertNew r.imported target else r.imported }

/-- The name that an export gives to a variable, if the name starts with the exported stem. Each
occurrence of the stem is replaced. -/
def exportedName? (stem target s : String) : Option String :=
  if Text.startsWith stem s then some (Text.replaceString stem target s) else none

/-- Resolve the export of the variable with the given stem. -/
def resolveExport (r : Resolution) (stem target : String) : Resolution :=
  let names := r.program.variableNames.filterMap (exportedName? stem target)
  { r with
    program := r.program.renameVariables fun s => (exportedName? stem target s).getD s
    exported := names.foldl insertNew r.exported }

end Resolution

/-- Resolve the aliases of an environment in a program. -/
def resolveAliases (env : Env) (program : Tree) : Except Failure Resolution :=
  if program.kind != "program" then .error (.fault .wrongKind)
  else
    let imported := env.imports.foldl (fun r (handle, target) => r.resolveImport handle target)
      (⟨program, [], []⟩ : Resolution)
    env.exports.foldlM (fun r (handle, target) =>
      match env.lookup handle with
      | .ok b => .ok (r.resolveExport (stem b.value.sort b.index) target)
      | .error d => .error (.diagnostic d)) imported

end Scalarize
