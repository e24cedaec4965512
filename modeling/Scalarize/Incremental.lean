import Scalarize.Alias
import Scalarize.Lowering

/-!
# Scalarize — programs in parts

A program can be given in parts, each of which is lowered in the environment that the parts before
it have left. A part that fails leaves the environment as it was, except for one index: the first
variable that it defines takes its index from the environment it started with, if nothing else was
taken from it before, and does not give it back.
-/

namespace Scalarize

/-- What a part gives. -/
structure PartResult where
  env : Env
  program : Tree
  resolution : Resolution

/-- The environment that a part leaves behind if it fails. -/
def Env.afterFailure (env : Env) (t : Trace) : Env :=
  match t.spent with
  | some s => env.skipIndex s
  | none => env

/-- Lower a part and resolve its aliases. -/
def lowerPart (files : FileStore) (env : Env) (program : Tree) : Traced PartResult := do
  let (env, chip) ← lowerProgram files env program
  let r ← Traced.lift (resolveAliases env chip)
  return ⟨env, chip, r⟩

/-- Lower a part after others: its result, and the environment for the next part. Before a part has
succeeded there is none. -/
def continueWith (files : FileStore) (prior : Option Env) (program : Tree) :
    Except Failure PartResult × Option Env :=
  match (lowerPart files (prior.getD .empty) program).runFrom .start with
  | (.ok r, _) => (.ok r, some r.env)
  | (.error f, trace) => (.error f, prior.map (·.afterFailure trace))

end Scalarize
