import Scalarize.Alias
import Scalarize.Lowering
import Scalarize.Output.Cylon
import Scalarize.Output.Layout
import Scalarize.Program.NamePool
import Scalarize.Program.Reduction

/-!
# Scalarize — the compiler

A source text is parsed, lowered, resolved, optimised and printed. Each optimisation can be switched
off, and the result is text, a Cylon document or the tree itself.
-/

namespace Scalarize

/-- What the compiler is asked to do. -/
structure Options where
  reduce : Bool
  eliminate : Bool
  shorten : Bool
  tree : Bool
  cylon : Bool

/-- All optimisations, and text. -/
def Options.default : Options :=
  ⟨true, true, true, false, false⟩

/-- What the compiler prints. -/
structure Product where
  text : String
  /-- The number of assignments that are too wide for a line. -/
  warnings : Nat

/-- Why there is no product. -/
inductive CompileError where
  | parse (e : Grammar.ReadError)
  | lowering (d : Diagnostic) (focus : String)
  | optimising (d : Diagnostic) (focus : String)
  /-- A fault is no matter for the author of the program. -/
  | fault (f : Fault)

/-- The message of an error. -/
def CompileError.message : CompileError → String
  | parse e => "Parse error: " ++ e.message
  | lowering d focus => "Transpilation error: " ++ d.message ++ "\n\n" ++ focus
  | optimising d focus => "Optimization error: " ++ d.message ++ "\n\n" ++ focus
  | fault f => f.message

/-- Lower a program in an empty environment and resolve its aliases. -/
def lowerAndResolve (files : FileStore) (program : Tree) : Traced Resolution := do
  let (env, chip) ← lowerProgram files .empty program
  Traced.lift (resolveAliases env chip)

/-- A result that may be a fault. -/
def Traced.orFault {α : Type} (x : Except Fault α) : Traced α :=
  match x with
  | .ok a => pure a
  | .error f => Traced.give f

/-- Optimise a resolved program. -/
def optimise (o : Options) (r : Resolution) : Traced Tree := do
  let t := r.program
  let t ← if o.reduce then t.reduce else pure t
  let t ← if o.eliminate then Traced.orFault (t.eliminateDead r.exported) else pure t
  if o.shorten then Traced.orFault (t.shortenNames r.imported r.exported) else pure t

/-- Print a chip program. -/
def print (o : Options) (t : Tree) : Except Fault Product :=
  if o.tree then .ok ⟨t.pretty 0, 0⟩
  else if o.cylon then do
    let s ← Cylon.text t
    return ⟨s, 0⟩
  else do
    let p ← Layout.page t
    return ⟨p.text, p.warnings⟩

/-- The outcome of a stage, as an outcome of the compiler. -/
def stageOutcome {α : Type} (report : Diagnostic → String → CompileError)
    (outcome : Except Failure α × Trace) : Except CompileError (α × Trace) :=
  match outcome with
  | (.ok a, trace) => .ok (a, trace)
  | (.error (.diagnostic d), trace) => .error (report d trace.report)
  | (.error (.fault f), _) => .error (.fault f)

/-- Compile a source text. -/
def compile (o : Options) (files : FileStore) (source : String) : Except CompileError Product := do
  let program ←
    match Grammar.readProgram source with
    | .ok t => .ok t
    | .error e => .error (.parse e)
  let (resolved, trace) ←
    stageOutcome .lowering ((lowerAndResolve files program).runFrom .start)
  let (chip, _) ← stageOutcome .optimising ((optimise o resolved).runFrom trace)
  match print o chip with
  | .ok p => .ok p
  | .error f => .error (.fault f)

end Scalarize
