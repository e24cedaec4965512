import Scalarize.Grammar.Chart

/-!
# Scalarize — parsing a source text

A text that has a derivation gives the tree of one. A text that has none gives the place where it
stops making sense.
-/

namespace Scalarize.Grammar

/-- Why a text is not a program. -/
inductive ParseError where
  /-- Nothing that is allowed here starts with this character. -/
  | unexpectedCharacter (c : Char) (line column : Nat)
  | unexpectedEnd
deriving DecidableEq, Repr

/-- The message of a parse error. -/
def ParseError.message : ParseError → String
  | unexpectedCharacter c line column =>
    "No terminal defined for '" ++ c.toString ++ "' at line " ++ toString line ++ " col " ++
      toString column
  | unexpectedEnd => "Unexpected end of input!"

/-- The line and the column of the character after the given ones, both counted from one. -/
def lineAndColumn (before : List Char) : Nat × Nat :=
  (before.count '\n' + 1, (before.reverse.takeWhile (· != '\n')).length + 1)

/-- The error at a place of a text. -/
def errorAt (cs : List Char) (place : Nat) : ParseError :=
  match cs[place]? with
  | some c =>
    let (line, column) := lineAndColumn (cs.take place)
    .unexpectedCharacter c line column
  | none => .unexpectedEnd

/-- Why a text gives no tree. -/
inductive ReadError where
  | parse (e : ParseError)
  | naked (t : NakedToken)
deriving DecidableEq, Repr

/-- The message of a text that gives no tree. -/
def ReadError.message : ReadError → String
  | parse e => e.message
  | naked t => "naked token: " ++ t.text

/-- The parse tree of a program. -/
def parse (source : String) : Except ParseError ParseTree :=
  let cs := source.toList
  let s := Subject.of cs
  let c := s.chart
  match (c.finished.getD (.program, s.origin) []).find? (·.1 == s.length) with
  | some (_, [t]) => .ok t
  | _ => .error (errorAt cs c.furthest)

/-- The tree of a program. -/
def readProgram (source : String) : Except ReadError Tree :=
  match parse source with
  | .error e => .error (.parse e)
  | .ok t =>
    match t.toTree with
    | .error n => .error (.naked n)
    | .ok t => .ok t

end Scalarize.Grammar
