import Scalarize.Decimal
import Scalarize.Form
import Scalarize.Tree.Render

/-!
# Scalarize — what can go wrong

A diagnostic tells the author of a source program what is wrong with it. A fault says that a tree
has not the shape that the grammar gives, or that a number cannot be computed; no message of the
compiler is meant for it.
-/

namespace Scalarize

/-- Something is wrong with the source program. -/
inductive Diagnostic where
  | undefinedVariable (name : String)
  | variableExists (name : String)
  /-- A variable and a macro would have the same name. -/
  | nameClash (name : String)
  | undefinedMacro (name : String)
  | macroExists (name : String)
  | undefinedAlias (name : String)
  | importExists (name : String)
  | importTargetTaken (target : String)
  | exportUndefined (name : String)
  | exportExists (name : String)
  | exportTargetTaken (target : String)
  | duplicateParameters
  | recursiveMacro
  | argumentCount (expected got : Nat)
  | argumentSort (expected : ValueSort) (kind : String)
  | lengthMismatch (op : String)
  | sizeMismatch (op : String)
  | raggedMatrix
  | productMismatch
  | elementOutOfRange (index : Int)
  | cellOutOfRange (row column : Int)
  | rowOutOfRange (index : Int)
  | columnOutOfRange (index : Int)
  | expressionSort (expected : ValueSort) (kind : String)
  | badElementIndex (text : String)
  | badCellIndices (row column : String)
  | badRowIndex (text : String)
  | badColumnIndex (text : String)
  | variableSort (name : String) (expected got : ValueSort)
  | macroSort (expected : ValueSort) (got : String)
  | libraryNotFound (name : String)
  | libraryAmbiguous (name : String) (paths : List String)
  | libraryUnreadable (name reason : String)
  | libraryUnparsed (name reason : String)
  | libraryStatement (name : String) (statement : Tree)
  /-- Two constants cannot be combined. -/
  | foldFailed

/-- A tree is malformed or a number cannot be computed. -/
inductive Fault where
  /-- A node has not the kind it must have. -/
  | wrongKind
  | emptyVector
  | emptyMatrix
  | missingChild
  | unexpectedStatement (kind : String)
  | unexpectedLet (kind : String)
  | unexpectedDefinition (kind : String)
  | unexpectedExpression (expr : Tree)
  | unknownOperator (kind : String)
  | decimal (e : DecimalError)
  /-- An infinite number has no whole part. -/
  | infiniteInteger
  /-- Macros expand without end. -/
  | endlessExpansion
  /-- The reduction of a program does not settle. -/
  | endlessReduction

/-- Why a stage of the compiler stops. -/
inductive Failure where
  | diagnostic (d : Diagnostic)
  | fault (f : Fault)

/-- The message of a diagnostic. -/
def Diagnostic.message : Diagnostic → String
  | undefinedVariable name => "undefined variable: " ++ name
  | variableExists name => "cannot redefine existing variable: " ++ name
  | nameClash name => "conflict between macro and variable: " ++ name
  | undefinedMacro name => "undefined macro: " ++ name
  | macroExists name => "cannot redefine existing macro: " ++ name
  | undefinedAlias name => "undefined alias: " ++ name
  | importExists name => "cannot redefine existing import: " ++ name
  | importTargetTaken target => "conflicting import target: " ++ target
  | exportUndefined name => "cannot export undefined variable: " ++ name
  | exportExists name => "cannot redefine existing export: " ++ name
  | exportTargetTaken target => "conflicting export target: " ++ target
  | duplicateParameters => "duplicate parameters"
  | recursiveMacro => "recursion is not allowed"
  | argumentCount expected got =>
    "expected " ++ toString expected ++ " arguments, but got " ++ toString got
  | argumentSort expected kind =>
    "expected argument to be " ++ expected.word ++ " expression, but got " ++ kind
  | lengthMismatch op => "cannot apply operation " ++ op ++ " to vectors of different lengths"
  | sizeMismatch op => "cannot apply operation " ++ op ++ " to matrices of different sizes"
  | raggedMatrix => "all vectors in a matrix must have the same length"
  | productMismatch => "cannot mulitply matrices with mismatching sizes"
  | elementOutOfRange index => "element index " ++ toString index ++ " is out of range"
  | cellOutOfRange row column =>
    "element indices " ++ toString row ++ ", " ++ toString column ++ " are out of range"
  | rowOutOfRange index => "row index " ++ toString index ++ " is out of range"
  | columnOutOfRange index => "column index " ++ toString index ++ " is out of range"
  | expressionSort expected kind => "expected " ++ expected.word ++ " expression, but got " ++ kind
  | badElementIndex text => "invalid element index: " ++ text
  | badCellIndices row column => "invalid element indices: " ++ row ++ ", " ++ column
  | badRowIndex text => "invald row index: " ++ text
  | badColumnIndex text => "invald column index: " ++ text
  | variableSort name expected got =>
    "expected variable " ++ name ++ " to be " ++ expected.word ++ ", but got " ++ got.word
  | macroSort expected got =>
    "expected macro to return " ++ expected.word ++ " expression, but got " ++ got ++ " expression"
  | libraryNotFound name => "library not found: " ++ name
  | libraryAmbiguous name paths =>
    "multiple files found for library " ++ name ++ ": " ++ Text.quoteList paths
  | libraryUnreadable name reason => "unable to load library " ++ name ++ ": " ++ reason
  | libraryUnparsed name reason => "failed to parse library " ++ name ++ ": " ++ reason
  | libraryStatement name statement =>
    "invalid statement in library " ++ name ++ ": " ++ statement.render
  | foldFailed => "failed to fold constants in binary expression"

/-- The message of a fault. -/
def Fault.message : Fault → String
  | wrongKind | emptyVector | emptyMatrix => ""
  | missingChild => "list index out of range"
  | unexpectedStatement kind => "unexpected statement kind: " ++ kind
  | unexpectedLet kind => "unexpected let kind: " ++ kind
  | unexpectedDefinition kind => "unexpected definition kind: " ++ kind
  | unexpectedExpression expr => "unexpected expression: " ++ expr.render
  | unknownOperator kind => Text.quote kind
  | decimal e => e.message
  | infiniteInteger => "cannot convert float infinity to integer"
  | endlessExpansion => "macros expand without end"
  | endlessReduction => "the reduction does not settle"

/-- The message of a failure. -/
def Failure.message : Failure → String
  | diagnostic d => d.message
  | fault f => f.message

instance : Coe Diagnostic Failure := ⟨.diagnostic⟩

instance : Coe Fault Failure := ⟨.fault⟩

end Scalarize
