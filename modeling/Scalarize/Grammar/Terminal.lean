import Scalarize.Text.Blank
import Scalarize.Text.Digit

/-!
# Scalarize — terminals of the source language

There is no separate division of the text into tokens: at each place, the terminals that the grammar
allows there are tried. A word matches letter by letter and needs no boundary after it. Any other
terminal takes the longest text of its shape and no shorter one.
-/

namespace Scalarize.Grammar

/-- What can stand at a place of the source text. -/
inductive Terminal where
  /-- A keyword or a sign. It leaves no trace in the parse tree. -/
  | word (text : String)
  | comment
  | literal
  | variableName
  | macroName
  | libraryName
  | externalName
deriving DecidableEq, Repr

/-- A capital letter or an underscore. -/
def isVariableChar (c : Char) : Bool :=
  c.isUpper || c == '_'

/-- A letter, a digit or an underscore. -/
def isNameChar (c : Char) : Bool :=
  c.isAlphanum || c == '_'

/-- A letter or an underscore. -/
def isNameStart (c : Char) : Bool :=
  c.isAlpha || c == '_'

/-- Split off the longest beginning of characters of a class; it must not be empty. -/
def takeSome (p : Char → Bool) (cs : List Char) : Option (List Char × List Char) :=
  match cs.takeWhile p with
  | [] => none
  | ds => some (ds, cs.dropWhile p)

/-- Split off one to four digits. -/
def takePlaces (cs : List Char) : Option (List Char × List Char) :=
  match (cs.take 4).takeWhile Text.isDigit with
  | [] => none
  | ds => some (ds, cs.drop ds.length)

/-- Split off an unsigned number: digits, and perhaps a point and one to four digits. -/
def takeUnsigned (cs : List Char) : Option (List Char × List Char) :=
  match takeSome Text.isDigit cs with
  | none => none
  | some (ds, '.' :: rest) =>
    match takePlaces rest with
    | some (places, rest) => some (ds ++ '.' :: places, rest)
    | none => some (ds, '.' :: rest)
  | some (ds, rest) => some (ds, rest)

/-- Split off a number. -/
def takeLiteral : List Char → Option (List Char × List Char)
  | '-' :: cs => (takeUnsigned cs).map fun (ds, rest) => ('-' :: ds, rest)
  | cs => takeUnsigned cs

/-- Split off a comment: two slashes and the rest of the line. -/
def takeComment : List Char → Option (List Char × List Char)
  | '/' :: '/' :: cs =>
    some ('/' :: '/' :: cs.takeWhile (· != '\n'), cs.dropWhile (· != '\n'))
  | _ => none

/-- Split off a name that does not start with a digit. -/
def takeExternal : List Char → Option (List Char × List Char)
  | c :: cs =>
    if isNameStart c then some (c :: cs.takeWhile isNameChar, cs.dropWhile isNameChar) else none
  | [] => none

/-- Split off a given text. -/
def takeWord (word cs : List Char) : Option (List Char × List Char) :=
  if word.isPrefixOf cs then some (word, cs.drop word.length) else none

namespace Terminal

/-- Match a terminal at the beginning of a text: the text it takes and the rest. -/
def take? : Terminal → List Char → Option (List Char × List Char)
  | word w, cs => takeWord w.toList cs
  | comment, cs => takeComment cs
  | literal, cs => takeLiteral cs
  | variableName, cs => takeSome isVariableChar cs
  | macroName, cs => takeSome isNameChar cs
  | libraryName, cs => takeSome isNameChar cs
  | externalName, cs => takeExternal cs

/-- Does the matched text stay in the parse tree? -/
def isKept : Terminal → Bool
  | word _ => false
  | _ => true

end Terminal

/-- Pass over the gap before a terminal. -/
def skipGap (cs : List Char) : List Char :=
  cs.dropWhile Text.isGap

end Scalarize.Grammar
