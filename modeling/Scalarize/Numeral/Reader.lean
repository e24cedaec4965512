import Scalarize.Numeral.FloatParts
import Scalarize.Text.Blank
import Scalarize.Text.Digit

/-!
# Scalarize — reading number texts

A number text may have blanks around it, a sign, the digits of any script and single underscores
between digits. A whole number is digits alone; a real number may have a point and an exponent, or
be one of the words for infinity and for what is no number.
-/

namespace Scalarize

/-- The same text with ASCII digits. -/
def asciiDigits (cs : List Char) : List Char :=
  cs.map fun c =>
    match Text.digitValue? c with
    | some d => Char.ofNat (0x30 + d)
    | none => c

/-- Drop the underscores; each must stand between two digits. The first argument says whether the
character before is a digit. -/
def dropUnderscores : Bool → List Char → Option (List Char)
  | _, [] => some []
  | after, '_' :: cs =>
    match after, cs with
    | true, d :: _ => if d.isDigit then dropUnderscores false cs else none
    | _, _ => none
  | _, c :: cs => (dropUnderscores c.isDigit cs).map (c :: ·)

/-- The value of a list of ASCII digits. -/
def digitsValue (ds : List Char) : Nat :=
  ds.foldl (fun n d => 10 * n + (d.toNat - 0x30)) 0

/-- Split off the sign: `true` for a minus. -/
def splitSign : List Char → Bool × List Char
  | '-' :: cs => (true, cs)
  | '+' :: cs => (false, cs)
  | cs => (false, cs)

/-- The plain form of a number text: trimmed, in ASCII digits, without underscores. -/
def plainNumber (s : String) : Option (List Char) :=
  dropUnderscores false (asciiDigits (Text.trimBy Text.isNumberBlank s.toList))

/-- Read a whole number. -/
def readInt? (s : String) : Option Int := do
  let (negative, ds) := splitSign (← plainNumber s)
  if ds.isEmpty || !ds.all Char.isDigit then none
  else some (if negative then -(digitsValue ds : Int) else digitsValue ds)

/-- Read the exponent of a real number: nothing, or `e`, a sign and digits. -/
def readExponent? : List Char → Option Int
  | [] => some 0
  | c :: cs =>
    let (negative, ds) := splitSign cs
    if (c == 'e' || c == 'E') && !ds.isEmpty && ds.all Char.isDigit then
      some (if negative then -(digitsValue ds : Int) else digitsValue ds)
    else none

/-- The double nearest to `digits * 10 ^ exponent`. Beyond four hundred decimal places on either
side there are only infinity and zero. -/
def scientific (digits : Nat) (exponent : Int) : Float :=
  let size : Int := (Nat.toDigits 10 digits).length + exponent
  if digits == 0 || size < -400 then 0.0
  else if size > 400 then 1.0 / 0.0
  else if exponent < 0 then Float.ofScientific digits true exponent.natAbs
  else Float.ofScientific (digits * Nat.pow 10 exponent.natAbs) false 0

/-- Read an unsigned real number. -/
def readMagnitude? (cs : List Char) : Option Float := do
  let word := String.ofList (cs.map Char.toLower)
  if word == "inf" || word == "infinity" then some (1.0 / 0.0)
  else if word == "nan" then some (0.0 / 0.0)
  else
    let whole := cs.takeWhile Char.isDigit
    let rest := cs.dropWhile Char.isDigit
    let (fraction, tail) :=
      match rest with
      | '.' :: more => (more.takeWhile Char.isDigit, more.dropWhile Char.isDigit)
      | _ => ([], rest)
    if whole.isEmpty && fraction.isEmpty then none
    else
      let e ← readExponent? tail
      some (scientific (digitsValue (whole ++ fraction)) (e - fraction.length))

/-- Read a real number. -/
def readFloat? (s : String) : Option Float := do
  let (negative, cs) := splitSign (← plainNumber s)
  let x ← readMagnitude? cs
  some (if negative then -x else x)

/-- The double nearest to a whole number, or `none` if it lies beyond the largest one. -/
def floatOfInt? (n : Int) : Option Float :=
  let x := scientific n.natAbs 0
  match FloatClass.of x with
  | .finite _ => some (if n < 0 then -x else x)
  | _ => none

end Scalarize
