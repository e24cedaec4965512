/-!
# Scalarize — exact parts of a double

A finite double is `mantissa * 2 ^ exponent` with a sign. All number texts, roundings and remainders
are computed from these parts with exact arithmetic on natural numbers.
-/

namespace Scalarize

/-- The value `mantissa * 2 ^ exponent`, negated if `negative`; zero keeps its sign. -/
structure FloatParts where
  negative : Bool
  mantissa : Nat
  exponent : Int
deriving DecidableEq, Repr

/-- What a double stands for. -/
inductive FloatClass where
  | finite (d : FloatParts)
  | infinite (negative : Bool)
  | notANumber
deriving DecidableEq, Repr

/-- Take a double apart: eleven exponent bits above fifty-two mantissa bits, with the leading one of
a normal number left out. -/
def FloatClass.of (x : Float) : FloatClass :=
  let bits : Nat := x.toBits.toNat
  let negative := bits / Nat.pow 2 63 == 1
  let field : Nat := bits / Nat.pow 2 52 % Nat.pow 2 11
  let low : Nat := bits % Nat.pow 2 52
  if field == 2047 then
    if low == 0 then .infinite negative else .notANumber
  else if field == 0 then
    .finite ⟨negative, low, -1074⟩
  else
    .finite ⟨negative, Nat.pow 2 52 + low, (field : Int) - 1075⟩

/-- `num / den` rounded to a natural number, a half going to the even neighbour. -/
def roundHalfEven (num den : Nat) : Nat :=
  let q := num / den
  let r := num % den
  if 2 * r < den then q
  else if 2 * r == den then q + q % 2
  else q + 1

namespace FloatParts

/-- The magnitude as a fraction. -/
def numerator (d : FloatParts) : Nat :=
  d.mantissa * Nat.pow 2 d.exponent.toNat

/-- The denominator of the magnitude, a power of two. -/
def denominator (d : FloatParts) : Nat :=
  Nat.pow 2 (-d.exponent).toNat

/-- Is the value a whole number? -/
def isWhole (d : FloatParts) : Bool :=
  d.numerator % d.denominator == 0

/-- The value cut off after the point. -/
def truncate (d : FloatParts) : Int :=
  let n : Int := d.numerator / d.denominator
  if d.negative then -n else n

/-- The double with this sign and the magnitude `digits / 10 ^ places`, correctly rounded. -/
def floatOfDecimal (negative : Bool) (digits places : Nat) : Float :=
  let x := Float.ofScientific digits true places
  if negative then -x else x

/-- The double with this value. A power of two in the denominator is a power of five over a power of
ten, so the decimal reader can be used. -/
def toFloat (d : FloatParts) : Float :=
  let k := (-d.exponent).toNat
  floatOfDecimal d.negative (d.numerator * Nat.pow 5 k) k

/-- The magnitude of `a` modulo that of `b`, with the sign of `a`. -/
def remainder (a b : FloatParts) : FloatParts :=
  let e := min a.exponent b.exponent
  let m := a.mantissa * Nat.pow 2 (a.exponent - e).toNat
  let n := b.mantissa * Nat.pow 2 (b.exponent - e).toNat
  ⟨a.negative, m % n, e⟩

/-- The value rounded to `places` digits after the point, a half going to the even neighbour. -/
def roundTo (places : Nat) (d : FloatParts) : Float :=
  floatOfDecimal d.negative (roundHalfEven (d.numerator * Nat.pow 10 places) d.denominator) places

end FloatParts

end Scalarize
