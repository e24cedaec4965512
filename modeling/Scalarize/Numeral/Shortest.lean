import Scalarize.Numeral.FloatParts

/-!
# Scalarize — the fewest digits that read back

A double is written with the fewest decimal digits that still read back as the same double, and
with the nearest of those. The reals that read back as a double form an interval around it; for one
digit, two digits and so on, the two neighbours of the double on that decimal grid are tried.
-/

namespace Scalarize

/-- The decimal number `digits * 10 ^ exponent`. -/
structure Decimals where
  digits : Nat
  exponent : Int
deriving DecidableEq, Repr

/-- The reals that read back as a double, as fractions over one denominator. The ends belong to the
interval if the mantissa is even. -/
structure ReadInterval where
  low : Nat
  value : Nat
  high : Nat
  denominator : Nat
  closed : Bool

/-- The interval of a double that is not zero. Below a power of two the doubles lie closer. -/
def FloatParts.readInterval (d : FloatParts) : ReadInterval :=
  let up := Nat.pow 2 d.exponent.toNat
  let gap := if d.mantissa == Nat.pow 2 52 && d.exponent > -1074 then 1 else 2
  { low := (4 * d.mantissa - gap) * up
    value := 4 * d.mantissa * up
    high := (4 * d.mantissa + 2) * up
    denominator := 4 * d.denominator
    closed := d.mantissa % 2 == 0 }

namespace ReadInterval

/-- `n * 10 ^ e` as a fraction over `den`: both sides of a comparison with a numerator `m` over the
denominator of the interval. -/
def compareSides (i : ReadInterval) (n : Nat) (e : Int) (m : Nat) : Nat × Nat :=
  (n * Nat.pow 10 e.toNat * i.denominator, m * Nat.pow 10 (-e).toNat)

/-- Does `n * 10 ^ e` lie in the interval? -/
def holds (i : ReadInterval) (n : Nat) (e : Int) : Bool :=
  let (a, l) := i.compareSides n e i.low
  let (b, h) := i.compareSides n e i.high
  if i.closed then l ≤ a && b ≤ h else l < a && b < h

/-- The number of digits before the point, or minus the number of zeros right after it. -/
def magnitude (i : ReadInterval) : Int :=
  let whole := i.value / i.denominator
  if whole > 0 then
    (Nat.toDigits 10 whole).length
  else
    let k := (Nat.toDigits 10 (i.denominator / i.value)).length
    if i.value * Nat.pow 10 (k - 1) ≥ i.denominator then -((k : Int) - 2) else -((k : Int) - 1)

/-- The grid point with step `10 ^ e` that reads back and is nearest to the value, if one does. -/
def nearestOn? (i : ReadInterval) (e : Int) : Option Nat :=
  let num := i.value * Nat.pow 10 (-e).toNat
  let den := i.denominator * Nat.pow 10 e.toNat
  let below := num / den
  let nearest := roundHalfEven num den
  let other := if nearest == below then below + 1 else below
  if i.holds nearest e then some nearest
  else if i.holds other e then some other
  else none

/-- Try the grids of `tried + 1`, `tried + 2`, ... digits. -/
def search (i : ReadInterval) (top : Int) : Nat → Nat → Decimals
  | 0, tried => ⟨i.value / i.denominator, tried⟩
  | left + 1, tried =>
    let e := top - (tried + 1)
    match i.nearestOn? e with
    | some n => ⟨n, e⟩
    | none => i.search top left (tried + 1)

end ReadInterval

/-- Drop the zeros at the end of the digits. -/
def Decimals.normalize (fuel : Nat) (d : Decimals) : Decimals :=
  match fuel with
  | 0 => d
  | fuel + 1 =>
    if d.digits != 0 && d.digits % 10 == 0 then
      normalize fuel ⟨d.digits / 10, d.exponent + 1⟩
    else d

/-- The shortest decimal number that reads back as a double that is not zero: seventeen digits
always do. -/
def FloatParts.shortest (d : FloatParts) : Decimals :=
  let i := d.readInterval
  (i.search i.magnitude 17 0).normalize 20

/-- Zeros. -/
def zeros (n : Nat) : List Char :=
  List.replicate n '0'

/-- Digits with a point after the first `point` of them, at least one digit on either side. -/
def positional (ds : List Char) (point : Int) : List Char :=
  if point ≤ 0 then
    ['0', '.'] ++ zeros (-point).toNat ++ ds
  else if ds.length ≤ point.toNat then
    ds ++ zeros (point.toNat - ds.length) ++ ['.', '0']
  else
    ds.take point.toNat ++ ['.'] ++ ds.drop point.toNat

/-- Digits with a point after the first and an exponent of at least two digits. -/
def exponential (ds : List Char) (power : Int) : List Char :=
  let fraction := ds.drop 1
  let mantissa := if fraction.isEmpty then ds else ds.take 1 ++ ['.'] ++ fraction
  let es := Nat.toDigits 10 power.natAbs
  mantissa ++ ['e', if power < 0 then '-' else '+'] ++ zeros (2 - es.length) ++ es

/-- The text of a double: positional from `0.0001` up to `10 ^ 16`, with an exponent beyond. In
positional notation there is at least one digit after the point. -/
def floatText (x : Float) : String :=
  match FloatClass.of x with
  | .notANumber => "nan"
  | .infinite negative => if negative then "-inf" else "inf"
  | .finite d =>
    let sign := if d.negative then ['-'] else []
    if d.mantissa == 0 then
      String.ofList (sign ++ ['0', '.', '0'])
    else
      let s := d.shortest
      let ds := Nat.toDigits 10 s.digits
      let point : Int := ds.length + s.exponent
      let body :=
        if -4 < point && point ≤ 16 then positional ds point else exponential ds (point - 1)
      String.ofList (sign ++ body)

end Scalarize
