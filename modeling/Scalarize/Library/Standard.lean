import Scalarize.Library.Basic

/-!
# Scalarize — the libraries that come with the compiler
-/

namespace Scalarize.Library

/-- Reciprocals of the trigonometric functions. -/
def trig : StoredFile :=
  ⟨"libraries/trig.lib.yovec", some
    "// Reciprocal trig functions
define csc (number A) -> number = 1 / sin A
define sec (number A) -> number = 1 / cos A
define cot (number A) -> number = 1 / tan A
define arccsc (number A) -> number = 1 / arcsin A
define arcsec (number A) -> number = 1 / arccos A
define arccot (number A) -> number = 1 / arctan A
"⟩

/-- Functions of vectors. -/
def vectors : StoredFile :=
  ⟨"libraries/vectors.lib.yovec", some
    "// Calculate the magnitude of a vector
define mag (vector V) -> number = sqrt (reduce + (map ^2 V))
"⟩

/-- All of them. -/
def standard : FileStore :=
  [trig, vectors]

end Scalarize.Library
