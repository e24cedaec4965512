import Scalarize.Alias

/-!
# Scalarize — short names

Names that the surroundings do not see are replaced by short ones: `a` to `z`, then `aa`, `ab` and
so on, leaving out the names that are taken.
-/

namespace Scalarize

/-- The name with a given number, in letters that start at `first`: the shorter ones come before the
longer ones, and names of one length in alphabetical order. -/
def lettersOf (first : Char) (n : Nat) : List Char :=
  if n < 26 then [Char.ofNat (first.toNat + n)]
  else lettersOf first (n / 26 - 1) ++ [Char.ofNat (first.toNat + n % 26)]
termination_by n
decreasing_by omega

/-- The short name with a given number. -/
def shortName (n : Nat) : String :=
  String.ofList (lettersOf 'a' n)

/-- Names that are being given out. -/
structure NamePool where
  /-- The names that stay as they are and are not given out. -/
  taken : List String
  /-- The replacements made so far. -/
  replaced : List (String × String)
  /-- The number of the next short name. -/
  next : Nat

namespace NamePool

/-- Nothing has been given out. -/
def fresh (taken : List String) : NamePool :=
  ⟨taken, [], 0⟩

/-- Give out the next short name, taken or not. -/
def generate (p : NamePool) : String × NamePool :=
  (shortName p.next, { p with next := p.next + 1 })

/-- The number of the next short name that is not taken, looking at the given number of names. -/
def nextFree (taken : List String) : Nat → Nat → Nat
  | 0, n => n
  | tries + 1, n => if taken.contains (shortName n) then nextFree taken tries (n + 1) else n

/-- Replace a name. A taken name stays, and a name that comes again is replaced as before. -/
def replace (p : NamePool) (name : String) : String × NamePool :=
  if p.taken.contains name then (name, p)
  else
    match p.replaced.lookup name with
    | some new => (new, p)
    | none =>
      let n := nextFree p.taken p.taken.length p.next
      (shortName n, { p with replaced := (name, shortName n) :: p.replaced, next := n + 1 })

/-- The pool after replacing names one after the other. -/
def replaceAll (p : NamePool) (names : List String) : NamePool :=
  names.foldl (fun p name => (p.replace name).2) p

/-- The replacement that a pool has for a name. -/
def newName (p : NamePool) (name : String) : String :=
  if p.taken.contains name then name else (p.replaced.lookup name).getD name

end NamePool

/-- Give the variables of a program short names, except those shared with the surroundings. -/
def Tree.shortenNames (imported exported : List String) (program : Tree) : Except Fault Tree :=
  if program.kind != "program" then .error .wrongKind
  else
    let pool := (NamePool.fresh (imported ++ exported)).replaceAll program.variableNames
    .ok (program.renameVariables pool.newName)

end Scalarize
