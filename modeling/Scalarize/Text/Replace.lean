/-!
# Scalarize — replacing parts of a text

Texts are lists of characters here, so that every function is plain recursion on the list.
-/

namespace Scalarize.Text

/-- Replace every occurrence of `old` by `new`, from left to right and without overlaps. The first
argument counts the characters of a match that are still to be passed over. -/
def replaceFrom (old new : List Char) : Nat → List Char → List Char
  | _, [] => []
  | n + 1, _ :: cs => replaceFrom old new n cs
  | 0, c :: cs =>
    if old.isPrefixOf (c :: cs) then
      new ++ replaceFrom old new (old.length - 1) cs
    else
      c :: replaceFrom old new 0 cs

/-- Replace every occurrence of `old`, which is not empty, by `new`. -/
def replaceAll (old new cs : List Char) : List Char :=
  replaceFrom old new 0 cs

/-- `replaceAll` on strings. -/
def replaceString (old new s : String) : String :=
  String.ofList (replaceAll old.toList new.toList s.toList)

/-- Does the text start with the given one? -/
def startsWith (start s : String) : Bool :=
  start.toList.isPrefixOf s.toList

/-- Does the text end with the given one? -/
def endsWith (stop s : String) : Bool :=
  stop.toList.isSuffixOf s.toList

end Scalarize.Text
