import Scalarize.Failure
import Scalarize.Grammar.Parse
import Scalarize.Text.Replace

/-!
# Scalarize — libraries

A library is a file of macro definitions, found by its name anywhere below the library root. It may
hold comments, and no other statements.
-/

namespace Scalarize

/-- A file or a directory below the library root. -/
structure StoredFile where
  path : String
  /-- The text of a file; a directory has none. -/
  text : Option String

/-- The files below the library root. -/
abbrev FileStore := List StoredFile

namespace Library

/-- The last component of a path. -/
def baseName (path : String) : String :=
  String.ofList (path.toList.reverse.takeWhile (· != '/')).reverse

/-- The name of the file of a library. -/
def fileName (library : String) : String :=
  library ++ ".lib.yovec"

/-- The paths of the directories that lead to a file, the outermost first. The first argument holds
the characters passed so far, the last one first. -/
def parentsFrom (passed : List Char) : List Char → List String
  | [] => []
  | '/' :: cs => String.ofList passed.reverse :: parentsFrom ('/' :: passed) cs
  | c :: cs => parentsFrom (c :: passed) cs

/-- All files and directories, those that only lead to others included. -/
def withParents (files : FileStore) : FileStore :=
  let known := files.map (·.path)
  let parents := (files.flatMap fun f => parentsFrom [] f.path.toList).eraseDups
  files ++ (parents.filter (!known.contains ·)).map fun path => ⟨path, none⟩

/-- The files and directories that could be the library. -/
def candidates (files : FileStore) (library : String) : FileStore :=
  (withParents files).filter fun f => baseName f.path == fileName library

/-- Text with every line end written as a line feed. -/
def lineFeeds : List Char → List Char
  | '\r' :: '\n' :: cs => '\n' :: lineFeeds cs
  | '\r' :: cs => '\n' :: lineFeeds cs
  | c :: cs => c :: lineFeeds cs
  | [] => []

/-- Read the text of a library file. -/
def readText (library : String) (file : StoredFile) : Except Diagnostic String :=
  match file.text with
  | some text => .ok (String.ofList (lineFeeds text.toList))
  | none =>
    .error (.libraryUnreadable library ("[Errno 21] Is a directory: " ++ Text.quote file.path))

/-- The definitions among statements; there may be comments and nothing else beside them. -/
def definitions (library : String) : List Tree → Except Diagnostic (List Tree)
  | [] => .ok []
  | s :: rest =>
    if s.kind == "comment" then definitions library rest
    else if Text.startsWith "def_" s.kind then do
      let ds ← definitions library rest
      return s :: ds
    else .error (.libraryStatement library s)

/-- The statement of each line of a program. -/
def statements (program : Tree) : Except Fault (List Tree) :=
  program.children.mapM fun line =>
    match line.children with
    | s :: _ => .ok s
    | [] => .error .missingChild

/-- Load the definitions of a library. -/
def load (files : FileStore) (library : String) : Except Failure (List Tree) :=
  match candidates files library with
  | [] => .error (.diagnostic (.libraryNotFound library))
  | [file] =>
    match readText library file with
    | .error d => .error (.diagnostic d)
    | .ok text =>
      match Grammar.readProgram text with
      | .error e => .error (.diagnostic (.libraryUnparsed library e.message))
      | .ok program =>
        match statements program with
        | .error f => .error (.fault f)
        | .ok ss =>
          match definitions library ss with
          | .error d => .error (.diagnostic d)
          | .ok ds => .ok ds
  | several =>
    .error (.diagnostic (.libraryAmbiguous library
      ((several.map (·.path)).mergeSort (fun a b => decide (a ≤ b)))))

end Library

end Scalarize
