import Scalarize.Command.Disk

/-!
# Scalarize — the program

The command line on the files of the system.
-/

namespace Scalarize.Command

/-- The message of a system error, with the path that it is about. -/
def errorText (path : Option String) (e : IO.Error) : String :=
  let (number, what) : Nat × String :=
    match e with
    | .noFileOrDirectory _ code details => (code.toNat, details)
    | .permissionDenied _ code details => (code.toNat, details)
    | .inappropriateType _ code details => (code.toNat, details)
    | .invalidArgument _ code details => (code.toNat, details)
    | .resourceExhausted _ code details => (code.toNat, details)
    | .hardwareFault code details => (code.toNat, details)
    | .otherError code details => (code.toNat, details)
    | e => (0, toString e)
  match path with
  | some p => Disk.systemError number what p
  | none => "[Errno " ++ toString number ++ "] " ++ what

/-- Do something and tell why it fails. -/
def attempt {α : Type} (path : Option String) (act : IO α) : IO (Except String α) := do
  try
    return .ok (← act)
  catch e => return .error (errorText path e)

/-- Why a file cannot be opened in the given mode. -/
def openRefusal? (path : String) (mode : IO.FS.Mode) : IO (Option String) := do
  match ← attempt (some path) (IO.FS.Handle.mk path mode) with
  | .ok _ => return none
  | .error e => return some e

/-- A text as it is read: each end of line is a line feed. -/
def readText (act : IO String) : IO String := do
  return String.ofList (Library.lineFeeds (← act).toList)

/-- The files of the system as a host. -/
def systemHost : Host IO where
  openForReading path := openRefusal? path .read
  openForWriting path := openRefusal? path .write
  read
    | .standard => do attempt none (readText (← IO.getStdin).readToEnd)
    | .file path => attempt none (readText (IO.FS.readFile path))
  write
    | .standard, text => attempt none (IO.print text)
    | .file path, text => attempt none (IO.FS.writeFile path text)

end Scalarize.Command

/-- Run the command. -/
def main (args : List String) : IO UInt32 := do
  let outcome ← Scalarize.Command.run Scalarize.Command.systemHost Scalarize.Library.standard args
  IO.print outcome.stdout
  IO.eprint outcome.stderr
  return outcome.exit.toUInt32
