import Scalarize.Command.Basic

/-!
# Scalarize — the command on files in memory

A disk holds files and directories by their paths, and a few devices. The command run on a disk is
a pure function of the arguments, the standard input and the disk.
-/

namespace Scalarize.Command

/-- Files and directories in memory. A directory has no text. -/
structure Disk where
  entries : List (String × Option String)
  stdin : String
  stdout : String
  /-- The paths that have been opened for writing. -/
  touched : List String

namespace Disk

/-- A path without the components that mean the directory itself. -/
def normalize (path : String) : String :=
  let absolute := Text.startsWith "/" path
  let parts := (path.splitOn "/").filter fun p => p != "" && p != "."
  (if absolute then "/" else "") ++ String.intercalate "/" parts

/-- The path of the directory that holds a file. -/
def parent (path : String) : String :=
  String.intercalate "/" (path.splitOn "/").dropLast

/-- Is the path that of a directory, or of one that leads to an entry? -/
def isDirectory (d : Disk) (path : String) : Bool :=
  path == "" || path == "/" || d.entries.lookup path == some none ||
    d.entries.any fun e => Text.startsWith (path ++ "/") e.1

/-- A system error, with its number and the path that it is about. -/
def systemError (number : Nat) (what path : String) : String :=
  "[Errno " ++ toString number ++ "] " ++ what ++ ": " ++ Text.quote path

/-- Why there is no file at a path where none is. -/
def missing (d : Disk) (path : String) : String :=
  match d.entries.lookup (parent (normalize path)) with
  | some (some _) => systemError 20 "Not a directory" path
  | _ => systemError 2 "No such file or directory" path

/-- A device that cannot be read. -/
def memoryDevice : String := "/proc/self/mem"

/-- A device that cannot be written. -/
def fullDevice : String := "/dev/full"

/-- A device that is empty and takes everything. -/
def nullDevice : String := "/dev/null"

/-- The devices. -/
def devices : List String :=
  [memoryDevice, fullDevice, nullDevice]

/-- The number of bytes that a full device takes before it is asked to store them. -/
def bufferSize : Nat := 8192

/-- Put a text at a path. -/
def put (d : Disk) (path text : String) : Disk :=
  { d with
    entries := (d.entries.filter fun e => e.1 != path) ++ [(path, some text)]
    touched := if d.touched.contains path then d.touched else d.touched ++ [path] }

/-- Why a file cannot be opened for reading. -/
def readRefusal? (d : Disk) (path : String) : Option String :=
  let p := normalize path
  if devices.contains p then none
  else if path != "" && d.isDirectory p then some (systemError 21 "Is a directory" path)
  else
    match d.entries.lookup p with
    | some (some _) => none
    | _ => some (d.missing path)

/-- Why a file cannot be opened for writing. -/
def writeRefusal? (d : Disk) (path : String) : Option String :=
  let p := normalize path
  if devices.contains p then none
  else if path == "" then some (d.missing path)
  else if d.isDirectory p then some (systemError 21 "Is a directory" path)
  else if d.isDirectory (parent p) then none
  else some (d.missing path)

/-- The text of a file that has been opened. -/
def textAt (d : Disk) (path : String) : Except String String :=
  let p := normalize path
  if p == memoryDevice then .error "[Errno 5] Input/output error"
  else
    match d.entries.lookup p with
    | some (some text) => .ok text
    | _ => .ok ""

/-- Write to a file that has been opened. -/
def writeAt (d : Disk) (path text : String) : Except String Disk :=
  let p := normalize path
  if p == fullDevice then
    if text.utf8ByteSize ≥ bufferSize then .error "[Errno 28] No space left on device" else .ok d
  else if devices.contains p then .ok d
  else .ok (d.put p text)

/-- A disk as a host. -/
def host : Host (StateM Disk) where
  openForReading path := do
    return (← get).readRefusal? path
  openForWriting path := do
    match (← get).writeRefusal? path with
    | some e => return some e
    | none =>
      unless devices.contains (normalize path) do
        modify fun d => d.put (normalize path) ""
      return none
  read
    | .standard => do
      return .ok (String.ofList (Library.lineFeeds (← get).stdin.toList))
    | .file path => do
      match (← get).textAt path with
      | .ok text => return .ok (String.ofList (Library.lineFeeds text.toList))
      | .error e => return .error e
  write
    | .standard, text => do
      modify fun d => { d with stdout := d.stdout ++ text }
      return .ok ()
    | .file path, text => do
      match (← get).writeAt path text with
      | .ok d => do
        set d
        return .ok ()
      | .error e => return .error e

end Disk

/-- The outcome of a command on a disk, and the disk afterwards. -/
def runOnDisk (files : FileStore) (args : List String) (d : Disk) : Outcome × Disk :=
  (run Disk.host files args).run d

/-- The files that differ from those of the disk before. -/
def Disk.changes (before after : Disk) : List (String × String) :=
  after.touched.filterMap fun path =>
    match after.entries.lookup path with
    | some (some text) =>
      if before.entries.lookup path == some (some text) then none else some (path, text)
    | _ => none

end Scalarize.Command
