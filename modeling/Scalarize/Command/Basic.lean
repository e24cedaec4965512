import Scalarize.Compile
import Scalarize.Library.Standard

/-!
# Scalarize — the command line

The command line reads a source text from a file or from the standard input, compiles it and writes
the result to a file or to the standard output. What it needs of the system is given as a host, so
that the command runs in any monad.
-/

namespace Scalarize.Command

/-- The version that is reported. -/
def version : String := "3.0.0"

/-- The name that the command goes by in its messages. -/
def commandName : String := "yovec.py"

/-- What the options are. -/
inductive OptionName where
  | help | input | output | ast | cylon | debug | noElim | noMangle | noReduce | version
deriving DecidableEq, Repr

/-- How the options are spelled. -/
def spellings : List (String × OptionName) :=
  [("-h", .help), ("--help", .help), ("-i", .input), ("-o", .output), ("--ast", .ast),
    ("--cylon", .cylon), ("--debug", .debug), ("--no-elim", .noElim), ("--no-mangle", .noMangle),
    ("--no-reduce", .noReduce), ("--version", .version)]

/-- Does the option take a value? -/
def OptionName.takesValue : OptionName → Bool
  | input | output => true
  | _ => false

/-- The name of an option in messages, with all its spellings. -/
def OptionName.label (o : OptionName) : String :=
  String.intercalate "/" ((spellings.filter fun e => e.2 == o).map (·.1))

/-- An option as it is found on the command line. -/
structure Found where
  spelling : String
  option : OptionName
  /-- A value that is attached to the option. -/
  attached : Option String

/-- What an argument can be. -/
inductive Argument where
  | plain
  | option (f : Found)
  | unknown
  | ambiguous (meanings : List String)

/-- Split a text at the first equals sign. -/
def splitEquals (s : String) : String × Option String :=
  let cs := s.toList
  let name := cs.takeWhile (· != '=')
  match cs.drop name.length with
  | _ :: value => (String.ofList name, some (String.ofList value))
  | [] => (s, none)

/-- The options that an argument may stand for. A long option may be cut short, and a short one may
have its value attached. -/
def candidates (s : String) : List Found :=
  if Text.startsWith "--" s then
    let (name, value) := splitEquals s
    (spellings.filter fun e => Text.startsWith name e.1).map fun e => ⟨e.1, e.2, value⟩
  else
    let short := String.ofList (s.toList.take 2)
    spellings.filterMap fun e =>
      if e.1 == short then some ⟨e.1, e.2, some (String.ofList (s.toList.drop 2))⟩
      else if Text.startsWith s e.1 then some ⟨e.1, e.2, none⟩
      else none

/-- Is the text a minus and digits, perhaps with a point before or among them? -/
def isNegativeNumber (s : String) : Bool :=
  match s.toList with
  | '-' :: cs =>
    let rest := cs.dropWhile Text.isDigit
    match rest with
    | [] => !cs.isEmpty
    | '.' :: fraction => !fraction.isEmpty && fraction.all Text.isDigit
    | _ => false
  | _ => false

/-- Tell what an argument is. -/
def classify (s : String) : Argument :=
  if !Text.startsWith "-" s then .plain
  else
    match spellings.lookup s with
    | some o => .option ⟨s, o, none⟩
    | none =>
      if s.length == 1 then .plain
      else
        let (name, value) := splitEquals s
        match spellings.lookup name, value with
        | some o, some v => .option ⟨name, o, some v⟩
        | _, _ =>
          match candidates s with
          | [f] => .option f
          | f :: g :: more => .ambiguous ((f :: g :: more).map (·.spelling))
          | [] =>
            if isNegativeNumber s || s.toList.contains ' ' then .plain else .unknown

/-- The arguments with what they are; after a double dash all are plain. -/
def classifyAll : List String → List (String × Argument)
  | [] => []
  | s :: rest =>
    if s == "--" then (s, .unknown) :: rest.map fun s => (s, .plain)
    else (s, classify s) :: classifyAll rest

/-- Where a text is read from or written to. -/
inductive Channel where
  | standard
  | file (path : String)
deriving DecidableEq, Repr

/-- What the command line asks for. -/
structure Request where
  source : Channel
  sink : Channel
  options : Options
  debug : Bool
  version : Bool
  /-- Arguments that mean nothing. -/
  extras : List String

/-- Nothing in particular. -/
def Request.default : Request :=
  ⟨.standard, .standard, .default, false, false, []⟩

/-- What the command needs of the system. The texts are error messages. -/
structure Host (m : Type → Type) where
  /-- Open a file for reading; the answer says why it cannot be. -/
  openForReading : String → m (Option String)
  /-- Open a file for writing, which empties it; the answer says why it cannot be. -/
  openForWriting : String → m (Option String)
  read : Channel → m (Except String String)
  write : Channel → String → m (Except String Unit)

/-- How the command ends. -/
structure Outcome where
  exit : Nat
  /-- What goes to the standard output, apart from the result. -/
  stdout : String
  stderr : String
  /-- Have the messages been asked for in detail? -/
  debug : Bool

/-- The command line is wrong. -/
def usageError (message : String) : Outcome :=
  ⟨2, "", commandName ++ ": error: " ++ message ++ "\n", false⟩

/-- An option is used in a wrong way. -/
def optionError (o : OptionName) (message : String) : Outcome :=
  usageError ("argument " ++ o.label ++ ": " ++ message)

/-- An option without a value has been given one. -/
def ignoredValue (o : OptionName) (value : String) : Outcome :=
  optionError o ("ignored explicit argument " ++ Text.quote value)

/-- An option with a value has not been given one. -/
def missingValue (o : OptionName) : Outcome :=
  optionError o "expected one argument"

/-- What to do after an option. -/
inductive Step where
  | go (r : Request)
  | stop (o : Outcome)

/-- Set a flag. -/
def setFlag (r : Request) : OptionName → Request
  | .ast => { r with options := { r.options with tree := true } }
  | .cylon => { r with options := { r.options with cylon := true } }
  | .debug => { r with debug := true }
  | .noElim => { r with options := { r.options with eliminate := false } }
  | .noMangle => { r with options := { r.options with shorten := false } }
  | .noReduce => { r with options := { r.options with reduce := false } }
  | .version => { r with version := true }
  | .help | .input | .output => r

variable {m : Type → Type} [Monad m]

/-- The file that an option names cannot be opened. -/
def refusal (f : Found) (path reason : String) : Outcome :=
  optionError f.option ("can't open '" ++ path ++ "': " ++ reason)

/-- Open the file that an option names; a dash names the standard channel. -/
def openChannel (host : Host m) (r : Request) (f : Found) (value : String) : m Step := do
  if f.option == .input then
    if value == "-" then return .go { r with source := .standard }
    else
      match ← host.openForReading value with
      | none => return .go { r with source := .file value }
      | some e => return .stop (refusal f value e)
  else
    if value == "-" then return .go { r with sink := .standard }
    else
      match ← host.openForWriting value with
      | none => return .go { r with sink := .file value }
      | some e => return .stop (refusal f value e)

/-- Help has been given. -/
def helped : Outcome :=
  ⟨0, "", "", false⟩

/-- Do the arguments start with one that can be a value? -/
def followedByPlain : List (String × Argument) → Bool
  | (_, .plain) :: _ => true
  | _ => false

/-- The outcome of the letters right after a short option for help: each is a short option of its
own, up to one that takes what follows it as its value or is unknown. Nothing else is done once help
is given. -/
def helpCluster (plainNext : Bool) : List Char → Outcome
  | [] => helped
  | c :: rest =>
    match spellings.lookup (String.ofList ['-', c]) with
    | some .help => helpCluster plainNext rest
    | some o => if rest.isEmpty && !plainNext then missingValue o else helped
    | none => helped

/-- Go through the arguments from left to right. -/
def readArguments (host : Host m) : Request → List (String × Argument) → m Step
  | r, [] => return .go r
  | r, (s, .plain) :: rest => readArguments host { r with extras := r.extras ++ [s] } rest
  | r, (s, .unknown) :: rest => readArguments host { r with extras := r.extras ++ [s] } rest
  | r, (_, .ambiguous _) :: rest => readArguments host r rest
  | r, (_, .option f) :: rest =>
    match f.option.takesValue, f.attached with
    | true, some value => do
      match ← openChannel host r f value with
      | .go r => readArguments host r rest
      | .stop o => return .stop o
    | true, none =>
      match rest with
      | (value, .plain) :: more => do
        match ← openChannel host r f value with
        | .go r => readArguments host r more
        | .stop o => return .stop o
      | _ => return .stop (missingValue f.option)
    | false, some value =>
      if f.option == .help && f.spelling == "-h" && value != "" then
        return .stop (helpCluster (followedByPlain rest) value.toList)
      else return .stop (ignoredValue f.option value)
    | false, none =>
      if f.option == .help then return .stop helped
      else readArguments host (setFlag r f.option) rest

/-- The message about an argument that may stand for several options. -/
def ambiguity? (args : List (String × Argument)) : Option String :=
  args.findSome? fun
    | (s, .ambiguous ms) =>
      some ("ambiguous option: " ++ s ++ " could match " ++ String.intercalate ", " ms)
    | _ => none

/-- The text of so many warnings. -/
def warningText (n : Nat) : String :=
  String.join (List.replicate n "Warning: line exceeds 70 characters\n")

/-- Do what the command line asks for. -/
def perform (host : Host m) (files : FileStore) (r : Request) : m Outcome := do
  if !r.extras.isEmpty then
    return usageError ("unrecognized arguments: " ++ String.intercalate " " r.extras)
  else if r.version then
    return ⟨0, version ++ "\n", "", r.debug⟩
  else
    match ← host.read r.source with
    | .error e => return ⟨1, "", "Input error: " ++ e ++ "\n", r.debug⟩
    | .ok source =>
      match compile r.options files source with
      | .error e => return ⟨1, "", e.message ++ "\n", r.debug⟩
      | .ok p =>
        let warnings := warningText p.warnings
        match ← host.write r.sink (p.text ++ "\n") with
        | .error e => return ⟨1, "", warnings ++ "Output error: " ++ e ++ "\n", r.debug⟩
        | .ok () => return ⟨0, "", warnings, r.debug⟩

/-- Run the command with the given arguments. -/
def run (host : Host m) (files : FileStore) (args : List String) : m Outcome := do
  let args := classifyAll args
  match ambiguity? args with
  | some message => return usageError message
  | none =>
    match ← readArguments host .default args with
    | .stop o => return o
    | .go r => perform host files r

end Scalarize.Command
