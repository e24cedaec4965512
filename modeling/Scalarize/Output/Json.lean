import Scalarize.Text.Quoted

/-!
# Scalarize — JSON documents

A document is printed with four spaces for each level, the members of an object in the given order,
and in ASCII alone.
-/

namespace Scalarize

/-- A JSON document. -/
inductive Document where
  | null
  /-- A number, as it is written. -/
  | number (text : String)
  | string (s : String)
  | array (items : List Document)
  | object (members : List (String × Document))

namespace Document

/-- A UTF-16 unit as an escape. -/
def unitEscape (n : Nat) : List Char :=
  ['\\', 'u'] ++ Text.hex 4 n

/-- A character inside a string. -/
def escape (c : Char) : List Char :=
  if c == '"' then ['\\', '"']
  else if c == '\\' then ['\\', '\\']
  else if c == '\n' then ['\\', 'n']
  else if c == '\r' then ['\\', 'r']
  else if c == '\t' then ['\\', 't']
  else if c == '\x08' then ['\\', 'b']
  else if c == '\x0c' then ['\\', 'f']
  else if 0x20 ≤ c.toNat && c.toNat < 0x7f then [c]
  else if c.toNat < 0x10000 then unitEscape c.toNat
  else
    let n := c.toNat - 0x10000
    unitEscape (0xd800 + n / 0x400) ++ unitEscape (0xdc00 + n % 0x400)

/-- A string in quotes. -/
def quoted (s : String) : String :=
  String.ofList ('"' :: s.toList.flatMap escape ++ ['"'])

/-- The beginning of a line at a level. -/
def newline (level : Nat) : String :=
  "\n" ++ String.ofList (List.replicate (4 * level) ' ')

/-- Printed items between brackets, one on a line. -/
def block (opening closing : String) (level : Nat) (items : List String) : String :=
  if items.isEmpty then opening ++ closing
  else
    opening ++ newline (level + 1) ++ String.intercalate ("," ++ newline (level + 1)) items ++
      newline level ++ closing

mutual

/-- The text of a document at a level. -/
def render (level : Nat) : Document → String
  | null => "null"
  | number text => text
  | string s => quoted s
  | array items => block "[" "]" level (renderItems (level + 1) items)
  | object members => block "\x7b" "\x7d" level (renderMembers (level + 1) members)

/-- The texts of the items of an array. -/
def renderItems (level : Nat) : List Document → List String
  | [] => []
  | d :: ds => render level d :: renderItems level ds

/-- The texts of the members of an object. -/
def renderMembers (level : Nat) : List (String × Document) → List String
  | [] => []
  | (name, d) :: ms => (quoted name ++ ": " ++ render level d) :: renderMembers level ms

end

end Document

end Scalarize
