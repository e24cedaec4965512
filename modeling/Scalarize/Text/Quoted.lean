import Scalarize.Text.Blank

/-!
# Scalarize — quoted texts

Messages quote the texts they talk about: in single quotes, or in double quotes if the text holds
a single quote and no double one. What cannot be printed is written as an escape.
-/

namespace Scalarize.Text

/-- The lower-case hexadecimal digits of `n`, at least `width` of them. -/
def hex (width n : Nat) : List Char :=
  let ds := Nat.toDigits 16 n
  List.replicate (width - ds.length) '0' ++ ds

/-- Runs of marks that show nothing and only steer the layout. -/
def layoutMarks : List (Nat × Nat) :=
  [(0xad, 0xad), (0x600, 0x605), (0x61c, 0x61c), (0x6dd, 0x6dd), (0x70f, 0x70f), (0x890, 0x891),
    (0x8e2, 0x8e2), (0x180e, 0x180e), (0x200b, 0x200f), (0x202a, 0x202e), (0x2060, 0x206f),
    (0xfeff, 0xfeff), (0xfff9, 0xfffb), (0x110bd, 0x110bd), (0x110cd, 0x110cd),
    (0x13430, 0x1343f), (0x1bca0, 0x1bca3), (0x1d173, 0x1d17a)]

/-- Characters that show nothing when printed: controls, blanks other than the space, layout marks,
and those for private use or beyond the planes of letters and signs. -/
def isInvisible (c : Char) : Bool :=
  let n := c.toNat
  n < 0x20 || (0x7f ≤ n && n < 0xa0) || (isBlank c && c != ' ') ||
    layoutMarks.any (fun r => r.1 ≤ n && n ≤ r.2) || (0xe000 ≤ n && n ≤ 0xf8ff) ||
    (0xe0000 ≤ n && !(0xe0100 ≤ n && n ≤ 0xe01ef))

/-- One character of a text quoted by `q`. -/
def quoteChar (q c : Char) : List Char :=
  if c == q || c == '\\' then ['\\', c]
  else if c == '\n' then ['\\', 'n']
  else if c == '\r' then ['\\', 'r']
  else if c == '\t' then ['\\', 't']
  else if isInvisible c then
    if c.toNat < 0x100 then ['\\', 'x'] ++ hex 2 c.toNat
    else if c.toNat < 0x10000 then ['\\', 'u'] ++ hex 4 c.toNat
    else ['\\', 'U'] ++ hex 8 c.toNat
  else [c]

/-- A text in quotes. -/
def quote (s : String) : String :=
  let q := if s.toList.contains '\'' && !s.toList.contains '"' then '"' else '\''
  String.ofList (q :: s.toList.flatMap (quoteChar q) ++ [q])

/-- A list of quoted texts, in brackets and parted by commas. -/
def quoteList (ss : List String) : String :=
  "[" ++ String.intercalate ", " (ss.map quote) ++ "]"

end Scalarize.Text
