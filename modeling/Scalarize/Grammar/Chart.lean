import Std.Data.HashMap
import Std.Data.HashSet
import Scalarize.Grammar.ParseTree
import Scalarize.Grammar.Rules
import Scalarize.Total

/-!
# Scalarize — parsing with a chart

The parser keeps a chart of items. An item says that a production was begun at one place of the text
and that its first parts have been read up to another. New items follow from old ones: a part that
is a terminal is matched against the text, a part that is a rule begins the productions of the rule,
and a finished production advances every item that waits for its rule at the place where it began.
Each item is entered once, with the trees of the parts it has read; that is enough to find some
derivation whenever there is one, however ambiguous the text.

The chart only ever holds items that the text up to their place supports. So when there is no
derivation, the furthest place that an item has reached is where the text stops making sense.
-/

namespace Scalarize.Grammar

/-- The production with number `production`, begun at `start`, has its first `dot` parts read up to
`stop`. Places are counted in characters from the beginning of the text. -/
structure Item where
  production : Nat
  dot : Nat
  start : Nat
  stop : Nat
deriving DecidableEq, Hashable, Repr

/-- An item with the trees of the parts it has read. -/
structure Entry where
  item : Item
  forest : List ParseTree

/-- What the parser knows. -/
structure Chart where
  /-- The items entered so far. -/
  seen : Std.HashSet Item
  /-- The entries whose next part is the given rule, at the given place. -/
  waiting : Std.HashMap (Rule × Nat) (List Entry)
  /-- The places up to which a rule begun at a place has been read, each with the trees it gave. -/
  finished : Std.HashMap (Rule × Nat) (List (Nat × List ParseTree))
  /-- The entries whose consequences have not been drawn yet. -/
  agenda : List Entry
  /-- The furthest place that an item has reached. -/
  furthest : Nat

/-- A text prepared for parsing: for each place the rest of the text from there on. -/
structure Subject where
  length : Nat
  rests : Array (List Char)

/-- The rests of a list, from the whole list to the empty one. -/
def restsOf : List Char → List (List Char)
  | [] => [[]]
  | c :: cs => (c :: cs) :: restsOf cs

/-- Prepare a text. -/
def Subject.of (cs : List Char) : Subject :=
  ⟨cs.length, (restsOf cs).toArray⟩

/-- The rest of the text from a place on. -/
def Subject.rest (s : Subject) (place : Nat) : List Char :=
  s.rests[place]?.getD []

/-- The place of the first terminal at or after a place. -/
def Subject.skipGap (s : Subject) (place : Nat) : Nat :=
  place + ((s.rest place).takeWhile Text.isGap).length

/-- The numbered productions. -/
def numbered : Array Production :=
  productions.toArray

/-- The numbers of the productions of a rule. -/
def numbersOf (r : Rule) : List Nat :=
  (List.range numbered.size).filter fun i =>
    match numbered[i]? with
    | some p => p.head == r
    | none => false

/-- The trees that a finished production hands on. -/
def Label.apply (label : Label) (forest : List ParseTree) : List ParseTree :=
  match label with
  | node kind => [.branch kind forest]
  | splice => forest

namespace Chart

/-- The chart before the first item. -/
def empty : Chart :=
  ⟨∅, ∅, ∅, [], 0⟩

/-- Enter an item, unless it is there already. -/
def enter (c : Chart) (e : Entry) : Chart :=
  if c.seen.contains e.item then c
  else
    { c with
      seen := c.seen.insert e.item
      agenda := e :: c.agenda
      furthest := max c.furthest e.item.stop }

/-- Begin the productions of a rule at a place. -/
def predict (c : Chart) (r : Rule) (place : Nat) : Chart :=
  (numbersOf r).foldl (fun c i => c.enter ⟨⟨i, 0, place, place⟩, []⟩) c

end Chart

/-- The entry after one more part, which was read up to `stop` and gave these trees. -/
def Entry.advance (e : Entry) (stop : Nat) (trees : List ParseTree) : Entry :=
  ⟨{ e.item with dot := e.item.dot + 1, stop }, e.forest ++ trees⟩

/-- Match a terminal at a place: the place after it and after the gap that follows, and its
trees. -/
def Subject.scan? (s : Subject) (t : Terminal) (place : Nat) : Option (Nat × List ParseTree) :=
  (t.take? (s.rest place)).map fun (text, _) =>
    (s.skipGap (place + text.length), if t.isKept then [.token (String.ofList text)] else [])

namespace Chart

/-- Draw the consequences of an entry whose next part is a rule. -/
def await (c : Chart) (e : Entry) (r : Rule) : Chart :=
  let key := (r, e.item.stop)
  let others := c.waiting.getD key []
  let ends := c.finished.getD key []
  let c := { c with waiting := c.waiting.insert key (e :: others) }
  let c := if others.isEmpty then c.predict r e.item.stop else c
  ends.foldl (fun c (stop, trees) => c.enter (e.advance stop trees)) c

/-- Draw the consequences of an entry that has read all its parts. -/
def finish (c : Chart) (e : Entry) (p : Production) : Chart :=
  let key := (p.head, e.item.start)
  let ends := c.finished.getD key []
  if ends.any (·.1 == e.item.stop) then c
  else
    let trees := p.label.apply e.forest
    let c := { c with finished := c.finished.insert key ((e.item.stop, trees) :: ends) }
    (c.waiting.getD key []).foldl (fun c w => c.enter (w.advance e.item.stop trees)) c

/-- Draw the consequences of an entry. -/
def draw (s : Subject) (c : Chart) (e : Entry) : Chart :=
  match numbered[e.item.production]? with
  | none => c
  | some p =>
    match p.body[e.item.dot]? with
    | none => c.finish e p
    | some (.rule r) => c.await e r
    | some (.terminal t) =>
      match s.scan? t e.item.stop with
      | some (stop, trees) => c.enter (e.advance stop trees)
      | none => c

/-- Draw consequences until none is left. -/
def close (s : Subject) : Nat → Chart → Chart
  | 0, c => c
  | fuel + 1, c =>
    match c.agenda with
    | [] => c
    | e :: rest => close s fuel (draw s { c with agenda := rest } e)

end Chart

/-- How many items there can be for a text of this length. -/
def itemBound (length : Nat) : Nat :=
  total (productions.map fun p => p.body.length + 1) * (length + 1) * (length + 1)

/-- The place where a program begins. -/
def Subject.origin (s : Subject) : Nat :=
  s.skipGap 0

/-- The finished chart of a text. -/
def Subject.chart (s : Subject) : Chart :=
  (Chart.empty.predict .program s.origin).close s (itemBound s.length)

end Scalarize.Grammar
