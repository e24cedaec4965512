import Scalarize.Proofs.SourcePieces

/-!
# Scalarize — the words of a source text

Keywords need no boundary after them, so a text may be divided into words in several ways: `sinh!(1)`
is a call of `sinh`, or the sine of a call of `h`. Which terminals can stand next to each other in a
derivation leaves few of these ways, and they can be listed.

* **`Group`**, **`Group.followers`** — kinds of terminals, and which of them can come after which.
* **`ParsesWords.ordered`** — the words of a derivation follow each other in this way.
* **`divisions`**, **`mem_wordings`** — the words of every derivation of a text are in the list.
-/

namespace Scalarize.Grammar

/-! ## Kinds of terminals -/

/-- Terminals that have the same neighbours. -/
inductive Group where
  /-- The beginning of the text. -/
  | start
  | importWord | exportWord | letWord | defineWord | usingWord
  | asWord | sort | equals | arrow | comma | opening | closing | dollar | bang
  | unary | sign | lead | join
  | comment | literal | variableName | macroName | libraryName | externalName
  /-- Not a terminal of the grammar. -/
  | none
deriving DecidableEq

namespace Group

/-- What a statement starts with. -/
def statements : List Group :=
  [importWord, exportWord, letWord, defineWord, usingWord, comment]

/-- What an expression starts with. -/
def expressions : List Group :=
  [literal, variableName, macroName, dollar, opening, unary, lead]

/-- What an expression ends with. -/
def ends : List Group :=
  [literal, variableName, externalName, closing]

/-- What comes after an expression, or after the operand of a form. -/
def afterExpression : List Group :=
  sign :: join :: comma :: closing :: (expressions ++ statements)

/-- What can come after a terminal of the group. -/
def followers : Group → List Group
  | start | comment | libraryName => statements
  | importWord | asWord | dollar => [externalName]
  | exportWord => [variableName]
  | letWord | arrow => [sort]
  | defineWord => [macroName]
  | usingWord => [libraryName]
  | sort => [variableName, equals]
  | equals | unary | sign | join => expressions
  | lead => sign :: expressions
  | comma => externalName :: sort :: expressions
  | opening => sort :: expressions
  | closing => arrow :: afterExpression
  | bang => [opening]
  | literal => afterExpression
  | variableName => equals :: asWord :: afterExpression
  | macroName => [bang, opening]
  | externalName => asWord :: afterExpression
  | none => []

end Group

/-- The keywords and signs of the grammar. -/
def keywords : List (String × Group) :=
  [("import", .importWord), ("export", .exportWord), ("let", .letWord), ("define", .defineWord),
    ("using", .usingWord), ("as", .asWord), ("number", .sort), ("vector", .sort), ("matrix", .sort),
    ("=", .equals), ("->", .arrow), (",", .comma), ("(", .opening), ("[", .opening), (")", .closing),
    ("]", .closing), ("$", .dollar), ("!", .bang), ("neg", .unary), ("not", .unary), ("abs", .unary),
    ("sqrt", .unary), ("sin", .unary), ("cos", .unary), ("tan", .unary), ("arcsin", .unary),
    ("arccos", .unary), ("arctan", .unary), ("+", .sign), ("-", .sign), ("*", .sign), ("/", .sign),
    ("%", .sign), ("^", .sign), ("<", .sign), ("<=", .sign), (">", .sign), (">=", .sign),
    ("==", .sign), ("!=", .sign), ("and", .sign), ("or", .sign), ("reduce", .lead), ("len", .lead),
    ("rows", .lead), ("cols", .lead), ("elem", .lead), ("map", .lead), ("apply", .lead),
    ("concat", .lead), ("reverse", .lead), ("row", .lead), ("col", .lead), ("transpose", .lead),
    ("dot", .join), ("@", .join)]

/-- The terminals of the grammar. -/
def terminals : List (Terminal × Group) :=
  keywords.map (fun (w, g) => (.word w, g)) ++
  [(.comment, .comment), (.literal, .literal), (.variableName, .variableName),
    (.macroName, .macroName), (.libraryName, .libraryName), (.externalName, .externalName)]

/-- The group of the terminal. -/
def Terminal.group (t : Terminal) : Group :=
  (terminals.lookup t).getD .none

/-! ## First and last terminals -/

/-- What a derivation of the rule can start with. -/
def Rule.firsts : Rule → List Group
  | .program | .lines | .line => Group.statements
  | .importGroup => [.importWord]
  | .importItems | .importItem | .external => [.externalName]
  | .exportItem => [.exportWord]
  | .letItem => [.letWord]
  | .defineItem => [.defineWord]
  | .usingItem => [.usingWord]
  | .library => [.libraryName]
  | .comment => [.comment]
  | .variableRef => [.variableName]
  | .macroRef | .call => [.macroName]
  | .paramGroup | .args | .vector | .matrix => [.opening]
  | .params | .param | .type => [.sort]
  | .number => [.literal]
  | .unaryOp | .unaryOps => [.unary]
  | .binaryOp | .vecOp | .matOp | .ntail | .vtail | .mtail => [.sign]
  | _ => Group.expressions

/-- What a derivation of the rule can end with. -/
def Rule.lasts : Rule → List Group
  | .program | .lines | .line => .comment :: .libraryName :: Group.ends
  | .importGroup | .importItems | .importItem | .external => [.externalName]
  | .exportItem => [.variableName, .externalName]
  | .usingItem | .library => [.libraryName]
  | .comment => [.comment]
  | .variableRef | .params | .param => [.variableName]
  | .macroRef => [.macroName]
  | .paramGroup | .args | .call | .vector | .matrix => [.closing]
  | .type => [.sort]
  | .number => [.literal]
  | .unaryOp | .unaryOps => [.unary]
  | .binaryOp | .vecOp | .matOp => [.sign]
  | _ => Group.ends

namespace Part

def firsts : Part → List Group
  | .terminal t => [t.group]
  | .rule r => r.firsts

def lasts : Part → List Group
  | .terminal t => [t.group]
  | .rule r => r.lasts

end Part

/-- The one part can come right before the other. -/
def Adjacent (a b : Part) : Prop :=
  ∀ g ∈ a.lasts, ∀ g' ∈ b.firsts, g' ∈ g.followers

instance : DecidableRel Adjacent :=
  fun _ _ => inferInstanceAs (Decidable (∀ _ ∈ _, ∀ _ ∈ _, _))

/-- The tables hold for all productions. -/
theorem adjacent_productions : ∀ p ∈ productions, p.body.IsChain Adjacent ∧
    .rule .program ∉ p.body ∧ (p.head ≠ .program → p.body ≠ []) ∧
    (∀ part ∈ p.body.head?, ∀ g ∈ part.firsts, g ∈ p.head.firsts) ∧
    ∀ part ∈ p.body.getLast?, ∀ g ∈ part.lasts, g ∈ p.head.lasts := by
  decide +kernel

/-! ## Words in order -/

/-- Groups that follow each other, with a first and a last one out of these. -/
structure Ordered (firsts lasts gs : List Group) : Prop where
  chain : gs.IsChain fun g g' => g' ∈ g.followers
  first : ∀ g ∈ gs.head?, g ∈ firsts
  last : ∀ g ∈ gs.getLast?, g ∈ lasts

/-- The same for the parts of a production. -/
structure OrderedParts (parts : List Part) (gs : List Group) : Prop where
  chain : gs.IsChain fun g g' => g' ∈ g.followers
  first : ∀ part ∈ parts.head?, ∀ g ∈ gs.head?, g ∈ part.firsts
  last : ∀ part ∈ parts.getLast?, ∀ g ∈ gs.getLast?, g ∈ part.lasts
  nil_iff : parts = [] ↔ gs = []

theorem OrderedParts.cons {part : Part} {parts : List Part} {gs gs' : List Group}
    (hpart : Ordered part.firsts part.lasts gs) (hne : gs ≠ [])
    (hadjacent : (part :: parts).IsChain Adjacent) (h : OrderedParts parts gs') :
    OrderedParts (part :: parts) (gs ++ gs') where
  chain := by
    refine List.isChain_append.mpr ⟨hpart.chain, h.chain, fun g hg g' hg' => ?_⟩
    cases parts with
    | nil =>
      rw [h.nil_iff.mp rfl] at hg'
      cases hg'
    | cons part' parts =>
      have hfirst : g' ∈ part'.firsts := h.first part' rfl g' hg'
      exact (List.isChain_cons_cons.mp hadjacent).1 g (hpart.last g hg) g' hfirst
  first := by
    intro part' hpart' g hg
    obtain rfl : part = part' := Option.some.inj hpart'
    rw [List.head?_append_of_ne_nil _ hne] at hg
    exact hpart.first g hg
  last := by
    intro part' hpart' g hg
    cases parts with
    | nil =>
      obtain rfl : part = part' := Option.some.inj hpart'
      rw [h.nil_iff.mp rfl, List.append_nil] at hg
      exact hpart.last g hg
    | cons next parts =>
      have hne' : gs' ≠ [] := fun hnil => List.cons_ne_nil _ _ (h.nil_iff.mpr hnil)
      rw [List.getLast?_append_of_ne_nil _ hne'] at hg
      exact h.last part' (by rwa [List.getLast?_cons_cons] at hpart') g hg
  nil_iff := by simp [hne]

theorem OrderedParts.ordered {parts : List Part} {firsts lasts gs : List Group}
    (h : OrderedParts parts gs) (hfirst : ∀ part ∈ parts.head?, ∀ g ∈ part.firsts, g ∈ firsts)
    (hlast : ∀ part ∈ parts.getLast?, ∀ g ∈ part.lasts, g ∈ lasts) :
    Ordered firsts lasts gs ∧ (parts ≠ [] → gs ≠ []) := by
  refine ⟨⟨h.chain, fun g hg => ?_, fun g hg => ?_⟩, fun hne hnil => hne (h.nil_iff.mpr hnil)⟩
  · cases parts with
    | nil =>
      rw [h.nil_iff.mp rfl] at hg
      cases hg
    | cons part parts => exact hfirst part rfl g (h.first part rfl g hg)
  · cases hpart : parts.getLast? with
    | none =>
      rw [h.nil_iff.mp (List.getLast?_eq_none_iff.mp hpart)] at hg
      cases hg
    | some part => exact hlast part hpart g (h.last part hpart g hg)

/-- The groups of words. -/
def groupsOf (ws : List SourceWord) : List Group :=
  ws.map (·.terminal.group)

/-- The words of a derivation follow each other as the tables say. -/
theorem ParsesWords.ordered {r : Rule} {ws : List SourceWord} {forest : List ParseTree}
    (h : ParsesWords r ws forest) : Ordered r.firsts r.lasts (groupsOf ws) := by
  suffices hone : Ordered r.firsts r.lasts (groupsOf ws) ∧ (r ≠ .program → groupsOf ws ≠ []) from
    hone.1
  refine @ParsesWords.rec
    (fun r ws _ _ => Ordered r.firsts r.lasts (groupsOf ws) ∧ (r ≠ .program → groupsOf ws ≠ []))
    (fun parts ws _ _ => parts.IsChain Adjacent → .rule .program ∉ parts →
      OrderedParts parts (groupsOf ws)) ?production ?nil ?terminal ?rule _ _ _ h
  case production =>
    intro p ws forest hp _ ih
    obtain ⟨hadjacent, hprogram, hne, hfirst, hlast⟩ := adjacent_productions p hp
    exact (ih hadjacent hprogram).ordered hfirst hlast |>.imp_right fun hnil hr => hnil (hne hr)
  case nil =>
    intro _ _
    exact ⟨.nil, nofun, nofun, ⟨fun _ => rfl, fun _ => rfl⟩⟩
  case terminal =>
    intro t text parts ws forest _ _ ih hadjacent hprogram
    have hparts := ih hadjacent.tail fun hmem => hprogram (List.mem_cons_of_mem _ hmem)
    have hterminal : Ordered (Part.terminal t).firsts (Part.terminal t).lasts [t.group] :=
      ⟨.singleton _, by simp [Part.firsts], by simp [Part.lasts]⟩
    exact .cons hterminal (List.cons_ne_nil _ _) hadjacent hparts
  case rule =>
    -- only a program can be empty, and it is no part of a production
    intro r ws trees parts ws' forest _ _ ih ihparts hadjacent hprogram
    have hparts := ihparts hadjacent.tail fun hmem => hprogram (List.mem_cons_of_mem _ hmem)
    have hr : r ≠ .program := by
      rintro rfl
      exact hprogram List.mem_cons_self
    rw [groupsOf, List.map_append]
    exact .cons ih.1 (ih.2 hr) hadjacent hparts

/-! ## All divisions -/

/-- The ways to divide the text into words that follow each other, after a terminal of the group and
with at most so many words. -/
def divisions : Nat → Group → List Char → List (List String)
  | _, _, [] => [[]]
  | 0, _, _ => []
  | n + 1, g, cs => terminals.flatMap fun (t, g') =>
    if g.followers.contains g' then
      match t.take? cs with
      | some (text, rest) => (divisions n g' (skipGap rest)).map (String.ofList text :: ·)
      | none => []
    else []

/-- The ways to divide a source text into words that follow each other. -/
def wordings (cs : List Char) : List (List String) :=
  divisions cs.length .start (skipGap cs)

theorem mem_terminals {g : Group} {t : Terminal} (h : t.group ∈ g.followers) :
    (t, t.group) ∈ terminals := by
  have hnone : .none ∉ g.followers := by cases g <;> decide
  unfold Terminal.group at h ⊢
  cases hlookup : terminals.lookup t with
  | none =>
    rw [hlookup] at h
    exact absurd h hnone
  | some g' =>
    obtain ⟨before, after, hsplit, -⟩ := List.lookup_eq_some_iff.mp hlookup
    rw [hsplit]
    simp

theorem text_ne_nil {t : Terminal} {cs text rest : List Char} (ht : (t, t.group) ∈ terminals)
    (h : t.take? cs = some (text, rest)) : text ≠ [] := by
  have hadmits : ∀ x ∈ terminals, x.1.admits "" = false := by decide +kernel
  rintro rfl
  have htext := admits_of_take? h
  rw [show String.ofList [] = "" from rfl, hadmits _ ht] at htext
  cases htext

/-- A division into words that follow each other is in the list. -/
theorem mem_divisions {cs : List Char} {ws : List SourceWord} {g : Group} {n : Nat}
    (h : Divides cs ws []) (hchain : (g :: groupsOf ws).IsChain fun g g' => g' ∈ g.followers)
    (hn : cs.length ≤ n) : ws.map SourceWord.text ∈ divisions n g cs := by
  generalize hrest : ([] : List Char) = rest at h
  induction h generalizing g n with
  | nil =>
    subst hrest
    cases n <;> exact List.mem_singleton.mpr rfl
  | @cons t cs text mid ws rest htake _ ih =>
    obtain ⟨hfollows, hchain⟩ := List.isChain_cons_cons.mp hchain
    have hmem := mem_terminals hfollows
    have hne := text_ne_nil hmem htake
    obtain ⟨c, text, rfl⟩ := List.exists_cons_of_ne_nil hne
    obtain rfl := take?_append htake
    have hgap : (skipGap mid).length ≤ mid.length := (List.dropWhile_sublist _).length_le
    rw [List.cons_append, List.length_cons, List.length_append] at hn
    obtain ⟨n, rfl⟩ : ∃ m, n = m + 1 := ⟨n - 1, by omega⟩
    -- the word is not empty, so the bound suffices for the others
    have hwords := @ih t.group n hchain (by omega) hrest
    rw [List.cons_append] at htake ⊢
    rw [divisions]
    · refine List.mem_flatMap.mpr ⟨(t, t.group), hmem, ?_⟩
      simp only [List.contains_iff_mem.mpr hfollows, htake, if_true]
      exact List.mem_map.mpr ⟨_, hwords, rfl⟩
    · exact List.cons_ne_nil _ _

theorem mem_wordings {cs : List Char} {ws : List SourceWord} {p : ParseTree}
    (hdivides : Divides (skipGap cs) ws []) (h : ParsesWords .program ws [p]) :
    ws.map SourceWord.text ∈ wordings cs := by
  have hordered := h.ordered
  refine mem_divisions hdivides ?_ (List.dropWhile_sublist _).length_le
  cases hgroups : groupsOf ws with
  | nil => exact .singleton _
  | cons g gs =>
    rw [hgroups] at hordered
    exact List.isChain_cons_cons.mpr ⟨hordered.first g rfl, hordered.chain⟩

end Scalarize.Grammar
