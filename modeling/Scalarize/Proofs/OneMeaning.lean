import Scalarize.Proofs.BracketedPrograms
import Scalarize.Proofs.WordDivisions

/-!
# Scalarize — source texts with one meaning

The grammar is ambiguous, and the derivations of a text need not agree: `neg 1 + 2` is `-(1 + 2)` in
one and `(-1) + 2` in another. A text that can be divided into words in one way only and that has
enough brackets has one meaning all the same: its derivations are lowered to the same chip program,
or to none.

* **`isBracketedSource`** — the check, on the text alone.
* **`bracketed_source_one_meaning`** — the derivations of a text that passes agree.
* **`neg_chain_two_meanings`** — those of a text that does not may disagree.
-/

namespace Scalarize

open Grammar

/-- The text can be divided into words in one way only, and brackets settle what the words mean. -/
def isBracketedSource (cs : List Char) : Bool :=
  match wordings cs with
  | [] => true
  | ws :: others => others.all (· == ws) && isBracketedProgram (piecesOf ws)

/-- The chip program that a program is lowered to, if it is lowered. -/
def chipOf? (files : FileStore) (program : Tree) : Option Tree :=
  ((lowerProgram files .empty program).runFrom .start).1.toOption.map Prod.snd

theorem chipOf?_eq_some {files : FileStore} {program chip : Tree} :
    chipOf? files program = some chip ↔
      ∃ env trace, (lowerProgram files .empty program).runFrom .start = (.ok (env, chip), trace) := by
  unfold chipOf?
  cases (lowerProgram files .empty program).runFrom .start with
  | mk r trace =>
    cases r with
    | error e => simp [Except.toOption]
    | ok a => simp [Except.toOption, Prod.ext_iff, eq_comm]

/-- The derivations of a bracketed text read the same pieces. -/
theorem exists_pieces_of_isSource {cs : List Char} (hcs : isBracketedSource cs = true)
    {p p' : ParseTree} (h : IsSource cs p) (h' : IsSource cs p') :
    ∃ is program program', isBracketedProgram is = true ∧ p.toTree = .ok program ∧
      p'.toTree = .ok program' ∧ Reads .program is [program] ∧ Reads .program is [program'] := by
  obtain ⟨ws, is, program, hdivides, hparses, hwords, hp, hreads⟩ := exists_reads_of_isSource h
  obtain ⟨ws', is', program', hdivides', hparses', hwords', hp', hreads'⟩ :=
    exists_reads_of_isSource h'
  have hmem := mem_wordings hdivides hparses
  have hmem' := mem_wordings hdivides' hparses'
  rw [← hwords] at hmem
  rw [← hwords'] at hmem'
  unfold isBracketedSource at hcs
  cases hwordings : wordings cs with
  | nil =>
    rw [hwordings] at hmem
    cases hmem
  | cons first others =>
    rw [hwordings] at hmem hmem' hcs
    simp only [Bool.and_eq_true, List.all_eq_true, beq_iff_eq] at hcs
    have hone : ∀ ws ∈ first :: others, ws = first := List.forall_mem_cons.mpr ⟨rfl, hcs.1⟩
    -- pieces that have the same words are the same
    have hpieces : is = is' := by
      rw [← hreads.piecesOf_eq, hone _ hmem, ← hone _ hmem', hreads'.piecesOf_eq]
    refine ⟨is, program, program', ?_, hp, hp', hreads, hpieces ▸ hreads'⟩
    rw [← hreads.piecesOf_eq, hone _ hmem]
    exact hcs.2

/-- Lowering gives a chip program for one of two alike programs if it gives it for the other. -/
theorem chipOf?_of_alike {files : FileStore} {program program' chip : Tree}
    (hprogram : ShapedProgram program) (hprogram' : ShapedProgram program')
    (halike : List.Forall₂ AlikeStatement (sourceStatements program) (sourceStatements program'))
    (h : chipOf? files program = some chip) : chipOf? files program' = some chip := by
  obtain ⟨env, trace, hrun⟩ := chipOf?_eq_some.mp h
  obtain ⟨env', hgives⟩ := gives_of_alike hprogram hprogram' halike ⟨.start, trace, hrun⟩
  exact chipOf?_eq_some.mpr ⟨env', _, Prod.ext (hgives .start) rfl⟩

/-- The derivations of a bracketed text agree: they are lowered to the same chip program, or none of
them is lowered. -/
theorem bracketed_source_one_meaning {cs : List Char} (hcs : isBracketedSource cs = true)
    {p p' : ParseTree} (h : IsSource cs p) (h' : IsSource cs p') :
    ∃ program program', p.toTree = .ok program ∧ p'.toTree = .ok program' ∧
      ∀ files, chipOf? files program = chipOf? files program' := by
  obtain ⟨is, program, program', his, hp, hp', hreads, hreads'⟩ := exists_pieces_of_isSource hcs h h'
  obtain ⟨_, heq, hprogram⟩ := shapedProgram_of_isSource h
  obtain ⟨_, heq', hprogram'⟩ := shapedProgram_of_isSource h'
  obtain rfl := Except.ok.inj (hp.symm.trans heq)
  obtain rfl := Except.ok.inj (hp'.symm.trans heq')
  have halike := alike_of_isBracketedProgram his hreads hreads'
  have halike' := alike_of_isBracketedProgram his hreads' hreads
  refine ⟨program, program', hp, hp', fun files => Option.ext fun chip => ?_⟩
  exact ⟨chipOf?_of_alike hprogram hprogram' halike, chipOf?_of_alike hprogram' hprogram halike'⟩

/-! ## A text with two groupings -/

/-- A text with two chains that can be grouped in two ways. -/
def groupedSource : List Char :=
  "define f(number X) -> number = neg not X\nlet number A = 1 + f!(2) - 3".toList

/-- Parse trees of `groupedSource`, from trees of its two expressions. -/
def groupedParse (body value : ParseTree) : ParseTree :=
  .branch "program" [
    .branch "line" [.branch "def_num" [.branch "macro" [.token "f"],
      .branch "param_group" [
        .branch "param" [.branch "type_num" [], .branch "variable" [.token "X"]]], body]],
    .branch "line" [.branch "let_num" [.branch "variable" [.token "A"], value]]]

/-- The operators are taken at once, and so are the signs. -/
def flatParse : ParseTree :=
  groupedParse
    (.branch "num_unary" [.branch "neg" [], .branch "not" [], .branch "variable" [.token "X"]])
    (.branch "num_binary" [.branch "number" [.token "1"], .branch "add" [],
      .branch "call" [.branch "macro" [.token "f"], .branch "args" [.branch "number" [.token "2"]]],
      .branch "sub" [], .branch "number" [.token "3"]])

/-- The operators are taken one by one, and so are the signs. -/
def nestedParse : ParseTree :=
  groupedParse
    (.branch "num_unary" [.branch "neg" [],
      .branch "num_unary" [.branch "not" [], .branch "variable" [.token "X"]]])
    (.branch "num_binary" [
      .branch "num_binary" [.branch "number" [.token "1"], .branch "add" [],
        .branch "call" [.branch "macro" [.token "f"],
          .branch "args" [.branch "number" [.token "2"]]]],
      .branch "sub" [], .branch "number" [.token "3"]])

set_option maxRecDepth 2000 in
theorem flatParse_isSource : IsSource groupedSource flatParse :=
  @isSource_of_leftmost 80 [1, 1, 0,
    3, 0, 0, 0, 0, 0, 0, 0, 0, 0, 0, 1, 0, 0, 1, 0, 0, 10, 0,
    2, 0, 0, 0, 1, 0, 12, 0, 1, 0, 0, 11, 0, 0, 0, 0, 0, 0, 0, 12, 0, 1, 12, 0] _ _ rfl

set_option maxRecDepth 2000 in
theorem nestedParse_isSource : IsSource groupedSource nestedParse :=
  @isSource_of_leftmost 80 [1, 1, 0,
    3, 0, 0, 0, 0, 0, 0, 0, 0, 0, 0, 0, 0, 0, 0, 0, 0, 1, 0, 0, 10, 0,
    2, 0, 0, 0, 1, 1, 0, 12, 0, 0, 0, 11, 0, 0, 0, 0, 0, 0, 0, 12, 0, 0, 1, 12, 0] _ _ rfl

theorem groupedSource_isBracketed : isBracketedSource groupedSource = true := by
  decide +kernel

/-- The two derivations are different, and the program is lowered. -/
theorem bracketed_source_groupings : isBracketedSource groupedSource = true ∧
    IsSource groupedSource flatParse ∧ IsSource groupedSource nestedParse ∧
    flatParse ≠ nestedParse ∧
    (flatParse.toTree.toOption.bind (chipOf? [])).isSome = true ∧
    ∃ program program', flatParse.toTree = .ok program ∧ nestedParse.toTree = .ok program' ∧
      ∀ files, chipOf? files program = chipOf? files program' :=
  ⟨groupedSource_isBracketed, flatParse_isSource, nestedParse_isSource,
    by simp [flatParse, nestedParse, groupedParse], by decide +kernel,
    bracketed_source_one_meaning groupedSource_isBracketed flatParse_isSource nestedParse_isSource⟩

/-! ## A text with two meanings -/

/-- An operator before a chain. -/
def negSource : List Char :=
  "let number A = neg 1 + 2\nexport A".toList

/-- Parse trees of `negSource`, from trees of its expression. -/
def negParse (value : ParseTree) : ParseTree :=
  .branch "program" [
    .branch "line" [.branch "let_num" [.branch "variable" [.token "A"], value]],
    .branch "line" [.branch "export" [.branch "variable" [.token "A"]]]]

/-- The sum is negated. -/
def negatedSum : ParseTree :=
  .branch "num_unary" [.branch "neg" [],
    .branch "num_binary" [.branch "number" [.token "1"], .branch "add" [],
      .branch "number" [.token "2"]]]

/-- The first operand of the sum is negated. -/
def negatedFirst : ParseTree :=
  .branch "num_binary" [.branch "num_unary" [.branch "neg" [], .branch "number" [.token "1"]],
    .branch "add" [], .branch "number" [.token "2"]]

theorem negatedSum_isSource : IsSource negSource (negParse negatedSum) :=
  @isSource_of_leftmost 40
    [1, 1, 0, 2, 0, 0, 0, 0, 0, 0, 0, 0, 1, 0, 12, 0, 0, 0, 12, 0, 1, 0, 0] _ _ rfl

theorem negatedFirst_isSource : IsSource negSource (negParse negatedFirst) :=
  @isSource_of_leftmost 40
    [1, 1, 0, 2, 0, 0, 0, 1, 0, 0, 0, 0, 0, 0, 12, 0, 0, 0, 12, 0, 1, 0, 0] _ _ rfl

/-- The derivations of a text without enough brackets may disagree: in one the sum is negated, in the
other its first operand. -/
theorem neg_chain_two_meanings :
    IsSource negSource (negParse negatedSum) ∧ IsSource negSource (negParse negatedFirst) ∧
    ∃ program program' chip chip', (negParse negatedSum).toTree = .ok program ∧
      (negParse negatedFirst).toTree = .ok program' ∧ chipOf? [] program = some chip ∧
      chipOf? [] program' = some chip' ∧ chip ≠ chip' := by
  let number (n : Int) : Tree := .leaf "number" (some (.numeral (.int n)))
  let assignment (value : Tree) : Tree :=
    .node "program" [.node "line" [.node "assignment" [.text "variable" "_yovec_num0", value]]]
  refine ⟨negatedSum_isSource, negatedFirst_isSource, _, _,
    assignment (.node "neg" [.node "add" [number 1, number 2]]),
    assignment (.node "add" [.node "neg" [number 1], number 2]), rfl, rfl, rfl, rfl, ?_⟩
  simp [assignment, Tree.node]

end Scalarize
