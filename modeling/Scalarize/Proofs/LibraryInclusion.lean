import Scalarize.Proofs.ChartCompleteness
import Scalarize.Proofs.DeclaredFailures
import Scalarize.Proofs.OneMeaning

/-!
# Scalarize — using a library is including its definitions

A statement that uses a library has the effect of the definitions of the library, written in its
place. Lowering goes through the same environments and ends with the same result or the same failure.
The trace may differ in its focus, since one statement was entered more, but only until the next
statement is entered; so an error is reported in the same way too. A library with any other statement
than definitions and comments is rejected as soon as lowering comes to its use.

* **`Library.Contains`**, **`Library.load_eq`** — a library by its statements, and what is loaded.
* **`SameEnd`** — runs that end alike, from traces that may differ in their focus.
* **`sameEnd_lowerStatements`** — lowering does not depend on the focus.
* **`sameEnd_of_using`** — a use of a library and its definitions end alike.
* **`using_includes_definitions`** — the same for whole programs, and what else can happen.
-/

namespace Scalarize

open Traced Grammar

/-! ## Libraries -/

namespace Library

theorem lineFeeds_of_not_mem {cs : List Char} (h : '\r' ∉ cs) : lineFeeds cs = cs := by
  fun_induction lineFeeds cs with
  | case1 cs ih => simp at h
  | case2 cs hcs ih => simp at h
  | case3 c cs hc₁ hc₂ ih => rw [ih (fun hmem => h (List.mem_cons_of_mem c hmem))]
  | case4 => rfl

/-- There is one file of the library, it is a program, and these are its statements. -/
def Contains (files : FileStore) (library : String) (ss : List Tree) : Prop :=
  ∃ file text program, candidates files library = [file] ∧ file.text = some text ∧
    readProgram (String.ofList (lineFeeds text.toList)) = .ok program ∧
    statements program = .ok ss

/-- Is the statement the definition of a macro? -/
def isDefinition (t : Tree) : Bool :=
  Text.startsWith "def_" t.kind

/-- Is it a statement that a library may not hold? -/
def isForeign (t : Tree) : Bool :=
  t.kind != "comment" && !isDefinition t

theorem definitions_eq (library : String) (ss : List Tree) :
    definitions library ss =
      match ss.find? isForeign with
      | none => .ok (ss.filter isDefinition)
      | some s => .error (.libraryStatement library s) := by
  induction ss with
  | nil => rfl
  | cons s ss ih =>
    have hstart : Text.startsWith "def_" s.kind = isDefinition s := rfl
    rw [definitions, hstart]
    -- comments are passed over, definitions are kept, and anything else ends the loading
    by_cases hcomment : s.kind = "comment"
    · have hdefinition : isDefinition s = false := by
        rw [isDefinition, hcomment]
        decide
      have hforeign : isForeign s = false := by simp [isForeign, hcomment]
      rw [if_pos (beq_iff_eq.mpr hcomment), ih, List.find?_cons_of_neg (by simp [hforeign]),
        List.filter_cons_of_neg (by simp [hdefinition])]
    · rw [if_neg (by simpa using hcomment)]
      cases hdefinition : isDefinition s with
      | true =>
        have hforeign : isForeign s = false := by simp [isForeign, hdefinition]
        rw [if_pos rfl, ih, List.find?_cons_of_neg (by simp [hforeign]),
          List.filter_cons_of_pos hdefinition]
        cases ss.find? isForeign <;> rfl
      | false =>
        have hforeign : isForeign s = true := by simp [isForeign, hcomment, hdefinition]
        rw [if_neg Bool.false_ne_true, List.find?_cons_of_pos hforeign]

theorem load_eq {files : FileStore} {library : String} {ss : List Tree}
    (h : Contains files library ss) :
    load files library =
      match ss.find? isForeign with
      | none => .ok (ss.filter isDefinition)
      | some s => .error (.diagnostic (.libraryStatement library s)) := by
  obtain ⟨file, text, program, hfile, htext, hread, hstatements⟩ := h
  rw [load, hfile]
  dsimp only
  rw [readText, htext]
  dsimp only
  rw [hread]
  dsimp only
  rw [hstatements]
  dsimp only
  rw [definitions_eq]
  cases ss.find? isForeign <;> rfl

end Library

/-! ## Runs that end alike -/

/-- What a trace records beside the focus. -/
def Trace.progress (t : Trace) : Option ValueSort × Bool :=
  (t.spent, t.moved)

/-- Two runs end alike: with the same result and the same progress, and if they stop with a
diagnostic, with the same focus. -/
structure SameEnd {α : Type} (x y : Except Failure α × Trace) : Prop where
  outcome : x.1 = y.1
  progress : x.2.progress = y.2.progress
  focus : ∀ d, x.1 = .error (.diagnostic d) → x.2 = y.2

section

variable {α β : Type} {t t' : Trace}

theorem SameEnd.of_eq {x y : Except Failure α × Trace} (h : x = y) : SameEnd x y :=
  ⟨congrArg Prod.fst h, congrArg (fun x => x.2.progress) h, fun _ _ => congrArg Prod.snd h⟩

theorem SameEnd.pure (h : t.progress = t'.progress) (a : α) :
    SameEnd ((Pure.pure a : Traced α).runFrom t) ((Pure.pure a : Traced α).runFrom t') :=
  ⟨rfl, h, fun _ hd => by cases hd⟩

theorem SameEnd.bind {x y : Traced α} {f g : α → Traced β}
    (h : SameEnd (x.runFrom t) (y.runFrom t'))
    (hf : ∀ a u u', u.progress = u'.progress → SameEnd ((f a).runFrom u) ((g a).runFrom u')) :
    SameEnd ((x >>= f).runFrom t) ((y >>= g).runFrom t') := by
  rw [runFrom_bind, runFrom_bind]
  generalize x.runFrom t = rx, y.runFrom t' = ry at h
  obtain ⟨r, u⟩ := rx
  obtain ⟨r', u'⟩ := ry
  obtain rfl : r = r' := h.outcome
  cases r with
  | ok a => exact hf a u u' h.progress
  | error e => exact ⟨rfl, h.progress, fun d hd => h.focus d (by cases hd; rfl)⟩

/-- Once a statement is entered, the focus before does not matter. -/
theorem runFrom_enterStatement (h : t.progress = t'.progress) (s : Tree) (f : Unit → Traced α) :
    (enterStatement s >>= f).runFrom t = (enterStatement s >>= f).runFrom t' := by
  have hentered : ({ t with statement := some s, expression := none } : Trace) =
      { t' with statement := some s, expression := none } := by
    rw [Trace.mk.injEq]
    exact ⟨rfl, rfl, congrArg Prod.fst h, congrArg Prod.snd h⟩
  exact congrArg (fun u => (f ()).runFrom u) hentered

end

/-! ## Lowering -/

section

variable {files : FileStore} {t t' : Trace}

theorem sameEnd_lowerStatement (h : t.progress = t'.progress) (env : Env) (s : Tree) :
    SameEnd ((lowerStatement files env s).runFrom t) ((lowerStatement files env s).runFrom t') := by
  unfold lowerStatement
  split_ifs
  -- statements of the first five kinds are entered before anything else is done
  · exact .bind (.of_eq (runFrom_enterStatement h s _)) fun _ _ _ hu => .pure hu _
  · exact .bind (.of_eq (runFrom_enterStatement h s _)) fun _ _ _ hu => .pure hu _
  · exact .bind (.of_eq (runFrom_enterStatement h s _)) fun _ _ _ hu => .pure hu _
  · exact .bind (.of_eq (runFrom_enterStatement h s _)) fun _ _ _ hu => .pure hu _
  · exact .bind (.of_eq (runFrom_enterStatement h s _)) fun _ _ _ hu => .pure hu _
  -- a comment is not entered, nor is what is no statement
  · exact .pure h _
  · exact ⟨rfl, h, fun d hd => by cases hd⟩

/-- Lowering statements does not depend on the focus. -/
theorem sameEnd_lowerStatements (h : t.progress = t'.progress) (env : Env) (ts : List Tree) :
    SameEnd ((lowerStatements files env ts).runFrom t)
      ((lowerStatements files env ts).runFrom t') := by
  induction ts generalizing env t t' with
  | nil => exact .pure h _
  | cons s ts ih =>
    rw [lowerStatements]
    refine .bind (sameEnd_lowerStatement h env s) fun a u u' hu => ?_
    exact .bind (ih hu a.1) fun _ _ _ hu => .pure hu _

theorem sameEnd_lowerDefines (h : t.progress = t'.progress) (env : Env) (ds : List Tree) :
    SameEnd ((ds.foldlM lowerDefine env).runFrom t) ((ds.foldlM lowerDefine env).runFrom t') := by
  induction ds generalizing env t t' with
  | nil => exact .pure h _
  | cons d ds ih =>
    rw [List.foldlM_cons]
    exact .bind (.of_eq (runFrom_enterStatement h d _)) fun env' u u' hu => ih hu env'

theorem lowerStatements_append (env : Env) (xs ys : List Tree) :
    lowerStatements files env (xs ++ ys) = (do
      let (env, lines) ← lowerStatements files env xs
      let (env, lines') ← lowerStatements files env ys
      return (env, lines ++ lines')) := by
  induction xs generalizing env with
  | nil => simp [lowerStatements]
  | cons x xs ih => simp [lowerStatements, ih]

theorem lowerStatements_of_definitions {ds : List Tree}
    (hds : ∀ d ∈ ds, Library.isDefinition d = true) (env : Env) :
    lowerStatements files env ds = ds.foldlM lowerDefine env >>= fun env => pure (env, []) := by
  induction ds generalizing env with
  | nil => simp [lowerStatements]
  | cons d ds ih =>
    obtain ⟨hd, hds⟩ := List.forall_mem_cons.mp hds
    simp [lowerStatements, lowerStatement_of_definition hd, ih hds]

theorem lowerStatements_using {u : Tree} (hu : u.kind = "using") (env : Env) (ts : List Tree) :
    lowerStatements files env (u :: ts) =
      lowerUsing files env u >>= fun env => lowerStatements files env ts := by
  have hstatement : lowerStatement files env u
      = lowerUsing files env u >>= fun env => pure (env, none) := by
    unfold lowerStatement
    rw [hu]
    rfl
  simp [lowerStatements, hstatement]

/-- A statement that uses a library and the definitions of the library, written in its place. -/
theorem sameEnd_of_using {u name : Tree} {more ds : List Tree} (hu : u.kind = "using")
    (hchildren : u.children = name :: more) (hload : Library.load files name.name = .ok ds)
    (hds : ∀ d ∈ ds, Library.isDefinition d = true) (h : t.progress = t'.progress) (env : Env)
    (ts : List Tree) :
    SameEnd ((lowerStatements files env (u :: ts)).runFrom t)
      ((lowerStatements files env (ds ++ ts)).runFrom t') := by
  have hinlined : lowerStatements files env (ds ++ ts) =
      ds.foldlM lowerDefine env >>= fun env => lowerStatements files env ts := by
    rw [lowerStatements_append, lowerStatements_of_definitions hds]
    simp
  have hrun : (lowerUsing files env u).runFrom t =
      (ds.foldlM lowerDefine env).runFrom { t with statement := some u, expression := none } := by
    unfold lowerUsing
    rw [hchildren]
    dsimp only
    rw [hload]
    rfl
  rw [lowerStatements_using hu, hinlined]
  refine .bind ?_ fun env' u u' hu => sameEnd_lowerStatements hu env' ts
  -- the definitions are lowered from a trace that differs in its focus only
  have hprogress : ({ t with statement := some u, expression := none } : Trace).progress
      = t'.progress := h
  rw [hrun]
  exact sameEnd_lowerDefines hprogress env ds

/-- A statement that uses a library with a foreign statement. -/
theorem runFrom_of_foreign {u name s : Tree} {more : List Tree} (hu : u.kind = "using")
    (hchildren : u.children = name :: more)
    (hload : Library.load files name.name = .error (.diagnostic (.libraryStatement name.name s)))
    (env : Env) (ts : List Tree) (t : Trace) :
    ((lowerStatements files env (u :: ts)).runFrom t).1
      = .error (.diagnostic (.libraryStatement name.name s)) := by
  rw [lowerStatements_using hu]
  unfold lowerUsing
  rw [hchildren]
  dsimp only
  rw [hload]
  rfl

end

/-! ## Programs -/

/-- A program of these lines. -/
def programOf (lines : List Tree) : Tree :=
  .node "program" lines

/-- Lines with a definition each. -/
def definitionLines (ss : List Tree) : List Tree :=
  (ss.filter Library.isDefinition).map fun d => .node "line" [d]

/-- The line holds a statement that uses the library. -/
def UsesLibrary (library : String) (line : Tree) : Prop :=
  ∃ u rest name more, line.children = u :: rest ∧ u.kind = "using" ∧
    u.children = name :: more ∧ name.name = library

theorem lowerProgram_programOf {files : FileStore} {lines : List Tree}
    (hlines : ∀ l ∈ lines, l.children ≠ []) (env : Env) :
    lowerProgram files env (programOf lines) = (do
      let (env, chip) ← lowerStatements files env (lines.filterMap fun l => l.children.head?)
      return (env, chipProgram chip)) := by
  have hstatements : Library.statements (programOf lines) =
      .ok (lines.filterMap fun l => l.children.head?) := by
    obtain ⟨ss, hss, -⟩ : ∃ ss, Library.statements (programOf lines) = .ok ss ∧ ∀ s ∈ ss, True := by
      refine exists_mapM_eq_ok fun l hl => ?_
      obtain ⟨s, rest, hs⟩ := List.exists_cons_of_ne_nil (hlines l hl)
      exact ⟨s, by rw [hs], trivial⟩
    rw [hss, statements_eq hss]
    rfl
  have hkind : ((programOf lines).kind != "program") = false := rfl
  rw [lowerProgram, hkind, hstatements]
  rfl

theorem heads_definitionLines (ss : List Tree) :
    ((definitionLines ss).filterMap fun l => l.children.head?) = ss.filter Library.isDefinition := by
  rw [definitionLines, List.filterMap_map]
  exact List.filterMap_some

section

variable {files : FileStore} {before after : List Tree} {line u name : Tree} {rest more : List Tree}
  (hline : line.children = u :: rest) (hu : u.kind = "using") (hname : u.children = name :: more)
  (hlines : ∀ l ∈ before ++ after, l.children ≠ []) (env : Env)

include hline hlines

/-- The program with the use of a library, from its statements. -/
theorem lowerProgram_using :
    lowerProgram files env (programOf (before ++ line :: after)) = (do
      let (env, chip) ← lowerStatements files env ((before.filterMap fun l => l.children.head?) ++
        u :: after.filterMap fun l => l.children.head?)
      return (env, chipProgram chip)) := by
  have hall : ∀ l ∈ before ++ line :: after, l.children ≠ [] := by
    simp only [List.forall_mem_append, List.forall_mem_cons] at hlines ⊢
    exact ⟨hlines.1, by simp [hline], hlines.2⟩
  rw [lowerProgram_programOf hall, List.filterMap_append,
    List.filterMap_cons_some (by rw [hline]; rfl)]

include hu hname

theorem sameEnd_of_library {ss : List Tree}
    (hload : Library.load files name.name = .ok (ss.filter Library.isDefinition)) (trace : Trace) :
    SameEnd ((lowerProgram files env (programOf (before ++ line :: after))).runFrom trace)
      ((lowerProgram files env (programOf (before ++ definitionLines ss ++ after))).runFrom
        trace) := by
  have hall : ∀ l ∈ before ++ definitionLines ss ++ after, l.children ≠ [] := by
    simp only [List.forall_mem_append] at hlines ⊢
    refine ⟨⟨hlines.1, fun l hl => ?_⟩, hlines.2⟩
    obtain ⟨d, -, rfl⟩ := List.mem_map.mp hl
    exact List.cons_ne_nil d []
  rw [lowerProgram_using hline hlines, lowerProgram_programOf hall, List.filterMap_append,
    List.filterMap_append, heads_definitionLines, List.append_assoc]
  refine .bind ?_ fun _ _ _ hu => .pure hu _
  rw [lowerStatements_append, lowerStatements_append]
  refine .bind (.of_eq rfl) fun a _ _ hprogress => ?_
  refine .bind (sameEnd_of_using hu hname hload (fun d hd => ?_) hprogress a.1 _) fun _ _ _ hu =>
    .pure hu _
  exact (List.mem_filter.mp hd).2

theorem runFrom_of_foreign_library {s : Tree}
    (hload : Library.load files name.name = .error (.diagnostic (.libraryStatement name.name s)))
    (trace : Trace) :
    ((lowerProgram files env (programOf (before ++ line :: after))).runFrom trace).1 =
      (((lowerProgram files env (programOf before)).runFrom trace).1.bind fun _ =>
        .error (.diagnostic (.libraryStatement name.name s))) := by
  have hbefore : ∀ l ∈ before, l.children ≠ [] := (List.forall_mem_append.mp hlines).1
  rw [lowerProgram_using hline hlines, lowerProgram_programOf hbefore, lowerStatements_append,
    runFrom_bind, runFrom_bind, runFrom_bind]
  -- what comes before either fails by itself, or lowering comes to the statement
  cases (lowerStatements files env (before.filterMap fun l => l.children.head?)).runFrom trace with
  | mk r t =>
    cases r with
    | error e => rfl
    | ok a =>
      have hforeign := runFrom_of_foreign hu hname hload a.1
        (after.filterMap fun l => l.children.head?) t
      dsimp only
      rw [runFrom_bind]
      generalize (lowerStatements files a.1 _).runFrom t = r at hforeign
      obtain ⟨r, t'⟩ := r
      obtain rfl : r = _ := hforeign
      rfl

end

/-- A text that has a derivation is read. -/
theorem exists_readProgram {source : String} {p : ParseTree} (h : IsSource source.toList p) :
    ∃ p' program, IsSource source.toList p' ∧ p'.toTree = .ok program ∧
      readProgram source = .ok program := by
  obtain ⟨p', hparse⟩ := exists_parse h
  have hsource := isSource_of_parse hparse
  obtain ⟨program, hp, -⟩ := shapedProgram_of_isSource hsource
  refine ⟨p', program, hsource, hp, ?_⟩
  unfold readProgram
  rw [hparse]
  dsimp only
  rw [hp]

theorem AlikeStatement.kind_eq {t t' : Tree} (h : AlikeStatement t t') : t.kind = t'.kind := by
  cases h <;> rfl

/-- The kinds of the statements of a program, from its parse tree. -/
def statementKinds (p : ParseTree) : Option (List String) :=
  p.toTree.toOption.map fun t => (sourceStatements t).map Tree.kind

/-- A library whose text is bracketed has the statements of any of its derivations, up to grouping. -/
theorem exists_contains {files : FileStore} {library path : String} {cs : List Char} {p : ParseTree}
    {kinds : List String}
    (hfile : Library.candidates files library = [⟨path, some (String.ofList cs)⟩])
    (hfeeds : '\r' ∉ cs) (hbracketed : isBracketedSource cs = true) (hsource : IsSource cs p)
    (hp : statementKinds p = some kinds) :
    ∃ ss, Library.Contains files library ss ∧ ss.map Tree.kind = kinds := by
  have htoList : (String.ofList cs).toList = cs := String.toList_ofList
  obtain ⟨p', program', hsource', hp', hread⟩ := exists_readProgram (htoList.symm ▸ hsource)
  rw [htoList] at hsource'
  obtain ⟨is, program₁, program₂, his, hp₁, hp₂, hreads, hreads'⟩ :=
    exists_pieces_of_isSource hbracketed hsource hsource'
  obtain rfl := Except.ok.inj (hp'.symm.trans hp₂)
  rw [statementKinds, hp₁] at hp
  obtain rfl := Option.some.inj hp
  have halike := alike_of_isBracketedProgram his hreads hreads'
  have hstatements := (statements_of_shapedProgram (shapedProgram_of_readProgram hread)).1
  have hread' : readProgram (String.ofList (Library.lineFeeds (String.ofList cs).toList))
      = .ok program' := by
    rw [htoList, Library.lineFeeds_of_not_mem hfeeds, hread]
  refine ⟨_, ⟨_, _, program', hfile, rfl, hread', hstatements⟩, ?_⟩
  have hkinds : List.Forall₂ (· = ·) ((sourceStatements program₁).map Tree.kind)
      ((sourceStatements program').map Tree.kind) := by
    rw [List.forall₂_map_left_iff, List.forall₂_map_right_iff]
    exact halike.imp fun _ _ h => h.kind_eq
  rw [List.forall₂_eq_eq_eq] at hkinds
  exact hkinds.symm

/-- A text with one macro, and its parse tree. -/
def negationSource : List Char :=
  "define f(number X) -> number = neg X\n// a macro".toList

def negationParse : ParseTree :=
  .branch "program" [
    .branch "line" [.branch "def_num" [.branch "macro" [.token "f"],
      .branch "param_group" [
        .branch "param" [.branch "type_num" [], .branch "variable" [.token "X"]]],
      .branch "num_unary" [.branch "neg" [], .branch "variable" [.token "X"]]]],
    .branch "line" [.branch "comment" [.token "// a macro"]]]

/-- A text with a statement that libraries may not hold, and its parse tree. -/
def exportSource : List Char :=
  "export B".toList

def exportParse : ParseTree :=
  .branch "program" [.branch "line" [.branch "export" [.branch "variable" [.token "B"]]]]

/-- Two libraries with these texts. -/
def libraryFiles : FileStore :=
  [⟨"lib/negation.lib.yovec", some (String.ofList negationSource)⟩,
    ⟨"lib/exports.lib.yovec", some (String.ofList exportSource)⟩]

theorem exists_negation : ∃ ss, Library.Contains libraryFiles "negation" ss ∧
    ss.map Tree.kind = ["def_num", "comment"] := by
  have hsource : IsSource negationSource negationParse :=
    @isSource_of_leftmost 80 [1, 1, 0, 3, 0, 0, 0, 0, 0, 0, 0, 0, 0, 0, 0, 0, 0, 0, 10, 0, 5, 0]
      _ _ rfl
  have hfile : Library.candidates libraryFiles "negation" =
      [⟨"lib/negation.lib.yovec", some (String.ofList negationSource)⟩] := rfl
  exact exists_contains hfile (by decide) (by decide +kernel) hsource (by decide +kernel)

theorem exists_exports : ∃ ss, Library.Contains libraryFiles "exports" ss ∧
    ss.map Tree.kind = ["export"] := by
  have hsource : IsSource exportSource exportParse :=
    @isSource_of_leftmost 40 [1, 0, 1, 0, 0] _ _ rfl
  have hfile : Library.candidates libraryFiles "exports" =
      [⟨"lib/exports.lib.yovec", some (String.ofList exportSource)⟩] := rfl
  exact exists_contains hfile (by decide) (by decide +kernel) hsource (by decide +kernel)

/-- A line that uses a library. -/
def usingLine (library : String) : Tree :=
  .node "line" [.node "using" [.text "library" library]]

theorem usesLibrary_usingLine (library : String) : UsesLibrary library (usingLine library) :=
  ⟨_, [], _, [], rfl, rfl, rfl, rfl⟩

/-- The lines `let number B = 1` and `let number A = f!(B)`. -/
def lineBefore : Tree :=
  .node "line" [.node "let_num" [.text "variable" "B", .text "number" "1"]]

def lineAfter : Tree :=
  .node "line" [.node "let_num" [.text "variable" "A",
    .macroCall "f" [.text "variable" "B"]]]

end Scalarize
