import Scalarize.Proofs.ChartSoundness
import Scalarize.Proofs.SourceShapes
import Scalarize.Proofs.Statements

/-!
# Scalarize — the macros of a source text

A macro comes from a definition in the program or in a library. Both are texts of the grammar, and
every definition is checked when it is lowered, so the macros of a lowered program have all that
later statements about macro calls need.

* **`MacroDef.Accepted`** — a macro of a definition that the grammar makes and the check accepts.
* **`load_cases`** — loading a library gives definitions of the right shape or a diagnostic.
* **`accepted_of_lowerStatement`**, **`accepted_of_lowerStatements`** — lowering a statement adds
  accepted macros only, and so all macros of a program are accepted.
-/

namespace Scalarize

open Traced Grammar

/-- A macro of a definition that the grammar makes and the check accepts. -/
structure MacroDef.Accepted (name : String) (m : MacroDef) : Prop extends m.Regular where
  sorted : ∃ s, m.returns = ValueSort.word s
  direct : ∀ c ∈ m.body.calls, c.calledName ≠ name

/-! ## Definitions -/

theorem MacroDef.of_check {name : String} {m m' : MacroDef} (h : m.check name = .ok m') :
    (∀ x ∈ m.body.variableNames, x ∈ m.paramNames) ∧ ∀ c ∈ m.body.calls, c.calledName ≠ name := by
  unfold MacroDef.check at h
  split at h
  · cases h
  · split at h
    · cases h
    · next hclosed =>
      split at h
      · cases h
      · next hdirect =>
        refine ⟨fun x hx => ?_, fun c hc hname => hdirect ?_⟩
        · simpa using List.find?_eq_none.mp hclosed x hx
        · exact List.any_eq_true.mpr ⟨c, hc, beq_iff_eq.mpr hname⟩

/-- A map over a list in which no element fails, and a property of all that it gives. -/
theorem exists_mapM_eq_ok {α β ε : Type} {f : α → Except ε β} {P : β → Prop} {xs : List α}
    (h : ∀ x ∈ xs, ∃ y, f x = .ok y ∧ P y) : ∃ ys, xs.mapM f = .ok ys ∧ ∀ y ∈ ys, P y := by
  induction xs with
  | nil => exact ⟨[], rfl, fun y hy => absurd hy List.not_mem_nil⟩
  | cons x xs ih =>
    obtain ⟨y, hy, hP⟩ := h x List.mem_cons_self
    obtain ⟨ys, hys, hall⟩ := ih fun x' hx' => h x' (List.mem_cons_of_mem _ hx')
    refine ⟨y :: ys, ?_, List.forall_mem_cons.mpr ⟨hP, hall⟩⟩
    rw [List.mapM_cons, hy, hys]
    rfl

/-- The parameters of a definition can be read, and say nothing about sorts. -/
theorem exists_params {ps : List Tree} (h : ∀ p ∈ ps, IsParam p) :
    ∃ params, ps.mapM paramOf = .ok params ∧ ∀ p ∈ params, p.sort = none := by
  refine exists_mapM_eq_ok fun p hp => ?_
  obtain ⟨sort, name, rest, hchildren, hsort⟩ := h p hp
  refine ⟨⟨sort.value.map Scalar.render, name.name⟩, ?_, by rw [hsort]; rfl⟩
  rw [paramOf, hchildren]

theorem definedSort?_eq_none {t : Tree} (h : Text.startsWith "def_" t.kind = false) :
    definedSort? t.kind = none := by
  unfold definedSort?
  split
  · next hk => rw [beq_iff_eq.mp hk] at h; exact absurd h (by decide)
  · split
    · next hk => rw [beq_iff_eq.mp hk] at h; exact absurd h (by decide)
    · split
      · next hk => rw [beq_iff_eq.mp hk] at h; exact absurd h (by decide)
      · rfl

/-- A statement that is named a definition is one. -/
theorem ShapedStatement.of_definition {t : Tree} (h : ShapedStatement t)
    (hdef : Text.startsWith "def_" t.kind = true) :
    ∃ s name params body rest, definedSort? t.kind = some s ∧
      t.children = name :: params :: body :: rest ∧ (∀ p ∈ params.children, IsParam p) ∧
      Shaped body := by
  cases h with
  | imports hkind => rw [hkind] at hdef; exact absurd hdef (by decide)
  | exports hkind => rw [hkind] at hdef; exact absurd hdef (by decide)
  | lets hkind =>
    rcases hkind with hkind | hkind | hkind <;> rw [hkind] at hdef <;>
      exact absurd hdef (by decide)
  | defines hkind hchildren hparams hbody =>
    rcases hkind with hkind | hkind | hkind <;>
      exact ⟨_, _, _, _, _, by rw [hkind]; rfl, hchildren, hparams, hbody⟩
  | uses hkind => rw [hkind] at hdef; exact absurd hdef (by decide)
  | comment hkind => rw [hkind] at hdef; exact absurd hdef (by decide)

theorem definedMacro?_eq_none {t : Tree} (h : Text.startsWith "def_" t.kind = false) :
    definedMacro? t = none := by
  unfold definedMacro?
  rw [definedSort?_eq_none h]
  split <;> rfl

theorem MacroDef.Accepted.of_definition {t : Tree} {d : String × MacroDef} (ht : ShapedStatement t)
    (hd : definedMacro? t = some d) (hcheck : d.2.check d.1 = .ok d.2) : d.2.Accepted d.1 := by
  have hdef : Text.startsWith "def_" t.kind = true := by
    by_contra hdef
    rw [definedMacro?_eq_none (Bool.eq_false_of_not_eq_true hdef)] at hd
    cases hd
  obtain ⟨s, name, params, body, rest, hsort, hchildren, hparams, hbody⟩ := ht.of_definition hdef
  obtain ⟨ps, hps, hunsorted⟩ := exists_params hparams
  unfold definedMacro? at hd
  rw [hchildren, hsort] at hd
  dsimp only [Option.bind_some] at hd
  rw [hps] at hd
  obtain rfl := Option.some.inj hd
  obtain ⟨hclosed, hdirect⟩ := MacroDef.of_check hcheck
  exact ⟨⟨hbody, hclosed, hunsorted⟩, ⟨s, rfl⟩, hdirect⟩

/-! ## Libraries -/

theorem statements_of_shapedProgram {program : Tree} (h : ShapedProgram program) :
    Library.statements program = .ok (sourceStatements program) ∧
      ∀ t ∈ sourceStatements program, ShapedStatement t := by
  obtain ⟨ts, hts, hshaped⟩ : ∃ ts, Library.statements program = .ok ts ∧
      ∀ t ∈ ts, ShapedStatement t := by
    refine exists_mapM_eq_ok fun line hline => ?_
    obtain ⟨t, rest, hchildren, ht⟩ := h.2 line hline
    exact ⟨t, by rw [hchildren], ht⟩
  rw [← statements_eq hts]
  exact ⟨hts, hshaped⟩

theorem shapedProgram_of_readProgram {source : String} {program : Tree}
    (h : readProgram source = .ok program) : ShapedProgram program := by
  unfold readProgram at h
  split at h
  · cases h
  · next p hp =>
    obtain ⟨program', hprogram, hshaped⟩ := shapedProgram_of_isSource (isSource_of_parse hp)
    rw [hprogram] at h
    rwa [← Except.ok.inj h]

theorem mem_of_definitions {library : String} {ss ds : List Tree}
    (h : Library.definitions library ss = .ok ds) :
    ∀ d ∈ ds, d ∈ ss ∧ Text.startsWith "def_" d.kind = true := by
  induction ss generalizing ds with
  | nil =>
    obtain rfl := Except.ok.inj h
    exact fun d hd => absurd hd List.not_mem_nil
  | cons s ss ih =>
    rw [Library.definitions] at h
    split at h
    · exact fun d hd => (ih h d hd).imp_left (List.mem_cons_of_mem s)
    · split at h
      · next hdef =>
        cases hss : Library.definitions library ss with
        | error e => rw [hss] at h; cases h
        | ok ds' =>
          rw [hss] at h
          obtain rfl := Except.ok.inj h
          refine List.forall_mem_cons.mpr ⟨⟨List.mem_cons_self, hdef⟩, fun d hd => ?_⟩
          exact (ih hss d hd).imp_left (List.mem_cons_of_mem s)
      · cases h

/-- Loading a library gives definitions of the right shape or a diagnostic. -/
theorem load_cases (files : FileStore) (library : String) :
    (∃ ds, Library.load files library = .ok ds ∧
      ∀ d ∈ ds, ShapedStatement d ∧ Text.startsWith "def_" d.kind = true) ∨
    ∃ e, Library.load files library = .error (.diagnostic e) := by
  unfold Library.load
  split
  · exact .inr ⟨_, rfl⟩
  · split
    · exact .inr ⟨_, rfl⟩
    · split
      · exact .inr ⟨_, rfl⟩
      · next program hprogram =>
        obtain ⟨hstatements, hshaped⟩ :=
          statements_of_shapedProgram (shapedProgram_of_readProgram hprogram)
        rw [hstatements]
        dsimp only
        split
        · exact .inr ⟨_, rfl⟩
        · next ds hds =>
          refine .inl ⟨ds, rfl, fun d hd => ?_⟩
          exact (mem_of_definitions hds d hd).imp_left (hshaped d)
  · exact .inr ⟨_, rfl⟩

theorem shapedStatement_of_brought {files : FileStore} {t : Tree} (ht : ShapedStatement t) :
    ∀ d ∈ broughtDefinitions files t, ShapedStatement d := by
  unfold broughtDefinitions
  split
  · exact List.forall_mem_singleton.mpr ht
  · split
    · split
      · next library _ _ =>
        rcases load_cases files library.name with ⟨ds, hload, hds⟩ | ⟨e, hload⟩
        · rw [hload]
          exact fun d hd => (hds d hd).1
        · rw [hload]
          exact fun d hd => absurd hd List.not_mem_nil
      · exact fun d hd => absurd hd List.not_mem_nil
    · exact fun d hd => absurd hd List.not_mem_nil

/-! ## Programs -/

section

variable {files : FileStore} {env env' : Env}

/-- A statement of the right shape adds accepted macros only. -/
theorem accepted_of_lowerStatement {t : Tree} {line? : Option Tree} (ht : ShapedStatement t)
    (henv : ∀ d ∈ env.macros, d.2.Accepted d.1)
    (h : (lowerStatement files env t).Returns (env', line?)) :
    ∀ d ∈ env'.macros, d.2.Accepted d.1 := by
  rcases lowerStatement_cases h with ⟨-, hquiet⟩ | ⟨_, _, _, -, -, -, hbind, -, -⟩
  · rw [hquiet.macros_eq]
    refine List.forall_mem_append.mpr ⟨henv, fun d hd => ?_⟩
    obtain ⟨u, hu, hud⟩ := List.mem_filterMap.mp hd
    exact .of_definition (shapedStatement_of_brought ht u hu) hud (hquiet.checked d hd)
  · rwa [Env.macros_of_bind hbind]

theorem accepted_of_lowerStatements {ts lines : List Tree} (hts : ∀ t ∈ ts, ShapedStatement t)
    (henv : ∀ d ∈ env.macros, d.2.Accepted d.1)
    (h : (lowerStatements files env ts).Returns (env', lines)) :
    ∀ d ∈ env'.macros, d.2.Accepted d.1 := by
  induction ts generalizing env lines with
  | nil =>
    rw [lowerStatements] at h
    rwa [(Prod.mk.inj h.of_pure).1]
  | cons t ts ih =>
    rw [lowerStatements] at h
    obtain ⟨⟨env₁, line?⟩, ht, h⟩ := h.of_bind
    obtain ⟨⟨env₂, lines'⟩, hrest, h⟩ := h.of_bind
    obtain ⟨rfl, rfl⟩ := Prod.mk.inj h.of_pure
    exact ih (fun u hu => hts u (List.mem_cons_of_mem _ hu))
      (accepted_of_lowerStatement (hts t List.mem_cons_self) henv ht) hrest

/-- All macros of a program of the grammar are accepted. -/
theorem accepted_of_lowerProgram {program chip : Tree} (hprogram : ShapedProgram program)
    (h : (lowerProgram files .empty program).Returns (env', chip)) :
    ∀ d ∈ env'.macros, d.2.Accepted d.1 := by
  obtain ⟨hstatements, hshaped⟩ := statements_of_shapedProgram hprogram
  unfold lowerProgram at h
  rw [hstatements] at h
  split at h
  · exact absurd h not_returns_give
  · obtain ⟨⟨env₁, lines⟩, hlines, h⟩ := h.of_bind
    obtain ⟨rfl, rfl⟩ := Prod.mk.inj h.of_pure
    exact accepted_of_lowerStatements hshaped (fun d hd => absurd hd List.not_mem_nil) hlines

end

/-! ## A sample -/

/-- A call of a macro. -/
def Tree.macroCall (name : String) (args : List Tree) : Tree :=
  .node "call" [.text "macro" name, .node "args" args]

/-- A source text with two macros, one of which hands its parameter on to the other. -/
def macroSource : List Char :=
  "define f(number X) -> number = neg X\n".toList ++
  "define g(number Y, number X) -> number = f!(Y)\n".toList ++
  "let number A = g!(1, 2)".toList

/-- The parse tree of `macroSource`. -/
def macroParse : ParseTree :=
  .branch "program" [
    .branch "line" [.branch "def_num" [.branch "macro" [.token "f"],
      .branch "param_group" [
        .branch "param" [.branch "type_num" [], .branch "variable" [.token "X"]]],
      .branch "num_unary" [.branch "neg" [], .branch "variable" [.token "X"]]]],
    .branch "line" [.branch "def_num" [.branch "macro" [.token "g"],
      .branch "param_group" [
        .branch "param" [.branch "type_num" [], .branch "variable" [.token "Y"]],
        .branch "param" [.branch "type_num" [], .branch "variable" [.token "X"]]],
      .branch "call" [.branch "macro" [.token "f"],
        .branch "args" [.branch "variable" [.token "Y"]]]]],
    .branch "line" [.branch "let_num" [.branch "variable" [.token "A"],
      .branch "call" [.branch "macro" [.token "g"],
        .branch "args" [.branch "number" [.token "1"], .branch "number" [.token "2"]]]]]]

set_option maxRecDepth 2000 in
theorem macroSource_isSource : IsSource macroSource macroParse :=
  @isSource_of_leftmost 80 [1, 1, 1, 0,
    3, 0, 0, 0, 0, 0, 0, 0, 0, 0, 0, 0, 0, 0, 0, 10, 0,
    3, 0, 0, 0, 1, 0, 0, 0, 0, 0, 0, 0, 0, 0, 11, 0, 0, 0, 0, 0, 0, 0, 10, 0,
    2, 0, 0, 0, 0, 11, 0, 0, 0, 1, 0, 0, 0, 0, 12, 0, 0, 0, 0, 12, 0] _ _ rfl

/-- The program of `macroSource`. -/
def macroProgram : Tree :=
  .node "program" [
    .node "line" [.node "def_num" [.text "macro" "f",
      .node "param_group" [.node "param" [.node "type_num" [], .text "variable" "X"]],
      .node "num_unary" [.node "neg" [], .text "variable" "X"]]],
    .node "line" [.node "def_num" [.text "macro" "g",
      .node "param_group" [.node "param" [.node "type_num" [], .text "variable" "Y"],
        .node "param" [.node "type_num" [], .text "variable" "X"]],
      .macroCall "f" [.text "variable" "Y"]]],
    .node "line" [.node "let_num" [.text "variable" "A",
      .macroCall "g" [.text "number" "1", .text "number" "2"]]]]

theorem macroParse_toTree : macroParse.toTree = .ok macroProgram := by
  simp only [macroParse, ParseTree.toTree, ParseTree.toTrees]
  rfl

end Scalarize
