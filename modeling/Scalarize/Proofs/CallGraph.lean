import Scalarize.Proofs.SourceMacros
import Scalarize.Proofs.Unfolding

/-!
# Scalarize — macros that call each other

A definition is checked against its own name only, and its body may call macros that are defined
later. So no macro calls itself, but two macros can call each other, and then their calls are
expanded without end.

* **`Env.Calls`** — the call graph of an environment.
* **`forward_of_cycle`** — a cycle of calls has a call of a macro that is defined later.
* **`exists_unfolds_of_cycleFree`** — an expression that comes to no cycle unfolds.
* **`lowerProgram_callGraph`** — this for the environment of a lowered program.
* **`lowerProgram_accepts_cycle`** — a program with a cycle is lowered.
-/

namespace Scalarize

open Traced Grammar Relation

namespace Env

/-- Both are macros, and the body of the first has a call of the second. -/
def Calls (env : Env) (f g : String) : Prop :=
  (∃ m, env.findMacro? f = some m ∧ ∃ c ∈ m.body.calls, c.calledName = g) ∧
    ∃ m, env.findMacro? g = some m

/-- The place of a macro in the order of definitions. -/
def position (env : Env) (f : String) : Nat :=
  (env.macros.map Prod.fst).idxOf f

/-- No cycle of calls can be reached from the macro. -/
def CycleFree (env : Env) (f : String) : Prop :=
  ∀ g, ReflTransGen env.Calls f g → ¬ TransGen env.Calls g g

variable {env : Env} {f g : String}

theorem mem_names {m : MacroDef} (h : env.findMacro? f = some m) : f ∈ env.macros.map Prod.fst :=
  List.mem_map_of_mem (mem_of_lookup h)

theorem Calls.right_mem (h : env.Calls f g) : g ∈ env.macros.map Prod.fst := by
  obtain ⟨-, m, hm⟩ := h
  exact mem_names hm

theorem CycleFree.of_calls (hf : env.CycleFree f) (h : env.Calls f g) : env.CycleFree g :=
  fun k hk => hf k (.head h hk)

/-! ## Cycles -/

section

variable (hdirect : ∀ f, ¬ env.Calls f f)

include hdirect

theorem position_ne_of_calls (h : env.Calls f g) : env.position g ≠ env.position f := by
  intro heq
  obtain rfl := (List.idxOf_inj h.right_mem).mp heq
  exact hdirect _ h

/-- Calls lead to macros that are defined earlier, unless one leads to a later one. -/
theorem position_lt_or_forward (h : TransGen env.Calls f g) : env.position g < env.position f ∨
    ∃ a b, ReflTransGen env.Calls f a ∧ env.Calls a b ∧ ReflTransGen env.Calls b g ∧
      env.position a < env.position b := by
  induction h with
  | @single b h =>
    rcases lt_or_gt_of_ne (position_ne_of_calls hdirect h) with hlt | hgt
    · exact .inl hlt
    · exact .inr ⟨f, b, .refl, h, .refl, hgt⟩
  | @tail a b hfa h ih =>
    rcases ih with hlt | ⟨c, d, hfc, hcd, hda, hforward⟩
    -- so far the calls lead back, and the last one does too or is the one that leads on
    · rcases lt_or_gt_of_ne (position_ne_of_calls hdirect h) with hlt' | hgt
      · exact .inl (hlt'.trans hlt)
      · exact .inr ⟨a, b, hfa.to_reflTransGen, h, .refl, hgt⟩
    · exact .inr ⟨c, d, hfc, hcd, hda.tail h, hforward⟩

/-- A cycle of calls has a call of a macro that is defined later. -/
theorem forward_of_cycle (h : TransGen env.Calls f f) :
    ∃ a b, ReflTransGen env.Calls f a ∧ env.Calls a b ∧ ReflTransGen env.Calls b f ∧
      env.position a < env.position b :=
  (position_lt_or_forward hdirect h).resolve_left (lt_irrefl _)

end

/-! ## Expressions that come to no cycle -/

theorem wellFounded_of_acyclic {α : Type} [Finite α] {r : α → α → Prop}
    (h : ∀ a, ¬ TransGen r a a) : WellFounded r := by
  have hirrefl : Std.Irrefl (TransGen r) := ⟨h⟩
  have hwf : WellFounded (TransGen r) := Finite.wellFounded_of_trans_of_irrefl _
  exact Subrelation.wf (fun h => .single h) hwf

/-- Along calls that come to no cycle one cannot go on without end, since there are finitely many
macros. -/
theorem wellFounded_calls (env : Env) :
    WellFounded fun g f : {x // x ∈ env.macros.map Prod.fst} =>
      env.Calls f.1 g.1 ∧ env.CycleFree f.1 := by
  refine wellFounded_of_acyclic fun f hf => ?_
  have hfree : env.CycleFree f.1 := by
    cases hf with
    | single h => exact h.2
    | tail _ h => exact h.2
  exact hfree f.1 .refl (transGen_swap.mp (hf.lift Subtype.val fun _ _ h => h.1))

theorem exists_unfolds_body (hmacros : ∀ d ∈ env.macros, d.2.Regular) {m : MacroDef}
    (hf : env.CycleFree f) (hm : env.findMacro? f = some m) :
    ∃ n, Unfolds env.macros n m.body := by
  obtain ⟨f', rfl⟩ : ∃ f' : {x // x ∈ env.macros.map Prod.fst}, f'.1 = f :=
    ⟨⟨f, mem_names hm⟩, rfl⟩
  induction f' using (wellFounded_calls env).induction generalizing m with
  | h f' ih =>
    -- a body unfolds if the bodies of the macros that it calls do
    refine exists_unfolds hmacros fun c hc m' hm' => ?_
    have hcalls : env.Calls f'.1 c.calledName := ⟨⟨m, hm, c, hc, rfl⟩, m', hm'⟩
    exact ih ⟨c.calledName, mem_names hm'⟩ ⟨hcalls, hf⟩ (hf.of_calls hcalls) hm'

/-- An expression whose macros come to no cycle unfolds. -/
theorem exists_unfolds_of_cycleFree (hmacros : ∀ d ∈ env.macros, d.2.Regular) {t : Tree}
    (ht : ∀ c ∈ t.calls, env.CycleFree c.calledName) : ∃ n, Unfolds env.macros n t :=
  exists_unfolds hmacros fun c hc _ hm => exists_unfolds_body hmacros (ht c hc) hm

end Env

/-! ## Programs -/

theorem not_calls_self {env : Env} (hmacros : ∀ d ∈ env.macros, d.2.Accepted d.1) (f : String) :
    ¬ env.Calls f f := by
  rintro ⟨⟨m, hm, c, hc, hname⟩, -⟩
  exact (hmacros _ (mem_of_lookup hm)).direct c hc hname

/-- In the environment of a lowered program no macro calls itself, and every cycle of calls has a
call of a macro that is defined later. An expression whose macros come to no cycle unfolds, and the
evaluators do not run out of depth on it. -/
theorem lowerProgram_callGraph {files : FileStore} {source : List Char} {p : ParseTree}
    {program chip : Tree} {env : Env} (hsource : IsSource source p) (hp : p.toTree = .ok program)
    (h : (lowerProgram files .empty program).Returns (env, chip)) :
    (∀ f, ¬ env.Calls f f) ∧
    (∀ f, TransGen env.Calls f f → ∃ a b, ReflTransGen env.Calls f a ∧ env.Calls a b ∧
      ReflTransGen env.Calls b f ∧ env.position a < env.position b) ∧
    ∀ t, (∀ c ∈ t.calls, env.CycleFree c.calledName) → (∃ n, Unfolds env.macros n t) ∧
      ∀ s trace, ((evaluate env s t).runFrom trace).1 ≠ .error (.fault .endlessExpansion) := by
  obtain ⟨program', hp', hprogram⟩ := shapedProgram_of_isSource hsource
  obtain rfl := Except.ok.inj (hp.symm.trans hp')
  have haccepted := accepted_of_lowerProgram hprogram h
  have hregular : ∀ d ∈ env.macros, d.2.Regular := fun d hd => (haccepted d hd).toRegular
  have hdirect := not_calls_self haccepted
  refine ⟨hdirect, fun f => Env.forward_of_cycle hdirect, fun t ht => ?_⟩
  obtain ⟨n, hn⟩ := Env.exists_unfolds_of_cycleFree hregular ht
  refine ⟨⟨n, hn⟩, fun s trace hends => ?_⟩
  have hends' := ends_runFrom (evaluate env s t) trace
  rw [hends, evaluate_eq_evaluateAt] at hends'
  exact (unfolds_depthBound hregular hn).not_endless hends'

theorem lowerProgram_callGraph_macroSource :
    ∃ env chip, (lowerProgram [] .empty macroProgram).Returns (env, chip) ∧
    (∀ f, ¬ env.Calls f f) ∧
    (∀ f, TransGen env.Calls f f → ∃ a b, ReflTransGen env.Calls f a ∧ env.Calls a b ∧
      ReflTransGen env.Calls b f ∧ env.position a < env.position b) ∧
    ∀ t, (∀ c ∈ t.calls, env.CycleFree c.calledName) → (∃ n, Unfolds env.macros n t) ∧
      ∀ s trace, ((evaluate env s t).runFrom trace).1 ≠ .error (.fault .endlessExpansion) := by
  obtain ⟨⟨env, chip⟩, h⟩ : ∃ r, (lowerProgram [] .empty macroProgram).Returns r :=
    exists_returns (t := .start) (by decide)
  exact ⟨env, chip, h, lowerProgram_callGraph macroSource_isSource macroParse_toTree h⟩

/-! ## A cycle of two macros -/

/-- A source text with two macros that call each other. -/
def cycleSource : List Char :=
  "define f(number X) -> number = g!(X)\n".toList ++
  "define g(number X) -> number = f!(X)\n".toList ++ "let number A = 1\nexport A".toList

/-- The parse tree of `cycleSource`. -/
def cycleParse : ParseTree :=
  let definition (f g : String) : ParseTree :=
    .branch "line" [.branch "def_num" [.branch "macro" [.token f],
      .branch "param_group" [
        .branch "param" [.branch "type_num" [], .branch "variable" [.token "X"]]],
      .branch "call" [.branch "macro" [.token g],
        .branch "args" [.branch "variable" [.token "X"]]]]]
  .branch "program" [definition "f" "g", definition "g" "f",
    .branch "line" [.branch "let_num" [.branch "variable" [.token "A"],
      .branch "number" [.token "1"]]],
    .branch "line" [.branch "export" [.branch "variable" [.token "A"]]]]

set_option maxRecDepth 2000 in
theorem cycleSource_isSource : IsSource cycleSource cycleParse :=
  @isSource_of_leftmost 80 [1, 1, 1, 1, 0,
    3, 0, 0, 0, 0, 0, 0, 0, 0, 0, 11, 0, 0, 0, 0, 0, 0, 0, 10, 0,
    3, 0, 0, 0, 0, 0, 0, 0, 0, 0, 11, 0, 0, 0, 0, 0, 0, 0, 10, 0,
    2, 0, 0, 0, 0, 12, 0, 1, 0, 0] _ _ rfl

/-- The program of `cycleSource`. -/
def cycleProgram : Tree :=
  let definition (f g : String) : Tree :=
    .node "line" [.node "def_num" [.text "macro" f,
      .node "param_group" [.node "param" [.node "type_num" [], .text "variable" "X"]],
      .macroCall g [.text "variable" "X"]]]
  .node "program" [definition "f" "g", definition "g" "f",
    .node "line" [.node "let_num" [.text "variable" "A", .text "number" "1"]],
    .node "line" [.node "export" [.text "variable" "A"]]]

theorem cycleParse_toTree : cycleParse.toTree = .ok cycleProgram := by
  simp only [cycleParse, ParseTree.toTree, ParseTree.toTrees]
  rfl

/-- The macros of `cycleSource`. -/
def cycleMacros : Macros :=
  [("f", ⟨[⟨none, "X"⟩], "number", .macroCall "g" [.text "variable" "X"]⟩),
    ("g", ⟨[⟨none, "X"⟩], "number", .macroCall "f" [.text "variable" "X"]⟩)]

theorem cycleMacros_not_unfolds (n : Nat) (e : Tree) :
    ¬ Unfolds cycleMacros n (.macroCall "f" [e]) ∧
      ¬ Unfolds cycleMacros n (.macroCall "g" [e]) := by
  induction n with
  | zero => exact ⟨id, id⟩
  | succ n ih =>
    -- either call is expanded to the other, with the same argument
    exact ⟨fun h => ih.2 (h.2 rfl _ rfl), fun h => ih.1 (h.2 rfl _ rfl)⟩

/-- Two macros that call each other are accepted, and no call of them can be expanded to the end. -/
theorem lowerProgram_accepts_cycle :
    IsSource cycleSource cycleParse ∧ cycleParse.toTree = .ok cycleProgram ∧
    ∃ env chip, (lowerProgram [] .empty cycleProgram).Returns (env, chip) ∧
      TransGen env.Calls "f" "f" ∧ ∀ n e, ¬ Unfolds env.macros n (.macroCall "f" [e]) := by
  refine ⟨cycleSource_isSource, cycleParse_toTree, ?_⟩
  obtain ⟨⟨env, chip⟩, h⟩ : ∃ r, (lowerProgram [] .empty cycleProgram).Returns r :=
    exists_returns (t := .start) (by decide)
  obtain ⟨-, -, -, hmacros⟩ := lowers_of_lowerProgram h
  replace hmacros : env.macros = cycleMacros := hmacros
  have hcalls : env.Calls "f" "g" ∧ env.Calls "g" "f" := by
    unfold Env.Calls Env.findMacro?
    rw [hmacros]
    exact ⟨⟨⟨_, rfl, _, List.mem_cons_self, rfl⟩, _, rfl⟩,
      ⟨⟨_, rfl, _, List.mem_cons_self, rfl⟩, _, rfl⟩⟩
  refine ⟨env, chip, h, .tail (.single hcalls.1) hcalls.2, fun n e => ?_⟩
  rw [hmacros]
  exact (cycleMacros_not_unfolds n e).1

end Scalarize
