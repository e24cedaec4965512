import Scalarize.Proofs.BracketedPrograms
import Scalarize.Proofs.EvaluationDepth
import Scalarize.Proofs.MacroExpansion

/-!
# Scalarize — the declared sorts of parameters

A definition declares a sort for each parameter of its macro. The node that declares it has the sort
in its kind and no value, but a parameter takes its sort from the value; so the declared sorts are
lost, and a call is held to the number of its arguments only. What is wrong with an argument comes
out where the body uses it, or not at all.

* **`definitionTree`** — a definition with its declared sorts.
* **`Retyped`**, **`gives_of_retyped`** — programs that differ in declared sorts only are lowered to
  the same.
* **`evaluateAt_macroCall`** — a call is evaluated as what it expands to.
* **`parameterSorts_unenforced`** — what becomes of the declared sorts.
-/

namespace Scalarize

open Traced Grammar

/-! ## Declared sorts -/

/-- The kind of the node that declares a sort. -/
def typeKind : ValueSort → String
  | .number => "type_num"
  | .vector => "type_vec"
  | .matrix => "type_mat"

/-- A parameter and its declared sort. -/
def paramTree (p : ValueSort × String) : Tree :=
  .node "param" [.node (typeKind p.1) [], .text "variable" p.2]

/-- The definition of a macro that gives a value of sort `s`. -/
def definitionTree (s : ValueSort) (name : String) (params : List (ValueSort × String))
    (body : Tree) : Tree :=
  .node (defineKind s) [.text "macro" name, .node "param_group" (params.map paramTree), body]

theorem Grammar.Reads.exists_paramTree {is : List Piece} {t : Tree} (h : Reads .param is [t]) :
    ∃ p, t = paramTree p := by
  obtain ⟨w, hw, x, -, -, ht⟩ := h.of_param
  have htypes : ∀ w ∈ ruleWords .type, ∃ s, w.2 = typeKind s := by
    have hwords : ruleWords .type =
      [("number", "type_num"), ("vector", "type_vec"), ("matrix", "type_mat")] := rfl
    rw [hwords]
    simp only [List.forall_mem_cons]
    exact ⟨⟨.number, rfl⟩, ⟨.vector, rfl⟩, ⟨.matrix, rfl⟩, fun w hw => absurd hw List.not_mem_nil⟩
  obtain ⟨s, hs⟩ := htypes w hw
  rw [hs] at ht
  exact ⟨(s, x), List.singleton_inj.mp ht⟩

theorem Grammar.Reads.exists_paramTrees {is : List Piece} {ts : List Tree}
    (h : Reads .params is ts) :
    ∃ params : List (ValueSort × String), ts = params.map paramTree := by
  obtain ⟨segs, -, -, hreads⟩ := h.of_commas rfl rfl
  clear h
  induction hreads with
  | nil => exact ⟨[], rfl⟩
  | cons ht _ ih =>
    obtain ⟨p, rfl⟩ := ht.exists_paramTree
    obtain ⟨params, rfl⟩ := ih
    exact ⟨p :: params, rfl⟩

/-- A definition of a source text declares a sort for each parameter. -/
theorem Grammar.StatementReads.exists_definitionTree {is : List Piece} {t : Tree}
    (h : StatementReads is t) (hkind : Text.startsWith "def_" t.kind = true) :
    ∃ s name params body, t = definitionTree s name params body := by
  cases h with
  | defines hparams =>
    obtain ⟨params, rfl⟩ := hparams.exists_paramTrees
    exact ⟨_, _, params, _, rfl⟩
  | @lets s =>
    have hnot : Text.startsWith "def_" (letKind s) = false := by cases s <;> decide
    exact absurd (hnot.symm.trans hkind) Bool.false_ne_true
  | imports => exact absurd hkind (by simp only [Tree.node, Tree.kind]; decide)
  | exports => exact absurd hkind (by simp only [Tree.node, Tree.kind]; decide)
  | exportsAs => exact absurd hkind (by simp only [Tree.node, Tree.kind]; decide)
  | uses => exact absurd hkind (by simp only [Tree.node, Tree.kind]; decide)
  | comment => exact absurd hkind (by simp only [Tree.text, Tree.kind]; decide)

/-- The macro of a definition: its parameters have names and no sorts. -/
def unsortedMacro (s : ValueSort) (names : List String) (body : Tree) : MacroDef :=
  ⟨names.map (⟨none, ·⟩), s.word, body⟩

theorem paramNames_unsortedMacro (s : ValueSort) (names : List String) (body : Tree) :
    (unsortedMacro s names body).paramNames = names := by
  rw [MacroDef.paramNames, unsortedMacro, List.map_map]
  exact List.map_id _

theorem arity_unsortedMacro (s : ValueSort) (names : List String) (body : Tree) :
    (unsortedMacro s names body).arity = names.length := by
  rw [MacroDef.arity, unsortedMacro, List.length_map]

theorem mapM_paramOf (params : List (ValueSort × String)) :
    (params.map paramTree).mapM paramOf = .ok ((params.map Prod.snd).map (⟨none, ·⟩)) := by
  induction params with
  | nil => rfl
  | cons p params ih =>
    rw [List.map_cons, List.mapM_cons, ih]
    rfl

theorem definedSort?_defineKind (s : ValueSort) : definedSort? (defineKind s) = some s := by
  cases s <;> rfl

theorem definedMacro?_definitionTree (s : ValueSort) (name : String)
    (params : List (ValueSort × String)) (body : Tree) :
    definedMacro? (definitionTree s name params body) =
      some (name, unsortedMacro s (params.map Prod.snd) body) := by
  simp only [definedMacro?, definitionTree, Tree.node, Tree.children, Tree.kind,
    definedSort?_defineKind, Option.bind_some, mapM_paramOf]
  rfl

/-! ## Programs with other declared sorts -/

/-- Two statements that differ in declared sorts only. -/
inductive Retyped : Tree → Tree → Prop where
  | same (t) : Retyped t t
  | defines {s name params params' body} (h : params.map Prod.snd = params'.map Prod.snd) :
      Retyped (definitionTree s name params body) (definitionTree s name params' body)

theorem Retyped.symm {t t' : Tree} (h : Retyped t t') : Retyped t' t := by
  cases h with
  | same => exact .same t
  | defines h => exact .defines h.symm

theorem Traced.Gives.eq_of_returns {α : Type} {x : Traced α} {a b : α} (hx : x.Gives a)
    (h : x.Returns b) : b = a := by
  obtain ⟨t, t', h⟩ := h
  have ha := hx t
  rw [h] at ha
  exact Except.ok.inj ha

/-- A definition with other declared sorts defines the same macro. -/
theorem gives_lowerDefine_of_retyped {env env' : Env} {s : ValueSort} {name : String} {body : Tree}
    {params params' : List (ValueSort × String)}
    (hnames : params.map Prod.snd = params'.map Prod.snd)
    (h : (lowerDefine env (definitionTree s name params body)).Returns env') :
    (lowerDefine env (definitionTree s name params' body)).Gives env' := by
  obtain ⟨d, hd, hcheck, hdefine⟩ := define_of_lowerDefine h
  rw [definedMacro?_definitionTree, hnames] at hd
  obtain rfl := Option.some.inj hd
  refine (gives_note _).bind ?_
  simp only [definitionTree, Tree.node, Tree.children, Tree.kind, definedSort?_defineKind,
    mapM_paramOf]
  exact (gives_check hcheck).bind ((gives_check hdefine).bind
    ((gives_note _).bind (gives_pure _)))

section

variable {files : FileStore} {env env₁ : Env}

/-- A statement with other declared sorts is lowered to the same. -/
theorem gives_lowerStatement_of_retyped {t t' : Tree} {line? : Option Tree} (ht : Retyped t t')
    (hself : AlikeStatement t t) (henv : env.Alike env) (hmacros : ∀ d ∈ env.macros, d.2.Regular)
    (h : (lowerStatement files env t).Returns (env₁, line?)) :
    (lowerStatement files env t').Gives (env₁, line?) ∧ env₁.Alike env₁ := by
  -- a statement is alike to itself, so that it succeeds from every trace if it does from one
  obtain ⟨env₁', hgives, halike⟩ := gives_lowerStatement henv hself hmacros h
  obtain ⟨rfl, -⟩ := Prod.mk.inj (hgives.eq_of_returns h)
  refine ⟨?_, halike⟩
  cases ht with
  | same => exact hgives
  | defines hnames =>
    rw [lowerStatement_of_defineKind rfl] at h ⊢
    obtain ⟨env₂, hdefine, h⟩ := h.of_bind
    obtain ⟨rfl, rfl⟩ := Prod.mk.inj h.of_pure
    exact (gives_lowerDefine_of_retyped hnames hdefine).bind (gives_pure _)

/-- Statements with other declared sorts, one after the other. -/
theorem gives_lowerStatements_of_retyped {ts ts' lines : List Tree}
    (hts : List.Forall₂ Retyped ts ts')
    (hself : ∀ t ∈ ts, AlikeStatement t t ∧ ShapedStatement t) (henv : env.Alike env)
    (hmacros : ∀ d ∈ env.macros, d.2.Accepted d.1)
    (h : (lowerStatements files env ts).Returns (env₁, lines)) :
    (lowerStatements files env ts').Gives (env₁, lines) := by
  induction hts generalizing env lines with
  | nil =>
    rw [lowerStatements] at h
    rw [h.of_pure]
    exact gives_pure _
  | cons ht _ ih =>
    rw [List.forall_mem_cons] at hself
    rw [lowerStatements] at h
    obtain ⟨⟨env₂, line?⟩, hfirst, h⟩ := h.of_bind
    obtain ⟨⟨env₃, lines'⟩, hrest, h⟩ := h.of_bind
    obtain ⟨rfl, rfl⟩ := Prod.mk.inj h.of_pure
    obtain ⟨hgives, henv₂⟩ := gives_lowerStatement_of_retyped ht hself.1.1 henv
      (fun d hd => (hmacros d hd).toRegular) hfirst
    have hmacros₂ := accepted_of_lowerStatement hself.1.2 hmacros hfirst
    rw [lowerStatements]
    exact hgives.bind ((ih hself.2 henv₂ hmacros₂ hrest).bind (gives_pure _))

end

/-- A program with other declared sorts is lowered to the same. -/
theorem gives_of_retyped {files : FileStore} {source source' : List Char} {p p' : ParseTree}
    {program program' : Tree} {r : Env × Tree} (hsource : IsSource source p)
    (hp : p.toTree = .ok program) (hsource' : IsSource source' p') (hp' : p'.toTree = .ok program')
    (hretyped : List.Forall₂ Retyped (sourceStatements program) (sourceStatements program'))
    (h : (lowerProgram files .empty program).Returns r) :
    (lowerProgram files .empty program').Gives r := by
  obtain ⟨_, heq, hprogram⟩ := shapedProgram_of_isSource hsource
  obtain ⟨_, heq', hprogram'⟩ := shapedProgram_of_isSource hsource'
  obtain rfl := Except.ok.inj (hp.symm.trans heq)
  obtain rfl := Except.ok.inj (hp'.symm.trans heq')
  obtain ⟨hstatements, hshaped⟩ := statements_of_shapedProgram hprogram
  obtain ⟨hstatements', -⟩ := statements_of_shapedProgram hprogram'
  have hself : ∀ t ∈ sourceStatements program, AlikeStatement t t ∧ ShapedStatement t :=
    fun t ht => by
      obtain ⟨is, hreads⟩ := statements_of_isSource hsource hp t ht
      exact ⟨alikeStatement_self hreads, hshaped t ht⟩
  have hempty : Env.empty.Alike .empty := ⟨⟨[], .nil, .nil⟩, rfl⟩
  unfold lowerProgram at h ⊢
  rw [if_neg (by rw [hprogram.1]; decide), hstatements] at h
  rw [if_neg (by rw [hprogram'.1]; decide), hstatements']
  obtain ⟨⟨env, lines⟩, hlines, h⟩ := h.of_bind
  rw [h.of_pure]
  exact (gives_lowerStatements_of_retyped hretyped hself hempty
    (fun d hd => absurd hd List.not_mem_nil) hlines).bind (gives_pure _)

/-! ## Calls -/

section

variable {env : Env} {s : ValueSort} {name : String} {m : MacroDef} {args args' : List Tree}

/-- A call is evaluated as what it expands to, if it expands. -/
theorem evaluateAt_macroCall (hm : env.findMacro? name = some m) (hs : m.returns = s.word)
    (n : Nat) (args : List Tree) :
    evaluateAt env s (n + 1) (.macroCall name args) =
      enterExpression (.macroCall name args) >>= fun _ =>
        check (m.call args) >>= evaluateAt env s n := by
  have hexpand : expandCall env s (Tree.macroCall name args).children = check (m.call args) := by
    show (check (env.lookupMacro name) >>= _) = _
    rw [show env.lookupMacro name = .ok m by rw [Env.lookupMacro, hm]]
    exact if_pos (beq_iff_eq.mpr hs)
  -- the evaluators of the three sorts do the same with a call
  have hwrap : ∀ {α : Type} (f : α → Value) (eval : Tree → Traced α),
      f <$> (enterExpression (.macroCall name args) >>= fun _ =>
        expandCall env s (Tree.macroCall name args).children >>= eval) =
      enterExpression (.macroCall name args) >>= fun _ =>
        check (m.call args) >>= fun body => f <$> eval body := by
    intro α f eval
    simp only [hexpand, map_bind]
  cases s with
  | number => exact hwrap Value.number (numberAt env n)
  | vector => exact hwrap Value.vector (vectorAt env n)
  | matrix => exact hwrap Value.matrix (matrixAt env n)

theorem evaluate_macroCall_of_count (hm : env.findMacro? name = some m) (hs : m.returns = s.word)
    (hcount : args.length ≠ m.arity) (trace : Trace) :
    ((evaluate env s (.macroCall name args)).runFrom trace).1 =
      .error (.diagnostic (.argumentCount m.arity args.length)) := by
  obtain ⟨n, hn⟩ := Nat.exists_eq_add_one_of_ne_zero (depthBound_pos env (.macroCall name args)).ne'
  rw [evaluate_eq_evaluateAt, hn, evaluateAt_macroCall hm hs, MacroDef.call, if_pos hcount]
  rfl

theorem evaluate_macroCall_of_arity (hmacros : ∀ d ∈ env.macros, d.2.FromSource d.1)
    (hm : env.findMacro? name = some m) (hs : m.returns = s.word) (harity : args.length = m.arity)
    (v : Value) (trace trace' : Trace) :
    ((evaluate env s (.macroCall name args)).runFrom trace).1 = .ok v ↔
      ((evaluate env s (m.body.substituteBelow (m.binding args))).runFrom trace').1 = .ok v := by
  have hregular : ∀ d ∈ env.macros, d.2.Regular := fun d hd => (hmacros d hd).accepted.toRegular
  have hexpansion := (hregular _ (mem_of_lookup hm)).sortedExpansion_macroCall hm hs harity
  rw [evaluate_eq_ok_iff hregular, evaluate_eq_ok_iff hregular, Yields.call_iff rfl hexpansion]

/-- Only the arguments for parameters that the body uses decide what a call expands to. -/
theorem MacroDef.FromSource.substituteBelow_congr (hm : m.FromSource name)
    (hused : ∀ (i : Nat) x, m.paramNames[i]? = some x → x ∈ m.body.variableNames →
      args'[i]? = args[i]?) :
    m.body.substituteBelow (m.binding args') = m.body.substituteBelow (m.binding args) := by
  by_cases hkind : m.body.kind = "variable"
  · -- such a body is left as it is
    have hbare := hm.accepted.shaped.bare hkind
    rw [Tree.substituteBelow_of_bare hbare, Tree.substituteBelow_of_bare hbare]
  · rw [← Tree.substitute_of_not_variable hkind, ← Tree.substitute_of_not_variable hkind]
    refine Tree.substitute_congr fun x hx => Option.ext fun a => ?_
    rw [MacroDef.binding, MacroDef.binding, lookup_zip_eq_some hm.nodup,
      lookup_zip_eq_some hm.nodup]
    refine exists_congr fun i => and_congr_right fun hi => ?_
    rw [hused i x hi hx]

end

/-- The macro that a definition leaves in the environment. -/
theorem findMacro?_of_lowerDefine {env env' : Env} {s : ValueSort} {name : String} {body : Tree}
    {params : List (ValueSort × String)}
    (h : (lowerDefine env (definitionTree s name params body)).Returns env') :
    env'.findMacro? name = some (unsortedMacro s (params.map Prod.snd) body) ∧
      env'.macros = env.macros ++ [(name, unsortedMacro s (params.map Prod.snd) body)] := by
  obtain ⟨d, hd, -, hdefine⟩ := define_of_lowerDefine h
  rw [definedMacro?_definitionTree] at hd
  obtain rfl := Option.some.inj hd
  obtain ⟨hfree, -, rfl⟩ := Env.define_eq_ok.mp hdefine
  refine ⟨?_, rfl⟩
  rw [Env.findMacro?, List.lookup_append, show env.macros.lookup name = none from hfree]
  simp

/-- The declared sorts of parameters are not enforced. Programs that differ in them only are lowered
to the same. A call must have the right number of arguments; then it has the value of the body with
the arguments put in, whatever they are, and those for parameters that the body does not use can be
anything. -/
theorem parameterSorts_unenforced {source : List Char} {p : ParseTree} {program : Tree}
    (hsource : IsSource source p) (hp : p.toTree = .ok program) :
    (∀ source' p' program', IsSource source' p' → p'.toTree = .ok program' →
      List.Forall₂ Retyped (sourceStatements program) (sourceStatements program') →
      ∀ files trace r, ((lowerProgram files .empty program).runFrom trace).1 = .ok r ↔
        ((lowerProgram files .empty program').runFrom trace).1 = .ok r) ∧
    (∀ t ∈ sourceStatements program, Text.startsWith "def_" t.kind = true →
      ∃ s name params body, t = definitionTree s name params body) ∧
    ∀ s name params body env₀ env₁, definitionTree s name params body ∈ sourceStatements program →
      (lowerDefine env₀ (definitionTree s name params body)).Returns env₁ →
      ∀ env, env.findMacro? name = env₁.findMacro? name →
        (∀ d ∈ env.macros, d.2.FromSource d.1) → ∀ args,
        (args.length ≠ params.length → ∀ trace,
          ((evaluate env s (.macroCall name args)).runFrom trace).1 =
            .error (.diagnostic (.argumentCount params.length args.length))) ∧
        (args.length = params.length → ∀ v trace trace',
          ((evaluate env s (.macroCall name args)).runFrom trace).1 = .ok v ↔
            ((evaluate env s (body.substituteBelow fun x =>
              ((params.map Prod.snd).zip args).lookup x)).runFrom trace').1 = .ok v) ∧
        ∀ args', args.length = params.length → args'.length = params.length →
          (∀ (i : Nat) x, (params.map Prod.snd)[i]? = some x → x ∈ body.variableNames →
            args'[i]? = args[i]?) → ∀ v trace trace',
          ((evaluate env s (.macroCall name args')).runFrom trace).1 = .ok v ↔
            ((evaluate env s (.macroCall name args)).runFrom trace').1 = .ok v := by
  refine ⟨fun source' p' program' hsource' hp' hretyped files trace r => ?_,
    fun t ht hkind => ?_, fun s name params body env₀ env₁ ht hdefine env hfind hmacros args => ?_⟩
  · have hback : List.Forall₂ Retyped (sourceStatements program') (sourceStatements program) :=
      hretyped.flip.imp fun _ _ h => h.symm
    refine ⟨fun h => ?_, fun h => ?_⟩
    · exact gives_of_retyped hsource hp hsource' hp' hretyped ⟨trace, _, Prod.ext h rfl⟩ trace
    · exact gives_of_retyped hsource' hp' hsource hp hback ⟨trace, _, Prod.ext h rfl⟩ trace
  · obtain ⟨is, hreads⟩ := statements_of_isSource hsource hp t ht
    exact hreads.exists_definitionTree hkind
  · obtain ⟨hdefined, hadded⟩ := findMacro?_of_lowerDefine hdefine
    rw [hdefined] at hfind
    have hfrom : (unsortedMacro s (params.map Prod.snd) body).FromSource name :=
      ⟨source, p, program, _, env₀, env₁, hsource, hp, ht, hdefine, hadded⟩
    have harity : (unsortedMacro s (params.map Prod.snd) body).arity = params.length := by
      rw [arity_unsortedMacro, List.length_map]
    have hnames := paramNames_unsortedMacro s (params.map Prod.snd) body
    have hbinding : (unsortedMacro s (params.map Prod.snd) body).binding args =
        fun x => ((params.map Prod.snd).zip args).lookup x := by
      funext x
      rw [MacroDef.binding, hnames]
    rw [← harity, ← hbinding]
    refine ⟨fun hcount => evaluate_macroCall_of_count hfind rfl hcount,
      fun hargs => evaluate_macroCall_of_arity hmacros hfind rfl hargs,
      fun args' hargs hargs' hused v trace trace' => ?_⟩
    rw [evaluate_macroCall_of_arity hmacros hfind rfl hargs' v trace trace',
      hfrom.substituteBelow_congr (hnames.symm ▸ hused)]
    exact (evaluate_macroCall_of_arity hmacros hfind rfl hargs v trace' trace').symm

/-! ## A sample -/

/-- A source text with a macro that does not use its parameter, and a call of it. -/
def unusedSource (s : ValueSort) : List Char :=
  "define f(".toList ++ s.word.toList ++
    " V) -> number = 1\nlet number A = f!(2)\nexport A".toList

/-- The parse tree of `unusedSource`. -/
def unusedParse (s : ValueSort) : ParseTree :=
  .branch "program" [
    .branch "line" [.branch "def_num" [.branch "macro" [.token "f"],
      .branch "param_group" [
        .branch "param" [.branch (typeKind s) [], .branch "variable" [.token "V"]]],
      .branch "number" [.token "1"]]],
    .branch "line" [.branch "let_num" [.branch "variable" [.token "A"],
      .branch "call" [.branch "macro" [.token "f"],
        .branch "args" [.branch "number" [.token "2"]]]]],
    .branch "line" [.branch "export" [.branch "variable" [.token "A"]]]]

set_option maxRecDepth 2000 in
theorem unusedSource_isSource (s : ValueSort) : IsSource (unusedSource s) (unusedParse s) := by
  cases s with
  | number =>
    exact @isSource_of_leftmost 80 [1, 1, 1, 0, 3, 0, 0, 0, 0, 0, 0, 0, 0, 0, 12, 0,
      2, 0, 0, 0, 0, 11, 0, 0, 0, 0, 0, 0, 0, 12, 0, 1, 0, 0] _ _ rfl
  | vector =>
    exact @isSource_of_leftmost 80 [1, 1, 1, 0, 3, 0, 0, 0, 0, 0, 1, 0, 0, 0, 12, 0,
      2, 0, 0, 0, 0, 11, 0, 0, 0, 0, 0, 0, 0, 12, 0, 1, 0, 0] _ _ rfl
  | matrix =>
    exact @isSource_of_leftmost 80 [1, 1, 1, 0, 3, 0, 0, 0, 0, 0, 2, 0, 0, 0, 12, 0,
      2, 0, 0, 0, 0, 11, 0, 0, 0, 0, 0, 0, 0, 12, 0, 1, 0, 0] _ _ rfl

/-- The program of `unusedSource`. -/
def unusedProgram (s : ValueSort) : Tree :=
  .node "program" [
    .node "line" [definitionTree .number "f" [(s, "V")] (.text "number" "1")],
    .node "line" [.node "let_num" [.text "variable" "A", .macroCall "f" [.text "number" "2"]]],
    .node "line" [.node "export" [.text "variable" "A"]]]

theorem unusedParse_toTree (s : ValueSort) : (unusedParse s).toTree = .ok (unusedProgram s) := by
  simp only [unusedParse, ParseTree.toTree, ParseTree.toTrees]
  rfl

/-- The environment after the definition in `unusedSource`. -/
def unusedEnv : Env :=
  { Env.empty with macros := [("f", unsortedMacro .number ["V"] (.text "number" "1"))] }

theorem unusedEnv_defined (s : ValueSort) :
    (lowerDefine .empty (definitionTree .number "f" [(s, "V")] (.text "number" "1"))).Returns
      unusedEnv :=
  ⟨.start, _, rfl⟩

theorem parameterSorts_unenforced_unused :
    (∀ files trace r,
      ((lowerProgram files .empty (unusedProgram .vector)).runFrom trace).1 = .ok r ↔
        ((lowerProgram files .empty (unusedProgram .number)).runFrom trace).1 = .ok r) ∧
    (∀ trace, ((evaluate unusedEnv .number (.macroCall "f" [])).runFrom trace).1 =
      .error (.diagnostic (.argumentCount 1 0))) ∧
    ∀ v trace trace',
      ((evaluate unusedEnv .number (.macroCall "f" [.text "number" "2"])).runFrom trace).1 = .ok v ↔
        ((evaluate unusedEnv .number (.text "number" "1")).runFrom trace').1 = .ok v := by
  obtain ⟨hretyped, -, hcalls⟩ :=
    parameterSorts_unenforced (unusedSource_isSource .vector) (unusedParse_toTree .vector)
  have hmacros : ∀ d ∈ unusedEnv.macros, d.2.FromSource d.1 :=
    List.forall_mem_singleton.mpr ⟨_, _, _, _, .empty, unusedEnv, unusedSource_isSource .vector,
      unusedParse_toTree .vector, List.mem_cons_self, unusedEnv_defined .vector, rfl⟩
  have hcall := hcalls .number "f" [(.vector, "V")] (.text "number" "1") .empty unusedEnv
    List.mem_cons_self (unusedEnv_defined .vector) unusedEnv rfl hmacros
  refine ⟨fun files => ?_, (hcall []).1 (by decide), (hcall [.text "number" "2"]).2.1 rfl⟩
  exact hretyped _ _ _ (unusedSource_isSource .number) (unusedParse_toTree .number)
    (.cons (.defines rfl) (.cons (.same _) (.cons (.same _) .nil))) files

/-- A number is accepted for a parameter that is declared a vector. -/
theorem lowerProgram_accepts_number_for_vector :
    IsSource (unusedSource .vector) (unusedParse .vector) ∧
    (unusedParse .vector).toTree = .ok (unusedProgram .vector) ∧
    ValueSort.vector.admits (Tree.text "number" "2").kind = false ∧
    ∃ r, (lowerProgram [] .empty (unusedProgram .vector)).Returns r :=
  ⟨unusedSource_isSource .vector, unusedParse_toTree .vector, by decide,
    exists_returns (t := .start) (by decide)⟩

end Scalarize
