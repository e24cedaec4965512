import Scalarize.Proofs.GrammarDerivation
import Scalarize.Proofs.LiteralTexts
import Scalarize.Proofs.Substitution

/-!
# Scalarize — the shapes of programs

The trees that the grammar makes of a source text, rule by rule. Lowering takes children by their
places and reads values without a look at the kinds of nodes; here is what it can rely on.

* **`ShapedStatement`**, **`ShapedProgram`** — statements and programs as the grammar makes them.
* **`RuleShape`** — what the trees of a rule look like.
* **`Production.Sound`** — a production makes the shape of its rule out of the shapes of its parts.
  This is checked production by production, for the families of productions at once.
* **`ruleShape_of_parses`** — every derivation gives trees, and they have the shape of its rule.
-/

namespace Scalarize

open Grammar

/-! ## Statements and programs -/

/-- A parameter of a definition: a sort, which has no value, and a name. -/
def IsParam (t : Tree) : Prop :=
  ∃ sort name rest, t.children = sort :: name :: rest ∧ sort.value = none

/-- An imported name. -/
def IsImport (t : Tree) : Prop :=
  t.kind = "import" ∧ t.children ≠ []

/-- A statement as the grammar makes it. -/
inductive ShapedStatement : Tree → Prop where
  | imports {t} (hkind : t.kind = "import_group") (h : ∀ c ∈ t.children, IsImport c) :
      ShapedStatement t
  | exports {t} (hkind : t.kind = "export") (h : t.children ≠ []) : ShapedStatement t
  | lets {t x e rest} (hkind : t.kind = "let_num" ∨ t.kind = "let_vec" ∨ t.kind = "let_mat")
      (hchildren : t.children = x :: e :: rest) (h : Shaped e) : ShapedStatement t
  | defines {t name params body rest}
      (hkind : t.kind = "def_num" ∨ t.kind = "def_vec" ∨ t.kind = "def_mat")
      (hchildren : t.children = name :: params :: body :: rest)
      (hparams : ∀ p ∈ params.children, IsParam p) (h : Shaped body) : ShapedStatement t
  | uses {t} (hkind : t.kind = "using") (h : t.children ≠ []) : ShapedStatement t
  | comment {t} (hkind : t.kind = "comment") : ShapedStatement t

/-- A line of a program. -/
def IsLine (t : Tree) : Prop :=
  ∃ s rest, t.children = s :: rest ∧ ShapedStatement s

/-- A program as the grammar makes it. -/
def ShapedProgram (t : Tree) : Prop :=
  t.kind = "program" ∧ ∀ line ∈ t.children, IsLine line

/-! ## Rules -/

/-- A node that no substitution replaces. -/
def IsSign (t : Tree) : Prop :=
  t.kind ≠ "variable"

/-- One tree with the property. -/
def One (P : Tree → Prop) (ts : List Tree) : Prop :=
  ∃ t, ts = [t] ∧ P t

/-- Trees with the property, at least one. -/
def AtLeastOne (P : Tree → Prop) (ts : List Tree) : Prop :=
  ts ≠ [] ∧ ∀ t ∈ ts, P t

/-- Operators with an operand after each. -/
def IsTail (ts : List Tree) : Prop :=
  ts.length % 2 = 0 ∧ ∀ p ∈ pairs ts, IsSign p.1 ∧ Shaped p.2

/-- The trees of a rule. -/
def RuleShape : Rule → List Tree → Prop
  | .program => One ShapedProgram
  | .lines => AtLeastOne IsLine
  | .line => One IsLine
  | .importGroup | .exportItem | .letItem | .defineItem | .usingItem | .comment =>
    One ShapedStatement
  | .importItems => AtLeastOne IsImport
  | .importItem => One IsImport
  | .library | .macroRef | .unaryOp | .binaryOp | .vecOp | .matOp => One IsSign
  | .variableRef | .external | .call => One Shaped
  | .paramGroup => One fun t => ∀ p ∈ t.children, IsParam p
  | .params => AtLeastOne IsParam
  | .param => One IsParam
  | .type => One fun t => t.value = none
  | .args => One fun t => IsSign t ∧ ∀ a ∈ t.children, Shaped a
  | .number => One fun t => IsSign t ∧ Shaped t
  | .unaryOps => AtLeastOne IsSign
  | .ntail | .vtail | .mtail => IsTail
  | .expr | .nexpr | .nbin | .nbase | .vector | .vexpr | .vbin | .vbase | .matrix | .mexpr | .mbin
  | .mbase => One Shaped
  | .exprs | .nexprs | .vexprs | .vexprRun | .mexprRun => AtLeastOne Shaped

namespace Grammar

/-- The trees of the parts of a production, one part after the other. -/
def PartsShape : List Part → List Tree → Prop
  | [], ts => ts = []
  | .terminal _ :: parts, ts => PartsShape parts ts
  | .rule r :: parts, ts => ∃ us vs, ts = us ++ vs ∧ RuleShape r us ∧ PartsShape parts vs

/-- The trees that a finished production hands on. -/
def Label.trees (label : Label) (ts : List Tree) : List Tree :=
  match label with
  | node kind => [.node kind ts]
  | splice => ts

/-- A part that leaves no text in the parse tree. -/
def Part.isPlain : Part → Bool
  | terminal t => !t.isKept
  | rule _ => true

/-- The production makes the shape of its rule. A text stands alone in its production. -/
inductive Production.Sound : Production → Prop where
  | text {r k t} (hkept : Terminal.isKept t = true)
      (h : ∀ cs text rest, t.take? cs = some (text, rest) →
        RuleShape r [.text k (String.ofList text)]) : Sound ⟨r, .node k, [.terminal t]⟩
  | parts {r label body} (hplain : body.all Part.isPlain = true)
      (h : ∀ ts, PartsShape body ts → RuleShape r (Label.trees label ts)) : Sound ⟨r, label, body⟩

/-- If all productions are sound, every derivation gives the shape of its rule. -/
theorem ruleShape_of_sound (hsound : ∀ p ∈ productions, p.Sound) {r : Rule} {cs rest : List Char}
    {forest : List ParseTree} (h : Parses r cs rest forest) :
    ∃ ts, ParseTree.toTrees forest = .ok ts ∧ RuleShape r ts := by
  -- the second motive is for the parts of a production that leave no text
  refine @Parses.rec
    (fun r _ _ forest _ => ∃ ts, ParseTree.toTrees forest = .ok ts ∧ RuleShape r ts)
    (fun parts _ _ forest _ => parts.all Part.isPlain = true →
      ∃ ts, ParseTree.toTrees forest = .ok ts ∧ PartsShape parts ts) ?_ ?_ ?_ ?_ _ _ _ _ h
  · intro p cs rest forest hp hparts ih
    cases hsound p hp with
    | text hkept hshape =>
      cases hparts with
      | terminal htake hnil =>
        cases hnil
        rw [if_pos hkept]
        exact ⟨_, rfl, hshape _ _ _ htake⟩
    | @parts r label body hplain hshape =>
      obtain ⟨ts, hts, hmade⟩ := ih hplain
      refine ⟨label.trees ts, ?_, hshape ts hmade⟩
      cases label with
      | node k => exact ParseTree.toTrees_singleton (ParseTree.toTree_branch hts)
      | splice => exact hts
  · intro cs _
    exact ⟨[], rfl, rfl⟩
  · intro t cs text mid parts rest forest _ _ ih hplain
    rw [List.all_cons, Bool.and_eq_true] at hplain
    have hkept : t.isKept = false := by simpa [Part.isPlain] using hplain.1
    rw [if_neg (by rw [hkept]; decide), List.nil_append]
    exact ih hplain.2
  · intro r cs trees mid parts rest forest _ _ ih ihparts hplain
    rw [List.all_cons, Bool.and_eq_true] at hplain
    obtain ⟨us, hus, hshape⟩ := ih
    obtain ⟨vs, hvs, hmade⟩ := ihparts hplain.2
    exact ⟨us ++ vs, ParseTree.toTrees_append hus hvs, us, vs, rfl, hshape, hmade⟩

/-! ## Families of productions -/

theorem sound_wordNodes {head : Rule} {words : List (String × String)}
    (h : ∀ w ∈ words, RuleShape head [.node w.2 []]) : ∀ p ∈ wordNodes head words, p.Sound := by
  intro p hp
  obtain ⟨w, hw, rfl⟩ := List.mem_map.mp hp
  refine .parts rfl fun ts hts => ?_
  obtain rfl : ts = [] := hts
  exact h w hw

section

variable {P : Tree → Prop} {head item : Rule} (hhead : RuleShape head = AtLeastOne P)
  (hitem : RuleShape item = One P)

include hhead hitem

theorem atLeastOne_single {ts : List Tree} (h : RuleShape item ts) : RuleShape head ts := by
  rw [hitem] at h
  obtain ⟨t, rfl, ht⟩ := h
  rw [hhead]
  exact ⟨List.cons_ne_nil t [], by simpa using ht⟩

theorem atLeastOne_append {ts us : List Tree} (hts : RuleShape head ts) (hus : RuleShape item us) :
    RuleShape head (ts ++ us) := by
  rw [hhead] at hts ⊢
  rw [hitem] at hus
  obtain ⟨t, rfl, ht⟩ := hus
  refine ⟨List.append_ne_nil_of_left_ne_nil hts.1 _, fun u hu => ?_⟩
  rcases List.mem_append.mp hu with hu | hu
  · exact hts.2 u hu
  · rw [List.mem_singleton.mp hu]
    exact ht

/-- A repetition: one item, or a repetition and one item more. -/
theorem sound_repetition {more : List Part} (hplain : more.all Part.isPlain = true)
    (hmore : ∀ ts, PartsShape more ts → PartsShape [.rule head, .rule item] ts) :
    ∀ p ∈ [(⟨head, .splice, [.rule item]⟩ : Production), ⟨head, .splice, more⟩], p.Sound := by
  refine List.forall_mem_cons.mpr ⟨.parts rfl ?_, List.forall_mem_singleton.mpr (.parts hplain ?_)⟩
  · rintro _ ⟨us, _, rfl, hus, rfl⟩
    rw [List.append_nil]
    exact atLeastOne_single hhead hitem hus
  · intro vs hvs
    obtain ⟨ts, _, rfl, hts, us, _, rfl, hus, rfl⟩ := hmore vs hvs
    rw [List.append_nil]
    exact atLeastOne_append hhead hitem hts hus

theorem sound_commaList : ∀ p ∈ commaList head item, p.Sound :=
  sound_repetition hhead hitem rfl fun _ h => h

theorem sound_run : ∀ p ∈ run head item, p.Sound :=
  sound_repetition hhead hitem rfl fun _ h => h

end

theorem pairs_append {ts us : List Tree} (h : ts.length % 2 = 0) :
    pairs (ts ++ us) = pairs ts ++ pairs us := by
  fun_induction pairs ts with
  | case1 op x rest ih =>
    rw [List.length_cons, List.length_cons] at h
    rw [List.cons_append, List.cons_append, pairs, ih (by omega), List.cons_append]
  | case2 ts hts =>
    rcases ts with _ | ⟨a, _ | ⟨b, rest⟩⟩
    · rfl
    · cases h
    · exact (hts a b rest rfl).elim

theorem sound_chainTail {head op operand : Rule} (hhead : RuleShape head = IsTail)
    (hop : RuleShape op = One IsSign) (hoperand : RuleShape operand = One Shaped) :
    ∀ p ∈ chainTail head op operand, p.Sound := by
  have hpair : ∀ {us vs}, RuleShape op us → RuleShape operand vs → IsTail (us ++ vs) := by
    intro us vs hus hvs
    rw [hop] at hus
    rw [hoperand] at hvs
    obtain ⟨o, rfl, ho⟩ := hus
    obtain ⟨e, rfl, he⟩ := hvs
    refine ⟨by simp, fun p hp => ?_⟩
    rw [List.mem_singleton.mp hp]
    exact ⟨ho, he⟩
  intro p hp
  simp only [chainTail, List.mem_cons, List.not_mem_nil, or_false] at hp
  rcases hp with rfl | rfl
  · refine .parts rfl ?_
    rintro _ ⟨us, _, rfl, hus, vs, _, rfl, hvs, rfl⟩
    rw [List.append_nil, hhead]
    exact hpair hus hvs
  · refine .parts rfl ?_
    rintro _ ⟨ts, _, rfl, hts, us, _, rfl, hus, vs, _, rfl, hvs, rfl⟩
    rw [List.append_nil]
    rw [hhead] at hts ⊢
    have htail := hpair hus hvs
    refine ⟨?_, fun p hp => ?_⟩
    · have := hts.1
      have := htail.1
      show (ts ++ (us ++ vs)).length % 2 = 0
      rw [List.length_append]
      omega
    · rw [Label.trees, pairs_append hts.1] at hp
      rcases List.mem_append.mp hp with hp | hp
      · exact hts.2 p hp
      · exact htail.2 p hp

theorem sound_chain {head tail operand : Rule} {kind : String} (hhead : RuleShape head = One Shaped)
    (htail : RuleShape tail = IsTail) (hoperand : RuleShape operand = One Shaped)
    (h : ∀ e ts, Shaped e → IsTail ts → Shaped (.node kind (e :: ts))) :
    ∀ p ∈ chain head tail operand kind, p.Sound := by
  intro p hp
  simp only [chain, List.mem_cons, List.not_mem_nil, or_false] at hp
  rcases hp with rfl | rfl
  · refine .parts rfl ?_
    rintro _ ⟨us, _, rfl, hus, rfl⟩
    rw [List.append_nil, hhead, ← hoperand]
    exact hus
  · refine .parts rfl ?_
    rintro _ ⟨us, _, rfl, hus, ts, _, rfl, hts, rfl⟩
    rw [hhead] at hus ⊢
    rw [htail] at hts
    obtain ⟨e, rfl, he⟩ := hus
    rw [List.append_nil]
    exact ⟨_, rfl, h e ts he hts⟩

/-! ## The productions of expressions -/

/-- A node with operands and signs. -/
theorem shaped_node (s : ValueSort) (k : String) (cs : List Tree) (ops : List (ValueSort × Tree))
    (ss : List Tree) (hops : operands s (.node k cs) = some ops)
    (hsigns : signs s (.node k cs) = ss) (hk : k ≠ "number") (hfull : cs ≠ [])
    (hshaped : ∀ p ∈ ops, Shaped p.2) (hss : ∀ c ∈ ss, IsSign c) : Shaped (.node k cs) :=
  .form hops (hsigns ▸ hss) (fun hkind => absurd hkind hk) (fun _ => hfull) hshaped

theorem shaped_chain (s : ValueSort) {k : String} {e : Tree} {ts : List Tree} (hk : k ≠ "number")
    (hops : operands s (.node k (e :: ts)) = some ((s, e) :: (pairs ts).map fun p => (s, p.2)))
    (hsigns : signs s (.node k (e :: ts)) = (pairs ts).map Prod.fst) (he : Shaped e)
    (hts : IsTail ts) : Shaped (.node k (e :: ts)) := by
  refine shaped_node s k _ _ _ hops hsigns hk (List.cons_ne_nil e ts) ?_ ?_
  · intro q hq
    rcases List.mem_cons.mp hq with rfl | hq
    · exact he
    · obtain ⟨p, hp, rfl⟩ := List.mem_map.mp hq
      exact (hts.2 p hp).2
  · intro c hc
    obtain ⟨p, hp, rfl⟩ := List.mem_map.mp hc
    exact (hts.2 p hp).1

/-- A form over operands of one sort, after an operator. -/
theorem shaped_all (s s' : ValueSort) {k : String} {cs : List Tree} (ts ss : List Tree)
    (hops : operands s (.node k cs) = some (ts.map fun t => (s', t)))
    (hsigns : signs s (.node k cs) = ss) (hk : k ≠ "number") (hfull : cs ≠ [])
    (hts : ∀ t ∈ ts, Shaped t) (hss : ∀ c ∈ ss, IsSign c) : Shaped (.node k cs) := by
  refine shaped_node s k cs _ ss hops hsigns hk hfull (fun p hp => ?_) hss
  obtain ⟨t, ht, rfl⟩ := List.mem_map.mp hp
  exact hts t ht

/-- A production of a single rule and signs hands the trees of the rule on. -/
theorem ruleShape_of_parts {r : Rule} {ts : List Tree} (h : PartsShape [.rule r] ts) :
    RuleShape r ts := by
  obtain ⟨us, _, rfl, hus, rfl⟩ := h
  rwa [List.append_nil]

/-- The words of operators. -/
theorem sound_operators {head : Rule} {words : List (String × String)}
    (hhead : RuleShape head = One IsSign) (h : words.all (·.2 != "variable") = true) :
    ∀ p ∈ wordNodes head words, p.Sound := by
  refine sound_wordNodes fun w hw => ?_
  rw [hhead]
  exact ⟨_, rfl, bne_iff_ne.mp (List.all_eq_true.mp h w hw)⟩

/-- A leaf that stands for a number by itself. -/
theorem shaped_text {k text : String} (hops : operands .number (.text k text) = some [])
    (hsigns : signs .number (.text k text) = []) (hk : k ≠ "vector" ∧ k ≠ "matrix")
    (hliteral : k = "number" → (literalOf (some (.text text))).toOption.isSome = true) :
    Shaped (.text k text) := by
  refine .form hops ?_ hliteral (fun hkind => ?_) ?_
  · rw [hsigns]
    intro c hc
    cases hc
  · rcases hkind with hkind | hkind
    · exact absurd hkind hk.1
    · exact absurd hkind hk.2
  · intro p hp
    cases hp

theorem sound_numberRules : ∀ p ∈ numberRules, p.Sound := by
  -- literals, the operators and their runs, chains, then the operands and the lists of expressions
  simp only [numberRules, List.forall_mem_append]
  refine ⟨⟨⟨⟨⟨⟨⟨⟨?_, ?_⟩, ?_⟩, ?_⟩, ?_⟩, ?_⟩, ?_⟩, ?_⟩, ?_⟩
  · intro p hp
    rw [List.mem_singleton.mp hp]
    refine .text rfl fun cs text rest h => ⟨_, rfl, ?_, ?_⟩
    · show "number" ≠ "variable"
      decide
    · exact shaped_text rfl rfl (by decide) fun _ => isSome_literalOf h
  · exact sound_operators rfl (by decide)
  · exact sound_run rfl rfl
  · exact sound_operators rfl (by decide)
  · intro p hp
    rw [List.mem_singleton.mp hp]
    exact .parts rfl fun ts hts => ruleShape_of_parts hts
  · exact sound_chain rfl rfl rfl fun e ts he hts => shaped_chain .number (by decide) rfl rfl he hts
  · exact sound_chainTail rfl rfl rfl
  · intro p hp
    simp only [List.mem_cons, List.not_mem_nil, or_false] at hp
    rcases hp with rfl | rfl | rfl | rfl | rfl | rfl | rfl | rfl | rfl | rfl | rfl | rfl | rfl
    · -- signs in front: the operand is the last child, all others are signs
      refine .parts rfl ?_
      rintro _ ⟨ops, _, rfl, hops, _, _, rfl, ⟨e, rfl, he⟩, rfl⟩
      refine ⟨_, rfl, shaped_node .number "num_unary" (ops ++ [e]) [(.number, e)] ops ?_ ?_
        (by decide) (by simp) (by simpa using he) hops.2⟩
      · show ((ops ++ [e]).getLast?).map _ = _
        rw [List.getLast?_append_of_ne_nil _ (List.cons_ne_nil e [])]
        rfl
      · exact List.dropLast_concat
    · refine .parts rfl ?_
      rintro _ ⟨_, _, rfl, ⟨op, rfl, hop⟩, _, _, rfl, ⟨v, rfl, hv⟩, rfl⟩
      exact ⟨_, rfl, shaped_node .number "reduce" [op, v] [(.vector, v)] [op]
        rfl rfl (by decide) (by simp) (by simpa using hv) (by simpa using hop)⟩
    · refine .parts rfl ?_
      rintro _ ⟨_, _, rfl, ⟨v, rfl, hv⟩, _, _, rfl, ⟨w, rfl, hw⟩, rfl⟩
      exact ⟨_, rfl, shaped_node .number "dot" [v, w] [(.vector, v), (.vector, w)] []
        rfl rfl (by decide) (by simp) (by simpa using ⟨hv, hw⟩) (by simp)⟩
    · refine .parts rfl ?_
      rintro _ ⟨_, _, rfl, ⟨v, rfl, hv⟩, rfl⟩
      exact ⟨_, rfl, shaped_node .number "len" [v] [(.vector, v)] []
        rfl rfl (by decide) (by simp) (by simpa using hv) (by simp)⟩
    · refine .parts rfl ?_
      rintro _ ⟨_, _, rfl, ⟨m, rfl, hm⟩, rfl⟩
      exact ⟨_, rfl, shaped_node .number "rows" [m] [(.matrix, m)] []
        rfl rfl (by decide) (by simp) (by simpa using hm) (by simp)⟩
    · refine .parts rfl ?_
      rintro _ ⟨_, _, rfl, ⟨m, rfl, hm⟩, rfl⟩
      exact ⟨_, rfl, shaped_node .number "cols" [m] [(.matrix, m)] []
        rfl rfl (by decide) (by simp) (by simpa using hm) (by simp)⟩
    · refine .parts rfl ?_
      rintro _ ⟨_, _, rfl, ⟨v, rfl, hv⟩, _, _, rfl, ⟨i, rfl, hi, -⟩, rfl⟩
      exact ⟨_, rfl, shaped_node .number "vec_elem" [v, i] [(.vector, v)] [i]
        rfl rfl (by decide) (by simp) (by simpa using hv) (by simpa using hi)⟩
    · refine .parts rfl ?_
      rintro _ ⟨_, _, rfl, ⟨m, rfl, hm⟩, _, _, rfl, ⟨i, rfl, hi, -⟩, _, _, rfl,
        ⟨j, rfl, hj, -⟩, rfl⟩
      exact ⟨_, rfl, shaped_node .number "mat_elem" [m, i, j] [(.matrix, m)] [i, j]
        rfl rfl (by decide) (by simp) (by simpa using hm) (by simpa using ⟨hi, hj⟩)⟩
    · exact .parts rfl fun ts hts => ruleShape_of_parts hts
    · exact .parts rfl fun ts hts => ruleShape_of_parts hts
    · exact .parts rfl fun ts hts => ruleShape_of_parts hts
    · exact .parts rfl fun ts hts => ruleShape_of_parts hts
    · -- a literal is both an index and an operand: here only the operand counts
      refine .parts rfl fun ts hts => ?_
      obtain ⟨t, rfl, -, ht⟩ := ruleShape_of_parts hts
      exact ⟨t, rfl, ht⟩
  · exact sound_commaList rfl rfl

theorem sound_vectorRules : ∀ p ∈ vectorRules, p.Sound := by
  -- vectors written out, operators, chains, then the operands and their lists and runs
  simp only [vectorRules, List.forall_mem_append]
  refine ⟨⟨⟨⟨⟨⟨⟨?_, ?_⟩, ?_⟩, ?_⟩, ?_⟩, ?_⟩, ?_⟩, ?_⟩
  · intro p hp
    rw [List.mem_singleton.mp hp]
    refine .parts rfl ?_
    rintro _ ⟨ts, _, rfl, hts, rfl⟩
    rw [List.append_nil]
    exact ⟨_, rfl, shaped_all .vector .number ts [] rfl rfl (by decide) hts.1 hts.2 (by simp)⟩
  · exact sound_operators rfl (by decide)
  · intro p hp
    rw [List.mem_singleton.mp hp]
    exact .parts rfl fun ts hts => ruleShape_of_parts hts
  · exact sound_chain rfl rfl rfl fun e ts he hts => shaped_chain .vector (by decide) rfl rfl he hts
  · exact sound_chainTail rfl rfl rfl
  · intro p hp
    simp only [List.mem_cons, List.not_mem_nil, or_false] at hp
    rcases hp with rfl | rfl | rfl | rfl | rfl | rfl | rfl | rfl | rfl | rfl | rfl | rfl
    · refine .parts rfl ?_
      rintro _ ⟨_, _, rfl, ⟨op, rfl, hop⟩, _, _, rfl, ⟨v, rfl, hv⟩, rfl⟩
      exact ⟨_, rfl, shaped_node .vector "vec_map" [op, v] [(.vector, v)] [op]
        rfl rfl (by decide) (by simp) (by simpa using hv) (by simpa using hop)⟩
    · refine .parts rfl ?_
      rintro _ ⟨_, _, rfl, ⟨op, rfl, hop⟩, _, _, rfl, ⟨e, rfl, he⟩, _, _, rfl, ⟨v, rfl, hv⟩, rfl⟩
      exact ⟨_, rfl, shaped_node .vector "vec_premap" [op, e, v] [(.number, e), (.vector, v)] [op]
        rfl rfl (by decide) (by simp) (by simpa using ⟨he, hv⟩) (by simpa using hop)⟩
    · refine .parts rfl ?_
      rintro _ ⟨_, _, rfl, ⟨e, rfl, he⟩, _, _, rfl, ⟨op, rfl, hop⟩, _, _, rfl, ⟨v, rfl, hv⟩, rfl⟩
      exact ⟨_, rfl, shaped_node .vector "vec_postmap" [e, op, v] [(.number, e), (.vector, v)] [op]
        rfl rfl (by decide) (by simp) (by simpa using ⟨he, hv⟩) (by simpa using hop)⟩
    · refine .parts rfl ?_
      rintro _ ⟨_, _, rfl, ⟨op, rfl, hop⟩, ts, _, rfl, hts, rfl⟩
      rw [List.append_nil]
      obtain ⟨t, ts, rfl⟩ := List.exists_cons_of_ne_nil hts.1
      exact ⟨_, rfl, shaped_all .vector .vector (t :: ts) [op] rfl rfl (by decide) (by simp) hts.2
        (by simpa using hop)⟩
    · refine .parts rfl ?_
      rintro _ ⟨ts, _, rfl, hts, rfl⟩
      rw [List.append_nil]
      obtain ⟨t, ts, rfl⟩ := List.exists_cons_of_ne_nil hts.1
      exact ⟨_, rfl, shaped_all .vector .vector (t :: ts) [] rfl rfl (by decide) (by simp) hts.2
        (by simp)⟩
    · refine .parts rfl ?_
      rintro _ ⟨_, _, rfl, ⟨v, rfl, hv⟩, rfl⟩
      exact ⟨_, rfl, shaped_node .vector "reverse" [v] [(.vector, v)] []
        rfl rfl (by decide) (by simp) (by simpa using hv) (by simp)⟩
    · refine .parts rfl ?_
      rintro _ ⟨_, _, rfl, ⟨m, rfl, hm⟩, _, _, rfl, ⟨i, rfl, hi, -⟩, rfl⟩
      exact ⟨_, rfl, shaped_node .vector "mat_row" [m, i] [(.matrix, m)] [i]
        rfl rfl (by decide) (by simp) (by simpa using hm) (by simpa using hi)⟩
    · refine .parts rfl ?_
      rintro _ ⟨_, _, rfl, ⟨m, rfl, hm⟩, _, _, rfl, ⟨i, rfl, hi, -⟩, rfl⟩
      exact ⟨_, rfl, shaped_node .vector "mat_col" [m, i] [(.matrix, m)] [i]
        rfl rfl (by decide) (by simp) (by simpa using hm) (by simpa using hi)⟩
    · exact .parts rfl fun ts hts => ruleShape_of_parts hts
    · exact .parts rfl fun ts hts => ruleShape_of_parts hts
    · exact .parts rfl fun ts hts => ruleShape_of_parts hts
    · exact .parts rfl fun ts hts => ruleShape_of_parts hts
  · exact sound_commaList rfl rfl
  · exact sound_run rfl rfl

theorem sound_matrixRules : ∀ p ∈ matrixRules, p.Sound := by
  -- as for vectors, without lists of matrices
  simp only [matrixRules, List.forall_mem_append]
  refine ⟨⟨⟨⟨⟨⟨?_, ?_⟩, ?_⟩, ?_⟩, ?_⟩, ?_⟩, ?_⟩
  · intro p hp
    rw [List.mem_singleton.mp hp]
    refine .parts rfl ?_
    rintro _ ⟨ts, _, rfl, hts, rfl⟩
    rw [List.append_nil]
    exact ⟨_, rfl, shaped_all .matrix .vector ts [] rfl rfl (by decide) hts.1 hts.2 (by simp)⟩
  · exact sound_operators rfl (by decide)
  · intro p hp
    rw [List.mem_singleton.mp hp]
    exact .parts rfl fun ts hts => ruleShape_of_parts hts
  · exact sound_chain rfl rfl rfl fun e ts he hts => shaped_chain .matrix (by decide) rfl rfl he hts
  · exact sound_chainTail rfl rfl rfl
  · intro p hp
    simp only [List.mem_cons, List.not_mem_nil, or_false] at hp
    rcases hp with rfl | rfl | rfl | rfl | rfl | rfl | rfl | rfl | rfl | rfl
    · refine .parts rfl ?_
      rintro _ ⟨_, _, rfl, ⟨op, rfl, hop⟩, _, _, rfl, ⟨m, rfl, hm⟩, rfl⟩
      exact ⟨_, rfl, shaped_node .matrix "mat_map" [op, m] [(.matrix, m)] [op]
        rfl rfl (by decide) (by simp) (by simpa using hm) (by simpa using hop)⟩
    · refine .parts rfl ?_
      rintro _ ⟨_, _, rfl, ⟨op, rfl, hop⟩, _, _, rfl, ⟨e, rfl, he⟩, _, _, rfl, ⟨m, rfl, hm⟩, rfl⟩
      exact ⟨_, rfl, shaped_node .matrix "mat_premap" [op, e, m] [(.number, e), (.matrix, m)] [op]
        rfl rfl (by decide) (by simp) (by simpa using ⟨he, hm⟩) (by simpa using hop)⟩
    · refine .parts rfl ?_
      rintro _ ⟨_, _, rfl, ⟨e, rfl, he⟩, _, _, rfl, ⟨op, rfl, hop⟩, _, _, rfl, ⟨m, rfl, hm⟩, rfl⟩
      exact ⟨_, rfl, shaped_node .matrix "mat_postmap" [e, op, m] [(.number, e), (.matrix, m)] [op]
        rfl rfl (by decide) (by simp) (by simpa using ⟨he, hm⟩) (by simpa using hop)⟩
    · refine .parts rfl ?_
      rintro _ ⟨_, _, rfl, ⟨op, rfl, hop⟩, ts, _, rfl, hts, rfl⟩
      rw [List.append_nil]
      obtain ⟨t, ts, rfl⟩ := List.exists_cons_of_ne_nil hts.1
      exact ⟨_, rfl, shaped_all .matrix .matrix (t :: ts) [op] rfl rfl (by decide) (by simp) hts.2
        (by simpa using hop)⟩
    · refine .parts rfl ?_
      rintro _ ⟨_, _, rfl, ⟨m, rfl, hm⟩, rfl⟩
      exact ⟨_, rfl, shaped_node .matrix "transpose" [m] [(.matrix, m)] []
        rfl rfl (by decide) (by simp) (by simpa using hm) (by simp)⟩
    · refine .parts rfl ?_
      rintro _ ⟨_, _, rfl, ⟨m, rfl, hm⟩, _, _, rfl, ⟨n, rfl, hn⟩, rfl⟩
      exact ⟨_, rfl, shaped_node .matrix "mat_mul" [m, n] [(.matrix, m), (.matrix, n)] []
        rfl rfl (by decide) (by simp) (by simpa using ⟨hm, hn⟩) (by simp)⟩
    · exact .parts rfl fun ts hts => ruleShape_of_parts hts
    · exact .parts rfl fun ts hts => ruleShape_of_parts hts
    · exact .parts rfl fun ts hts => ruleShape_of_parts hts
    · exact .parts rfl fun ts hts => ruleShape_of_parts hts
  · exact sound_run rfl rfl

/-! ## The productions of names and statements -/

theorem sound_nameRules : ∀ p ∈ nameRules, p.Sound := by
  -- the names, then parameters with their sorts, then calls with their arguments
  simp only [nameRules, List.forall_mem_append]
  refine ⟨⟨⟨⟨⟨⟨?_, ?_⟩, ?_⟩, ?_⟩, ?_⟩, ?_⟩, ?_⟩
  · intro p hp
    simp only [List.mem_cons, List.not_mem_nil, or_false] at hp
    rcases hp with rfl | rfl | rfl | rfl
    · exact .text rfl fun cs text rest _ => ⟨_, rfl, .reference rfl rfl⟩
    · exact .text rfl fun cs text rest _ => ⟨_, rfl, shaped_text rfl rfl (by decide)
        fun hkind => absurd hkind (by decide)⟩
    · exact .text rfl fun cs text rest _ => ⟨_, rfl, by show "macro" ≠ "variable"; decide⟩
    · refine .parts rfl ?_
      rintro _ ⟨ps, _, rfl, hps, rfl⟩
      rw [List.append_nil]
      exact ⟨_, rfl, hps.2⟩
  · exact sound_commaList rfl rfl
  · intro p hp
    rw [List.mem_singleton.mp hp]
    refine .parts rfl ?_
    rintro _ ⟨_, _, rfl, ⟨sort, rfl, hsort⟩, _, _, rfl, ⟨x, rfl, -⟩, rfl⟩
    exact ⟨_, rfl, sort, x, [], rfl, hsort⟩
  · exact sound_wordNodes fun w _ => ⟨_, rfl, rfl⟩
  · intro p hp
    simp only [List.mem_cons, List.not_mem_nil, or_false] at hp
    rcases hp with rfl | rfl
    · refine .parts rfl ?_
      rintro _ ⟨_, _, rfl, ⟨callee, rfl, hcallee⟩, _, _, rfl, ⟨args, rfl, hargs, h⟩, rfl⟩
      exact ⟨_, rfl, .call rfl rfl hcallee hargs h⟩
    · refine .parts rfl ?_
      rintro _ ⟨es, _, rfl, hes, rfl⟩
      rw [List.append_nil]
      exact ⟨_, rfl, by show "args" ≠ "variable"; decide, hes.2⟩
  · exact sound_commaList rfl rfl
  · intro p hp
    simp only [List.mem_cons, List.not_mem_nil, or_false] at hp
    rcases hp with rfl | rfl | rfl
    · exact .parts rfl fun ts hts => ruleShape_of_parts hts
    · exact .parts rfl fun ts hts => ruleShape_of_parts hts
    · exact .parts rfl fun ts hts => ruleShape_of_parts hts

theorem sound_statementRules : ∀ p ∈ statementRules, p.Sound := by
  simp only [statementRules, List.forall_mem_append]
  refine ⟨⟨⟨⟨?_, ?_⟩, ?_⟩, ?_⟩, ?_⟩
  · intro p hp
    simp only [List.mem_cons, List.not_mem_nil, or_false] at hp
    rcases hp with rfl | rfl
    · refine .parts rfl ?_
      rintro _ rfl
      exact ⟨_, rfl, rfl, fun line hline => by cases hline⟩
    · refine .parts rfl ?_
      rintro _ ⟨ls, _, rfl, hls, rfl⟩
      rw [List.append_nil]
      exact ⟨_, rfl, rfl, hls.2⟩
  · exact sound_run rfl rfl
  · intro p hp
    simp only [List.mem_cons, List.not_mem_nil, or_false] at hp
    rcases hp with rfl | rfl | rfl | rfl | rfl | rfl | rfl
    -- a line holds one statement, of whichever kind
    iterate 6
      · refine .parts rfl ?_
        rintro _ ⟨_, _, rfl, ⟨s, rfl, hs⟩, rfl⟩
        exact ⟨_, rfl, s, [], rfl, hs⟩
    · refine .parts rfl ?_
      rintro _ ⟨is, _, rfl, his, rfl⟩
      rw [List.append_nil]
      exact ⟨_, rfl, .imports rfl his.2⟩
  · exact sound_commaList rfl rfl
  · intro p hp
    simp only [List.mem_cons, List.not_mem_nil, or_false] at hp
    rcases hp with rfl | rfl | rfl | rfl | rfl | rfl | rfl | rfl | rfl | rfl | rfl | rfl | rfl
    · refine .parts rfl ?_
      rintro _ ⟨_, _, rfl, ⟨x, rfl, -⟩, rfl⟩
      exact ⟨_, rfl, rfl, List.cons_ne_nil _ _⟩
    · refine .parts rfl ?_
      rintro _ ⟨_, _, rfl, ⟨x, rfl, -⟩, _, _, rfl, -, rfl⟩
      exact ⟨_, rfl, rfl, List.cons_ne_nil _ _⟩
    · refine .parts rfl ?_
      rintro _ ⟨_, _, rfl, ⟨x, rfl, -⟩, rfl⟩
      exact ⟨_, rfl, .exports rfl (List.cons_ne_nil _ _)⟩
    · refine .parts rfl ?_
      rintro _ ⟨_, _, rfl, ⟨x, rfl, -⟩, _, _, rfl, -, rfl⟩
      exact ⟨_, rfl, .exports rfl (List.cons_ne_nil _ _)⟩
    -- `let` and `define`, once for each sort
    iterate 3
      · refine .parts rfl ?_
        rintro _ ⟨_, _, rfl, ⟨x, rfl, -⟩, _, _, rfl, ⟨e, rfl, he⟩, rfl⟩
        exact ⟨_, rfl, .lets (by simp [Tree.node, Tree.kind]) rfl he⟩
    iterate 3
      · refine .parts rfl ?_
        rintro _ ⟨_, _, rfl, ⟨name, rfl, -⟩, _, _, rfl, ⟨ps, rfl, hps⟩, _, _, rfl,
          ⟨e, rfl, he⟩, rfl⟩
        exact ⟨_, rfl, .defines (by simp [Tree.node, Tree.kind]) rfl hps he⟩
    · refine .parts rfl ?_
      rintro _ ⟨_, _, rfl, ⟨l, rfl, -⟩, rfl⟩
      exact ⟨_, rfl, .uses rfl (List.cons_ne_nil _ _)⟩
    · exact .text rfl fun cs text rest _ => ⟨_, rfl, by show "library" ≠ "variable"; decide⟩
    · exact .text rfl fun cs text rest _ => ⟨_, rfl, .comment rfl⟩

/-- Every derivation gives trees of the shape of its rule. -/
theorem ruleShape_of_parses {r : Rule} {cs rest : List Char} {forest : List ParseTree}
    (h : Parses r cs rest forest) : ∃ ts, ParseTree.toTrees forest = .ok ts ∧ RuleShape r ts := by
  refine ruleShape_of_sound ?_ h
  simp only [productions, List.forall_mem_append]
  exact ⟨⟨⟨⟨sound_statementRules, sound_nameRules⟩, sound_numberRules⟩, sound_vectorRules⟩,
    sound_matrixRules⟩

/-- A source text gives a program of the right shape. -/
theorem shapedProgram_of_isSource {cs : List Char} {p : ParseTree} (h : IsSource cs p) :
    ∃ program, p.toTree = .ok program ∧ ShapedProgram program := by
  obtain ⟨_, hts, program, rfl, hshaped⟩ := ruleShape_of_parses h
  exact ⟨program, ParseTree.toTree_of_toTrees hts, hshaped⟩

end Grammar

end Scalarize
