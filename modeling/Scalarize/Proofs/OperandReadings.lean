import Scalarize.Proofs.RuleReadings

/-!
# Scalarize — operands and what they are made of

An operand is a single piece, or operators or a form stand in it. What the pieces of an expression
are, operands, signs, operators before an operand or words of forms, can be seen one by one; this
says where the operands of an expression end, as long as they are single pieces.

* **`BaseReads`**, **`Reads.of_base`** — the pieces of an operand and its tree.
* **`Piece.role`** — what a piece is in an expression.
* **`Reads.of_chain`** — the operands of a chain are what stands between the signs.
* **`Reads.of_lead`**, **`Aligned.eq_form`** — a form that starts with a word, and which one it is.
* **`Reads.of_join`** — a form between two operands.
-/

namespace Scalarize.Grammar

/-! ## Operands -/

/-- The rule for the elements of a list, and the kind of its node. -/
def elementsRule : ValueSort → Rule
  | .number => .exprs
  | .vector => .nexprs
  | .matrix => .vexprs

/-- The rule for operands one after the other. -/
def runRule : ValueSort → Rule
  | .number => .unaryOps
  | .vector => .vexprRun
  | .matrix => .mexprRun

theorem runRule_injective {s s' : ValueSort} (h : runRule s = runRule s') : s = s' := by
  cases s <;> cases s' <;> simp [runRule] at h ⊢

/-- An operand that is a single piece. -/
inductive AtomReads (s : ValueSort) : Piece → Tree → Prop where
  | name {v} (hv : isVariableText v = true) : AtomReads s (.word v) (.text "variable" v)
  | literal {w} (hs : s = .number) (hw : isNumberText w = true) :
      AtomReads s (.word w) (.text "number" w)
  | external {x} (hs : s = .number) : AtomReads s (.external x) (.text "external" x)
  | call {m is ts} (h : Reads .exprs is ts) :
      AtomReads s (.call m is) (.node "call" [.text "macro" m, .node "args" ts])
  | round {is t} (h : Reads (exprRule s) is [t]) : AtomReads s (.round is) t
  | list {is ts} (hs : s ≠ .number) (h : Reads (elementsRule s) is ts) :
      AtomReads s (.square is) (.node s.word ts)

/-- An operand of a sort: its pieces and its tree. -/
inductive BaseReads (s : ValueSort) : List Piece → Tree → Prop where
  | single {a t} (h : AtomReads s a t) : BaseReads s [a] t
  | unary {is ts is' t} (hs : s = .number) (hops : Reads .unaryOps is ts)
      (h : Reads .nexpr is' [t]) : BaseReads s (is ++ is') (.node "num_unary" (ts ++ [t]))
  | prefixed {k w parts is ts} (hp : ⟨baseRule s, .node k, word w :: parts⟩ ∈ productionsOf (baseRule s))
      (h : ReadsParts parts is ts) : BaseReads s (.word w :: is) (.node k ts)
  | infixed {k w s' is t is' t'}
      (hp : ⟨baseRule s, .node k, [.rule (exprRule s'), word w, .rule (exprRule s')]⟩ ∈
        productionsOf (baseRule s))
      (h : Reads (exprRule s') is [t]) (h' : Reads (exprRule s') is' [t']) :
      BaseReads s (is ++ .word w :: is') (.node k [t, t'])

/-- The word that a production starts with. -/
def Production.leadWord? (p : Production) : Option String :=
  match p.body with
  | .terminal (.word w) :: _ => some w
  | _ => none

theorem eq_of_leadWord? {p : Production} {w : String} (h : p.leadWord? = some w) :
    ∃ parts, p.body = word w :: parts := by
  unfold Production.leadWord? at h
  split at h
  · next parts hbody =>
    cases h
    exact ⟨parts, hbody⟩
  · cases h

/-- The ways to write an operand. -/
theorem base_productions (s : ValueSort) : ∀ p ∈ productionsOf (baseRule s),
    p = ⟨baseRule s, .splice, [.rule .variableRef]⟩ ∨ p = ⟨baseRule s, .splice, [.rule .call]⟩ ∨
    s = .number ∧ p = ⟨baseRule s, .splice, [.rule .number]⟩ ∨
    s = .number ∧ p = ⟨baseRule s, .splice, [word "$", .rule .external]⟩ ∨
    p = ⟨baseRule s, .splice, [word "(", .rule (exprRule s), word ")"]⟩ ∨
    s = .vector ∧ p = ⟨baseRule s, .splice, [.rule .vector]⟩ ∨
    s = .matrix ∧ p = ⟨baseRule s, .splice, [.rule .matrix]⟩ ∨
    s = .number ∧ p = ⟨baseRule s, .node "num_unary", [.rule .unaryOps, .rule .nexpr]⟩ ∨
    p.head = baseRule s ∧ p.label ≠ .splice ∧ p.leadWord?.isSome = true ∧
      p.body.all Part.isLoose = true ∨
    p.head = baseRule s ∧ p.label ≠ .splice ∧
      ∃ s' ∈ [ValueSort.vector, .matrix], ∃ w ∈ ["dot", "@"],
        p.body = [.rule (exprRule s'), word w, .rule (exprRule s')] := by
  cases s <;> decide +kernel

theorem Reads.of_call {is : List Piece} {ts : List Tree} (h : Reads .call is ts) :
    ∃ m inner us, is = [.call m inner] ∧ Reads .exprs inner us ∧
      ts = [.node "call" [.text "macro" m, .node "args" us]] := by
  obtain ⟨p, hp, hmakes⟩ := h.exists_makes
  have hr : productionsOf .call =
      [⟨.call, .node "call", [.rule .macroRef, word "!", .rule .args]⟩] := rfl
  rw [hr, List.mem_singleton] at hp
  subst hp
  exact makes_call hmakes

/-- A list stands in square brackets. -/
theorem Reads.of_list {r r' : Rule} {k : String} {is : List Piece} {ts : List Tree}
    (hr : productionsOf r = [⟨r, .node k, [word "[", .rule r', word "]"]⟩]) (h : Reads r is ts) :
    ∃ inner us, is = [.square inner] ∧ Reads r' inner us ∧ ts = [.node k us] := by
  obtain ⟨p, hp, hmakes⟩ := h.exists_makes
  rw [hr, List.mem_singleton] at hp
  subst hp
  exact makes_square hmakes

theorem Reads.of_base {s : ValueSort} {is : List Piece} {t : Tree}
    (h : Reads (baseRule s) is [t]) : BaseReads s is t := by
  obtain ⟨p, hp, hmakes⟩ := h.exists_makes
  rcases base_productions s p hp with rfl | rfl | ⟨rfl, rfl⟩ | ⟨rfl, rfl⟩ | rfl | ⟨rfl, rfl⟩ |
    ⟨rfl, rfl⟩ | ⟨rfl, rfl⟩ | ⟨hhead, hlabel, hlead, hloose⟩ | ⟨hhead, hlabel, s', -, w, hw, hbody⟩
  · obtain ⟨v, hv, rfl, ht⟩ := (makes_splice hmakes).of_variableRef
    obtain rfl := List.singleton_inj.mp ht
    exact .single (.name hv)
  · obtain ⟨m, inner, us, rfl, hinner, ht⟩ := (makes_splice hmakes).of_call
    obtain rfl := List.singleton_inj.mp ht
    exact .single (.call hinner)
  · obtain ⟨w, hw, rfl, ht⟩ := (makes_splice hmakes).of_textRule (t := .literal) rfl rfl
    obtain rfl := List.singleton_inj.mp ht
    exact .single (.literal rfl hw)
  · obtain ⟨x, rfl, ht⟩ := makes_external hmakes
    obtain rfl := List.singleton_inj.mp ht
    exact .single (.external rfl)
  · obtain ⟨inner, us, rfl, hinner, rfl⟩ := makes_round hmakes
    exact .single (.round hinner)
  · obtain ⟨inner, us, rfl, hinner, ht⟩ := (makes_splice hmakes).of_list rfl
    obtain rfl := List.singleton_inj.mp ht
    exact .single (.list (by decide) hinner)
  · obtain ⟨inner, us, rfl, hinner, ht⟩ := (makes_splice hmakes).of_list rfl
    obtain rfl := List.singleton_inj.mp ht
    exact .single (.list (by decide) hinner)
  -- the productions left have a row of pieces, not one
  · obtain ⟨us, hus, ht⟩ := makes_loose rfl hmakes
    obtain rfl := List.singleton_inj.mp ht
    simp only [readsParts_rule, readsParts_nil] at hus
    obtain ⟨is₁, _, ts₁, _, rfl, rfl, hops, is₂, _, ts₂, _, rfl, rfl, he, rfl, rfl⟩ := hus
    obtain ⟨e, rfl⟩ := he.exists_tree rfl
    simp only [List.append_nil]
    exact .unary rfl hops he
  · obtain ⟨r, label, body⟩ := p
    obtain rfl : r = baseRule s := hhead
    obtain ⟨w, hw⟩ := Option.isSome_iff_exists.mp hlead
    obtain ⟨parts, rfl : body = _⟩ := eq_of_leadWord? hw
    cases label with
    | splice => exact absurd rfl hlabel
    | node k =>
      obtain ⟨us, hus, ht⟩ := makes_loose hloose hmakes
      obtain rfl := List.singleton_inj.mp ht
      obtain ⟨is', rfl, hparts⟩ := readsParts_word.mp hus
      exact .prefixed hp hparts
  · obtain ⟨r, label, body⟩ := p
    obtain rfl : r = baseRule s := hhead
    obtain rfl : body = _ := hbody
    cases label with
    | splice => exact absurd rfl hlabel
    | node k =>
      have hloose : [.rule (exprRule s'), word w, .rule (exprRule s')].all Part.isLoose = true := by
        simp only [List.mem_cons, List.not_mem_nil, or_false] at hw
        rcases hw with rfl | rfl <;> rfl
      obtain ⟨us, hus, ht⟩ := makes_loose hloose hmakes
      obtain rfl := List.singleton_inj.mp ht
      simp only [readsParts_rule, readsParts_word, readsParts_nil] at hus
      obtain ⟨is₁, _, ts₁, _, rfl, rfl, h₁, _, rfl, is₂, _, ts₂, _, rfl, rfl, h₂, rfl, rfl⟩ := hus
      obtain ⟨t₁, rfl⟩ := h₁.exists_tree (exprRule_isRepetition s')
      obtain ⟨t₂, rfl⟩ := h₂.exists_tree (exprRule_isRepetition s')
      simp only [List.append_nil]
      exact .infixed hp h₁ h₂

/-- One piece is an operand by itself: operators and forms have operands of their own. -/
theorem BaseReads.atom {s : ValueSort} {a : Piece} {t : Tree} (h : BaseReads s [a] t) :
    AtomReads s a t := by
  generalize his : [a] = is at h
  cases h with
  | single h =>
    obtain rfl := List.singleton_inj.mp his
    exact h
  | unary hs hops he =>
    have hlen := congrArg List.length his
    have hpos := List.length_pos_of_ne_nil (hops.ne_nil (by decide))
    have hpos' := List.length_pos_of_ne_nil (he.ne_nil (by decide))
    rw [List.length_singleton, List.length_append] at hlen
    omega
  | @prefixed k w parts is ts hp hparts =>
    have hslot : ∀ p ∈ productionsOf (baseRule s), p.label ≠ .splice → p.leadWord?.isSome = true →
        ∃ r ∈ [Rule.binaryOp, .unaryOp, .nexpr, .vexpr, .mexpr, .vexprRun],
          p.body.tail.head? = some (.rule r) := by
      cases s <;> decide +kernel
    obtain ⟨r, hr, hhead⟩ := hslot _ hp (by simp) rfl
    obtain ⟨parts, rfl⟩ : ∃ parts', parts = .rule r :: parts' := List.head?_eq_some_iff.mp hhead
    obtain ⟨is₁, is₂, _, _, rfl, -, hfirst, -⟩ := readsParts_rule.mp hparts
    have hprogram : r ≠ .program := by
      rintro rfl
      simp at hr
    have hlen := congrArg List.length his
    have hpos := List.length_pos_of_ne_nil (hfirst.ne_nil hprogram)
    rw [List.length_singleton, List.length_cons, List.length_append] at hlen
    omega
  | infixed hp h₁ h₂ =>
    have hlen := congrArg List.length his
    have hpos := List.length_pos_of_ne_nil (h₁.ne_nil (exprRule_ne_program _))
    rw [List.length_singleton, List.length_append, List.length_cons] at hlen
    omega

/-! ## Classes of pieces -/

/-- The operators before an operand. -/
def unaryWords : List String :=
  (ruleWords .unaryOp).map Prod.fst

/-- The operators between two operands. -/
def signWords : List String :=
  (ruleWords .binaryOp).map Prod.fst

/-- The words that forms with operands start with. -/
def leadWords : List String :=
  [ValueSort.number, .vector, .matrix].flatMap fun s =>
    ((productionsOf (baseRule s)).filter (·.label != .splice)).filterMap Production.leadWord?

/-- The words of forms between two operands. -/
def joinWords : List String :=
  ["dot", "@"]

/-- What a piece is in an expression. -/
inductive Role where
  /-- An operand by itself. -/
  | operand
  | unary
  | sign
  | lead
  | join
  | other
deriving DecidableEq

/-- What the piece is in an expression. -/
def Piece.role : Piece → Role
  | .word w =>
    if isVariableText w || isNumberText w then .operand
    else if unaryWords.contains w then .unary
    else if signWords.contains w then .sign
    else if leadWords.contains w then .lead
    else if joinWords.contains w then .join
    else .other
  | _ => .operand

theorem role_words : (∀ w ∈ unaryWords, (Piece.word w).role = .unary) ∧
    (∀ w ∈ signWords, (Piece.word w).role = .sign) ∧
    (∀ w ∈ leadWords, (Piece.word w).role = .lead) ∧
    ∀ w ∈ joinWords, (Piece.word w).role = .join := by
  decide +kernel

theorem role_of_sign {s : ValueSort} {w : String × String} (h : w ∈ ruleWords (signRule s)) :
    (Piece.word w.1).role = .sign := by
  have hall : ∀ w ∈ ruleWords (signRule s), w.1 ∈ signWords := by cases s <;> decide +kernel
  exact role_words.2.1 _ (hall w h)

theorem role_of_unary {w : String × String} (h : w ∈ ruleWords .unaryOp) :
    (Piece.word w.1).role = .unary :=
  role_words.1 _ (List.mem_map_of_mem h)

theorem role_of_lead {s : ValueSort} {k w : String} {parts : List Part}
    (hp : ⟨baseRule s, .node k, word w :: parts⟩ ∈ productionsOf (baseRule s)) :
    (Piece.word w).role = .lead := by
  have hs : s ∈ [ValueSort.number, .vector, .matrix] := by cases s <;> decide
  have hmem := List.mem_filter (p := (·.label != Label.splice)).mpr ⟨hp, rfl⟩
  exact role_words.2.2.1 w
    (List.mem_flatMap.mpr ⟨s, hs, List.mem_filterMap.mpr ⟨_, hmem, rfl⟩⟩)

theorem role_of_join {s s' : ValueSort} {k w : String}
    (hp : ⟨baseRule s, .node k, [.rule (exprRule s'), word w, .rule (exprRule s')]⟩ ∈
      productionsOf (baseRule s)) : (Piece.word w).role = .join := by
  rcases base_productions s _ hp with h | h | ⟨-, h⟩ | ⟨-, h⟩ | h | ⟨-, h⟩ | ⟨-, h⟩ | ⟨-, h⟩ |
    ⟨-, -, hlead, -⟩ | ⟨-, -, s'', -, w', hw', hbody⟩
  · cases h
  · cases h
  · cases h
  · cases h
  · cases h
  · cases h
  · cases h
  · have hlen : 3 = 2 := congrArg (fun p => p.body.length) h
    cases hlen
  · cases hlead
  · simp only [List.cons.injEq, word, Part.terminal.injEq, Terminal.word.injEq] at hbody
    rw [hbody.2.1]
    exact role_words.2.2.2 w' hw'

/-- Operators before an operand. -/
theorem Reads.of_unaryOps {is : List Piece} {ts : List Tree} (h : Reads .unaryOps is ts) :
    ∃ ws, ws ≠ [] ∧ (∀ w ∈ ws, w ∈ ruleWords .unaryOp) ∧ is = ws.map (fun w => .word w.1) ∧
      ts = ws.map fun w => .node w.2 [] := by
  obtain ⟨segs, hne, rfl, hsegs⟩ := h.of_run rfl rfl (by decide)
  have hwords : productionsOf .unaryOp = wordNodes .unaryOp (ruleWords .unaryOp) := rfl
  clear h
  induction hsegs with
  | nil => exact absurd rfl hne
  | @cons seg t segs ts hseg hrest ih =>
    obtain ⟨w, hw, rfl, ht⟩ := hseg.of_words hwords rfl
    obtain rfl := List.singleton_inj.mp ht
    cases hrest with
    | nil => exact ⟨[w], by simp, by simpa using hw, by simp, by simp⟩
    | cons hsecond hrest =>
      obtain ⟨ws, -, hws, his, hts⟩ := ih (List.cons_ne_nil _ _)
      refine ⟨w :: ws, List.cons_ne_nil _ _, List.forall_mem_cons.mpr ⟨hw, hws⟩, ?_, ?_⟩
      · rw [List.flatten_cons, his]
        rfl
      · rw [hts]
        rfl

theorem AtomReads.role_eq {s : ValueSort} {a : Piece} {t : Tree} (h : AtomReads s a t) :
    a.role = .operand := by
  cases h with
  | name hv => simp [Piece.role, hv]
  | literal _ hw => simp [Piece.role, hw]
  | _ => rfl

/-- An operand is a single piece, or an operator or a form stands in it. -/
theorem BaseReads.role_cases {s : ValueSort} {is : List Piece} {t : Tree} (h : BaseReads s is t) :
    (∃ i, is = [i] ∧ i.role = .operand) ∨
    (∃ ws is' t', s = .number ∧ ws ≠ [] ∧ (∀ w ∈ ws, w ∈ ruleWords .unaryOp) ∧
      is = ws.map (fun w => .word w.1) ++ is' ∧ Reads (exprRule s) is' [t'] ∧
      t = .node "num_unary" (ws.map (fun w => .node w.2 []) ++ [t'])) ∨
    (∃ k w parts is' ts,
      ⟨baseRule s, .node k, word w :: parts⟩ ∈ productionsOf (baseRule s) ∧ is = .word w :: is' ∧
      ReadsParts parts is' ts ∧ t = .node k ts) ∨
    ∃ i ∈ is, i.role = .join := by
  cases h with
  | single h => exact .inl ⟨_, rfl, h.role_eq⟩
  | unary hs hops he =>
    subst hs
    obtain ⟨ws, hne, hws, rfl, rfl⟩ := hops.of_unaryOps
    exact .inr (.inl ⟨ws, _, _, rfl, hne, hws, rfl, he, rfl⟩)
  | prefixed hp h => exact .inr (.inr (.inl ⟨_, _, _, _, _, hp, rfl, h, rfl⟩))
  | @infixed k w _ _ _ _ _ hp => exact .inr (.inr (.inr ⟨.word w, by simp, role_of_join hp⟩))

/-! ## Operands and operators before them -/

/-- Without signs there is no chain. -/
theorem Reads.base_of_no_sign {s : ValueSort} {is : List Piece} {t : Tree}
    (h : Reads (exprRule s) is [t]) (his : ∀ i ∈ is, i.role ≠ .sign) : BaseReads s is t := by
  obtain ⟨first, t₀, links, t, ht, rfl, hfirst, hlinks, hgrouped⟩ := h.of_expr
  obtain rfl := List.singleton_inj.mp ht
  cases links with
  | nil =>
    rw [hgrouped.alone rfl]
    simpa [Link.piecesOf] using hfirst.of_base
  | cons l links =>
    have hsign := role_of_sign (hlinks l List.mem_cons_self).1
    exact absurd hsign (his _ (by simp [Link.piecesOf]))

/-- Operands alone are one operand. -/
theorem Reads.of_operands {s : ValueSort} {is : List Piece} {t : Tree}
    (h : Reads (exprRule s) is [t]) (his : ∀ i ∈ is, i.role = .operand) :
    ∃ a, is = [a] ∧ BaseReads s [a] t := by
  have hbase := h.base_of_no_sign fun i hi hsign => by rw [his i hi] at hsign; cases hsign
  rcases hbase.role_cases with ⟨a, rfl, -⟩ | ⟨ws, _, _, -, hne, hws, rfl, -⟩ |
    ⟨_, w, _, _, _, hp, rfl, -⟩ | ⟨i, hi, hrole⟩
  · exact ⟨a, rfl, hbase⟩
  · obtain ⟨w, ws, rfl⟩ := List.exists_cons_of_ne_nil hne
    have hrole := role_of_unary (hws w List.mem_cons_self)
    rw [his (.word w.1) (by simp)] at hrole
    cases hrole
  · have hrole := role_of_lead hp
    rw [his (.word w) List.mem_cons_self] at hrole
    cases hrole
  · rw [his i hi] at hrole
    cases hrole

theorem flattens_words {ws : List (String × String)} (hws : ∀ w ∈ ws, w ∈ ruleWords .unaryOp) :
    List.Forall₂ Flattens (ws.map fun w => Tree.node w.2 []) (ws.map fun w => .node w.2 []) := by
  have hkind : ∀ w ∈ ruleWords .unaryOp, w.2 ≠ "call" := by decide +kernel
  refine List.forall₂_same.mpr fun t ht => ?_
  obtain ⟨w, hw, rfl⟩ := List.mem_map.mp ht
  exact .of_forall₂ (hkind w (hws w hw)) .nil

/-- An operand with operators before it, if any. -/
structure SegmentReads (s : ValueSort) (is : List Piece) (t : Tree) : Prop where
  base : BaseReads s is t
  roles : ∀ i ∈ is, i.role = .operand ∨ i.role = .unary

/-- Operators before a single piece, grouped in some way. -/
theorem SegmentReads.of_unary {s : ValueSort} {is : List Piece} {t : Tree}
    (h : SegmentReads s is t) :
    ∃ ws a t₀, (∀ w ∈ ws, w ∈ ruleWords .unaryOp) ∧ is = ws.map (fun w => .word w.1) ++ [a] ∧
      BaseReads s [a] t₀ ∧ (ws = [] → t = t₀) ∧
      (ws ≠ [] → s = .number ∧ ∀ {u}, Flattens t₀ u →
        Flattens t (.node "num_unary" (ws.map (fun w => .node w.2 []) ++ [u]))) := by
  -- by the number of pieces, since the operators may be taken in several steps
  induction hn : is.length using Nat.strong_induction_on generalizing is t with
  | _ n ih =>
    obtain ⟨hbase, his⟩ := h
    rcases hbase.role_cases with ⟨i, rfl, -⟩ | ⟨ws, is', t', rfl, hne, hws, rfl, he, rfl⟩ |
      ⟨_, w, _, _, _, hp, rfl, -⟩ | ⟨i, hi, hrole⟩
    · exact ⟨[], i, t, by simp, rfl, hbase, fun _ => rfl, fun hne => absurd rfl hne⟩
    · rw [List.forall_mem_append] at his
      have hlen : is'.length < n := by
        have := List.length_pos_of_ne_nil hne
        simp only [List.length_append, List.length_map] at hn
        omega
      have hbase' := he.base_of_no_sign fun i hi hsign => by
        rcases his.2 i hi with hrole | hrole <;> rw [hsign] at hrole <;> cases hrole
      obtain ⟨ws', a, t₀, hws', rfl, ha, halone, hflattens⟩ := ih _ hlen ⟨hbase', his.2⟩ rfl
      refine ⟨ws ++ ws', a, t₀, List.forall_mem_append.mpr ⟨hws, hws'⟩, by simp, ha,
        fun hnil => absurd (List.append_eq_nil_iff.mp hnil).1 hne, fun _ => ⟨rfl, fun {u} hu => ?_⟩⟩
      have hops := flattens_words hws
      rw [List.map_append, List.append_assoc]
      by_cases hnil : ws' = []
      · subst hnil
        rw [halone rfl]
        exact .of_forall₂ (by decide) (List.rel_append hops (.cons hu .nil))
      · exact .unary rfl (fun hp => (List.forall₂_iff_zip.mp hops).2 hp) (by simp)
          ((hflattens hnil).2 hu)
    · have hrole := role_of_lead hp
      rcases his (.word w) List.mem_cons_self with h | h <;> rw [hrole] at h <;> cases h
    · rcases his i hi with h | h <;> rw [hrole] at h <;> cases h

/-! ## Chains -/

/-- Operands, signs and operators before operands. -/
def Piece.isOfChain (i : Piece) : Bool :=
  i.role == .operand || i.role == .sign || i.role == .unary

/-- No sign comes after an operator before an operand, so the operator is part of the last operand. -/
def SignsFirst (is : List Piece) : Prop :=
  is.Pairwise fun i j => i.role = .unary → j.role ≠ .sign

instance (is : List Piece) : Decidable (SignsFirst is) :=
  inferInstanceAs (Decidable (List.Pairwise _ _))

theorem BaseReads.segment {s : ValueSort} {is : List Piece} {t : Tree} (h : BaseReads s is t)
    (his : ∀ i ∈ is, i.isOfChain = true) (hsigns : SignsFirst is) : SegmentReads s is t := by
  refine ⟨h, fun i hi => ?_⟩
  simp only [Piece.isOfChain, Bool.or_eq_true, beq_iff_eq] at his
  rcases h.role_cases with ⟨a, rfl, ha⟩ | ⟨ws, is', t', rfl, hne, hws, rfl, -⟩ |
    ⟨_, w, _, _, _, hp, rfl, -⟩ | ⟨j, hj, hrole⟩
  · rw [List.mem_singleton.mp hi]
    exact .inl ha
  · -- the first operator keeps signs away from all that comes after it
    obtain ⟨w, ws, rfl⟩ := List.exists_cons_of_ne_nil hne
    have hunary := role_of_unary (hws w List.mem_cons_self)
    rw [List.map_cons, List.cons_append] at hi hsigns
    rcases List.mem_cons.mp hi with rfl | hi
    · exact .inr hunary
    · have hsign := (List.pairwise_cons.mp hsigns).1 i hi hunary
      exact (his i (List.mem_cons_of_mem _ hi)).imp_left fun h => h.resolve_right hsign
  · have hrole := role_of_lead hp
    rcases his (.word w) List.mem_cons_self with (h | h) | h <;> rw [hrole] at h <;> cases h
  · rcases his j hj with (h | h) | h <;> rw [hrole] at h <;> cases h

/-- A sign and an operand with operators before it, if any. -/
def Link.IsSegment (s : ValueSort) (l : Link) : Prop :=
  (l.word, l.kind) ∈ ruleWords (signRule s) ∧ SegmentReads s l.pieces l.tree

/-- The operands of a chain are what stands between the signs. -/
theorem Reads.of_chain {s : ValueSort} {is : List Piece} {t : Tree} (h : Reads (exprRule s) is [t])
    (his : ∀ i ∈ is, i.isOfChain = true) (hsigns : SignsFirst is) :
    ∃ first t₀ links, is = first ++ Link.piecesOf links ∧ SegmentReads s first t₀ ∧
      (∀ l ∈ links, l.IsSegment s) ∧ Grouped s t₀ links t := by
  obtain ⟨first, t₀, links, t, ht, rfl, hfirst, hlinks, hgrouped⟩ := h.of_expr
  obtain rfl := List.singleton_inj.mp ht
  rw [List.forall_mem_append] at his
  obtain ⟨hfirstSigns, hlinkSigns, -⟩ := List.pairwise_append.mp hsigns
  refine ⟨first, t₀, links, rfl, hfirst.of_base.segment his.1 hfirstSigns, fun l hl => ?_, hgrouped⟩
  obtain ⟨hword, hreads⟩ := hlinks l hl
  have hsublist : l.pieces.Sublist (Link.piecesOf links) :=
    ((List.sublist_cons_self _ _).trans (List.sublist_flatten_of_mem
      (List.mem_map.mpr ⟨l, hl, rfl⟩)))
  exact ⟨hword, hreads.of_base.segment (fun i hi => his.2 i (hsublist.mem hi))
    (List.Pairwise.sublist hsublist hlinkSigns)⟩

/-! ## Forms with operands -/

/-- The part is an operator. -/
def Part.isOperator : Part → Bool
  | .rule .unaryOp => true
  | .rule .binaryOp => true
  | _ => false

/-- The part stands for operands one after the other. -/
def Part.isRun : Part → Bool
  | .rule .vexprRun => true
  | .rule .mexprRun => true
  | _ => false

/-- Operators, operands and indices, or at the end operands one after the other. -/
def isSlots : List Part → Bool
  | [] => true
  | [.rule .vexprRun] => true
  | [.rule .mexprRun] => true
  | .rule r :: parts =>
    [Rule.unaryOp, .binaryOp, .nexpr, .vexpr, .mexpr, .number].contains r && isSlots parts
  | _ => false

/-- The number of operators in a form. -/
def operatorCount (w : String) : Nat :=
  if ["reduce", "map", "apply"].contains w then 1 else 0

/-- The pieces that are no operands. -/
def strangers (is : List Piece) : Nat :=
  is.countP (·.role != .operand)

/-- Pieces that fill the parts of a form one by one. -/
inductive Aligned : List Part → List Piece → List Tree → Prop where
  | nil : Aligned [] [] []
  | sign {r w parts is ts} (hr : r = .unaryOp ∨ r = .binaryOp) (hw : w ∈ ruleWords r)
      (h : Aligned parts is ts) :
      Aligned (.rule r :: parts) (.word w.1 :: is) (.node w.2 [] :: ts)
  | operand {s a t parts is ts} (ha : a.role = .operand) (hbase : BaseReads s [a] t)
      (h : Aligned parts is ts) : Aligned (.rule (exprRule s) :: parts) (a :: is) (t :: ts)
  | index {w parts is ts} (hw : isNumberText w = true) (h : Aligned parts is ts) :
      Aligned (.rule .number :: parts) (.word w :: is) (.text "number" w :: ts)
  | run {s is ts} (hs : s ≠ .number) (h : List.Forall₂ (fun a t => BaseReads s [a] t) is ts) :
      Aligned [.rule (runRule s)] is ts

theorem strangers_append (is js : List Piece) :
    strangers (is ++ js) = strangers is + strangers js :=
  List.countP_append ..

theorem strangers_word {w : String} (h : (Piece.word w).role ≠ .operand) :
    strangers [.word w] = 1 := by
  simp [strangers, h]

theorem strangers_eq_zero {is : List Piece} (h : strangers is = 0) :
    ∀ i ∈ is, i.role = .operand := by
  intro i hi
  simpa using List.countP_eq_zero.mp h i hi

/-- What the parts of a form can be. -/
theorem slot_cases {part : Part} {parts : List Part} (h : isSlots (part :: parts) = true) :
    (∃ s, s ≠ .number ∧ part = .rule (runRule s) ∧ parts = []) ∨
    (∃ r, (r = .unaryOp ∨ r = .binaryOp) ∧ part = .rule r ∧ isSlots parts = true) ∨
    (∃ s, part = .rule (exprRule s) ∧ isSlots parts = true) ∨
    part = .rule .number ∧ isSlots parts = true := by
  unfold isSlots at h
  split at h
  · next heq => cases heq
  · next heq =>
    cases heq
    exact .inl ⟨.vector, by decide, rfl, rfl⟩
  · next heq =>
    cases heq
    exact .inl ⟨.matrix, by decide, rfl, rfl⟩
  · next r parts' _ _ heq =>
    cases heq
    rw [Bool.and_eq_true, List.contains_iff_mem] at h
    simp only [List.mem_cons, List.not_mem_nil, or_false] at h
    obtain ⟨rfl | rfl | rfl | rfl | rfl | rfl, hslots⟩ := h
    · exact .inr (.inl ⟨_, .inl rfl, rfl, hslots⟩)
    · exact .inr (.inl ⟨_, .inr rfl, rfl, hslots⟩)
    · exact .inr (.inr (.inl ⟨.number, rfl, hslots⟩))
    · exact .inr (.inr (.inl ⟨.vector, rfl, hslots⟩))
    · exact .inr (.inr (.inl ⟨.matrix, rfl, hslots⟩))
    · exact .inr (.inr (.inr ⟨rfl, hslots⟩))
  · cases h

theorem isOperator_rule {r : Rule} (hr : r = .unaryOp ∨ r = .binaryOp) :
    (Part.rule r).isOperator = true := by
  rcases hr with rfl | rfl <;> rfl

theorem not_isOperator_exprRule (s : ValueSort) : ¬ (Part.rule (exprRule s)).isOperator = true := by
  cases s <;> decide

theorem role_of_operator {r : Rule} (hr : r = .unaryOp ∨ r = .binaryOp) {w : String × String}
    (hw : w ∈ ruleWords r) : (Piece.word w.1).role ≠ .operand := by
  rcases hr with rfl | rfl
  · rw [role_of_unary hw]
    decide
  · rw [role_of_sign (s := .number) hw]
    decide

theorem Reads.of_operator {r : Rule} (hr : r = .unaryOp ∨ r = .binaryOp) {is : List Piece}
    {ts : List Tree} (h : Reads r is ts) :
    ∃ w ∈ ruleWords r, is = [.word w.1] ∧ ts = [.node w.2 []] ∧ (Piece.word w.1).role ≠ .operand := by
  have hwords : productionsOf r = wordNodes r (ruleWords r) := by rcases hr with rfl | rfl <;> rfl
  have hloose : (ruleWords r).all (!holdingWords.contains ·.1) = true := by
    rcases hr with rfl | rfl <;> rfl
  obtain ⟨w, hw, rfl, rfl⟩ := h.of_words hwords hloose
  exact ⟨w, hw, rfl, rfl, role_of_operator hr hw⟩

theorem run_productions {s : ValueSort} (hs : s ≠ .number) :
    productionsOf (runRule s) = run (runRule s) (exprRule s) ∧
    ¬ (Part.rule (runRule s)).isOperator = true ∧ (Part.rule (runRule s)).isRun = true := by
  cases s with
  | number => exact absurd rfl hs
  | vector => exact ⟨rfl, by decide, rfl⟩
  | matrix => exact ⟨rfl, by decide, rfl⟩

/-- Each operator of a form is a piece that is no operand. -/
theorem ReadsParts.count_le {parts : List Part} {is : List Piece} {ts : List Tree}
    (h : ReadsParts parts is ts) (hslots : isSlots parts = true) :
    parts.countP Part.isOperator ≤ strangers is := by
  induction parts generalizing is ts with
  | nil => exact Nat.zero_le _
  | cons part parts ih =>
    rcases slot_cases hslots with ⟨s, hs, rfl, rfl⟩ | ⟨r, hr, rfl, hrest⟩ | ⟨s, rfl, hrest⟩ |
      ⟨rfl, hrest⟩
    · rw [List.countP_cons_of_neg (run_productions hs).2.1]
      exact Nat.zero_le _
    · obtain ⟨is₁, is₂, ts₁, ts₂, rfl, rfl, h₁, h₂⟩ := readsParts_rule.mp h
      obtain ⟨w, -, rfl, -, hrole⟩ := h₁.of_operator hr
      rw [List.countP_cons_of_pos (isOperator_rule hr), strangers_append, strangers_word hrole,
        Nat.add_comm]
      exact Nat.add_le_add_left (ih h₂ hrest) 1
    · obtain ⟨is₁, is₂, ts₁, ts₂, rfl, rfl, h₁, h₂⟩ := readsParts_rule.mp h
      rw [List.countP_cons_of_neg (not_isOperator_exprRule s), strangers_append]
      exact Nat.le_add_left_of_le (ih h₂ hrest)
    · obtain ⟨is₁, is₂, ts₁, ts₂, rfl, rfl, h₁, h₂⟩ := readsParts_rule.mp h
      rw [List.countP_cons_of_neg (by decide), strangers_append]
      exact Nat.le_add_left_of_le (ih h₂ hrest)

/-- Operands one after the other, each a single piece. -/
theorem Reads.of_operandRun {s : ValueSort} (hs : s ≠ .number) {is : List Piece} {ts : List Tree}
    (h : Reads (runRule s) is ts) (his : ∀ i ∈ is, i.role = .operand) :
    List.Forall₂ (fun a t => BaseReads s [a] t) is ts := by
  obtain ⟨segs, -, rfl, hsegs⟩ :=
    h.of_run (run_productions hs).1 (exprRule_isRepetition s) (exprRule_ne_program s)
  clear h
  induction hsegs with
  | nil => exact .nil
  | cons hseg _ ih =>
    rw [List.flatten_cons, List.forall_mem_append] at his
    obtain ⟨a, rfl, hbase⟩ := hseg.of_operands his.1
    exact .cons hbase (ih his.2)

/-- Where only the operators of a form are no operands, its operands are single pieces. -/
theorem ReadsParts.aligned {parts : List Part} {is : List Piece} {ts : List Tree}
    (h : ReadsParts parts is ts) (hslots : isSlots parts = true)
    (hcount : strangers is ≤ parts.countP Part.isOperator) : Aligned parts is ts := by
  induction parts generalizing is ts with
  | nil =>
    obtain ⟨rfl, rfl⟩ := readsParts_nil.mp h
    exact .nil
  | cons part parts ih =>
    rcases slot_cases hslots with ⟨s, hs, rfl, rfl⟩ | ⟨r, hr, rfl, hrest⟩ | ⟨s, rfl, hrest⟩ |
      ⟨rfl, hrest⟩
    · obtain ⟨is₁, is₂, ts₁, ts₂, rfl, rfl, h₁, h₂⟩ := readsParts_rule.mp h
      obtain ⟨rfl, rfl⟩ := readsParts_nil.mp h₂
      rw [List.countP_cons_of_neg (run_productions hs).2.1, List.append_nil] at hcount
      rw [List.append_nil, List.append_nil]
      exact .run hs (h₁.of_operandRun hs (strangers_eq_zero (Nat.le_zero.mp hcount)))
    · obtain ⟨is₁, is₂, ts₁, ts₂, rfl, rfl, h₁, h₂⟩ := readsParts_rule.mp h
      obtain ⟨w, hw, rfl, rfl, hrole⟩ := h₁.of_operator hr
      rw [List.countP_cons_of_pos (isOperator_rule hr), strangers_append, strangers_word hrole]
        at hcount
      have haligned := ih h₂ hrest (by omega)
      exact .sign hr hw haligned
    · obtain ⟨is₁, is₂, ts₁, ts₂, rfl, rfl, h₁, h₂⟩ := readsParts_rule.mp h
      rw [List.countP_cons_of_neg (not_isOperator_exprRule s), strangers_append] at hcount
      -- all operators are among the other pieces, so the first operand has none of its own
      have hle := h₂.count_le hrest
      have hnone : strangers is₁ = 0 := by omega
      have hoperands := strangers_eq_zero hnone
      obtain ⟨t, rfl⟩ := h₁.exists_tree (exprRule_isRepetition s)
      obtain ⟨a, rfl, hbase⟩ := h₁.of_operands hoperands
      have haligned := ih h₂ hrest (by omega)
      exact .operand (hoperands a List.mem_cons_self) hbase haligned
    · obtain ⟨is₁, is₂, ts₁, ts₂, rfl, rfl, h₁, h₂⟩ := readsParts_rule.mp h
      rw [List.countP_cons_of_neg (by decide), strangers_append] at hcount
      obtain ⟨w, hw, rfl, rfl⟩ := h₁.of_textRule (t := .literal) rfl rfl
      have haligned := ih h₂ hrest (by omega)
      exact .index hw haligned

/-- The forms with a leading word: their parts are slots, the word says how many of them are
operators, and the places of the operators tell forms with the same word apart. -/
theorem lead_productions (s : ValueSort) : ∀ p ∈ productionsOf (baseRule s), p.label ≠ .splice →
    p.leadWord?.isSome = true → isSlots p.body.tail = true ∧
      p.leadWord?.map operatorCount = some (p.body.tail.countP Part.isOperator) ∧
      ∀ p' ∈ productionsOf (baseRule s), p'.label ≠ .splice → p'.leadWord? = p.leadWord? →
        (p.body.tail.any Part.isRun = true ∨
          p.body.tail.map Part.isOperator = p'.body.tail.map Part.isOperator) → p = p' := by
  cases s <;> decide +kernel

/-- A form with a leading word whose operands are single pieces. -/
theorem Reads.of_lead {s : ValueSort} {w : String} {rest : List Piece} {t : Tree}
    (h : Reads (exprRule s) (.word w :: rest) [t]) (hw : (Piece.word w).role = .lead)
    (hrest : ∀ i ∈ rest, i.role ≠ .join) (hcount : strangers rest = operatorCount w) :
    ∃ k parts ts, ⟨baseRule s, .node k, word w :: parts⟩ ∈ productionsOf (baseRule s) ∧
      Aligned parts rest ts ∧ t = .node k ts := by
  obtain ⟨first, t₀, links, t, ht, hsplit, hfirst, hlinks, hgrouped⟩ := h.of_expr
  obtain rfl := List.singleton_inj.mp ht
  have hne : first ≠ [] := hfirst.ne_nil (by cases s <;> decide)
  obtain ⟨i, before, rfl⟩ := List.exists_cons_of_ne_nil hne
  rw [List.cons_append] at hsplit
  obtain ⟨rfl, rfl⟩ := List.cons.inj hsplit
  rw [List.forall_mem_append] at hrest
  rcases hfirst.of_base.role_cases with ⟨i, heq, hrole⟩ | ⟨ws, is', t', -, hne, hws, heq, -⟩ |
    ⟨k, w', parts, is', ts, hp, heq, hparts, rfl⟩ | ⟨i, hi, hrole⟩
  · rw [← (List.cons.inj heq).1, hw] at hrole
    cases hrole
  · obtain ⟨w', ws, rfl⟩ := List.exists_cons_of_ne_nil hne
    rw [(List.cons.inj heq).1, role_of_unary (hws w' List.mem_cons_self)] at hw
    cases hw
  · cases heq
    obtain ⟨hslots, hoperators, -⟩ := lead_productions s _ hp (by simp) rfl
    have hoperators : operatorCount w = parts.countP Part.isOperator := Option.some.inj hoperators
    have hle := hparts.count_le hslots
    cases links with
    | nil =>
      rw [hgrouped.alone rfl]
      simp only [Link.piecesOf, List.flatMap_nil, List.append_nil] at hcount ⊢
      exact ⟨k, parts, ts, hp, hparts.aligned hslots (by omega), rfl⟩
    | cons l links =>
      -- the sign after the first operand would be one operator too many
      have hsign := role_of_sign (hlinks l List.mem_cons_self).1
      have hpieces : Link.piecesOf (l :: links) = [.word l.word] ++ (l.pieces ++ Link.piecesOf links) :=
        rfl
      have hrole : (Piece.word l.word).role ≠ .operand := by simp [hsign]
      rw [hpieces, strangers_append, strangers_append, strangers_word hrole] at hcount
      omega
  · rcases List.mem_cons.mp hi with rfl | hi
    · rw [hw] at hrole
      cases hrole
    · exact absurd hrole (hrest.1 i hi)

theorem Aligned.places {parts : List Part} {is : List Piece} {ts : List Tree}
    (h : Aligned parts is ts) (hrun : parts.any Part.isRun = false) :
    parts.map Part.isOperator = is.map fun i => i.role != .operand := by
  induction h with
  | nil => rfl
  | @sign r w _ _ _ hr hw _ ih =>
    have hrole : ((Piece.word w.1).role != .operand) = true := bne_iff_ne.mpr (role_of_operator hr hw)
    rw [List.any_cons, Bool.or_eq_false_iff] at hrun
    rw [List.map_cons, List.map_cons, ih hrun.2, isOperator_rule hr, hrole]
  | @operand s a _ _ _ _ ha _ _ ih =>
    have hoperator := eq_false_of_ne_true (not_isOperator_exprRule s)
    rw [List.any_cons, Bool.or_eq_false_iff] at hrun
    rw [List.map_cons, List.map_cons, ih hrun.2, hoperator, ha]
    rfl
  | @index w _ _ _ hw _ ih =>
    have hrole : (Piece.word w).role = .operand := by simp [Piece.role, hw]
    rw [List.any_cons, Bool.or_eq_false_iff] at hrun
    rw [List.map_cons, List.map_cons, ih hrun.2, hrole]
    rfl
  | @run s _ _ hs =>
    rw [List.any_cons, (run_productions hs).2.2] at hrun
    cases hrun

/-- The form is determined by its pieces. -/
theorem Aligned.eq_form {s : ValueSort} {k k' w : String} {parts parts' : List Part}
    {is : List Piece} {ts ts' : List Tree}
    (hp : ⟨baseRule s, .node k, word w :: parts⟩ ∈ productionsOf (baseRule s))
    (hp' : ⟨baseRule s, .node k', word w :: parts'⟩ ∈ productionsOf (baseRule s))
    (h : Aligned parts is ts) (h' : Aligned parts' is ts') : k = k' ∧ parts = parts' := by
  obtain ⟨-, -, hforms⟩ := lead_productions s _ hp (by simp) rfl
  obtain ⟨-, -, hforms'⟩ := lead_productions s _ hp' (by simp) rfl
  suffices heq : (⟨baseRule s, .node k, word w :: parts⟩ : Production) =
      ⟨baseRule s, .node k', word w :: parts'⟩ by
    cases heq
    exact ⟨rfl, rfl⟩
  cases hrun : parts.any Part.isRun with
  | true => exact hforms _ hp' (by simp) rfl (.inl hrun)
  | false =>
    cases hrun' : parts'.any Part.isRun with
    | true => exact (hforms' _ hp (by simp) rfl (.inl hrun')).symm
    | false => exact hforms _ hp' (by simp) rfl (.inr ((h.places hrun).trans (h'.places hrun').symm))

/-! ## Forms between two operands -/

/-- A form between two single pieces. -/
theorem Reads.of_join {s : ValueSort} {a b : Piece} {w : String} {t : Tree}
    (h : Reads (exprRule s) [a, .word w, b] [t]) (ha : a.role = .operand)
    (hw : (Piece.word w).role = .join) (hb : b.role = .operand) :
    ∃ k s' t₁ t₂, ⟨baseRule s, .node k, [.rule (exprRule s'), word w, .rule (exprRule s')]⟩ ∈
        productionsOf (baseRule s) ∧
      BaseReads s' [a] t₁ ∧ BaseReads s' [b] t₂ ∧ t = .node k [t₁, t₂] := by
  have hbase : BaseReads s [a, .word w, b] t := by
    refine h.base_of_no_sign ?_
    simp [ha, hw, hb]
  generalize his : [a, .word w, b] = is at hbase
  cases hbase with
  | unary _ hops _ =>
    obtain ⟨ws, hne, hws, rfl, -⟩ := hops.of_unaryOps
    obtain ⟨w', ws, rfl⟩ := List.exists_cons_of_ne_nil hne
    rw [(List.cons.inj his).1, role_of_unary (hws w' List.mem_cons_self)] at ha
    cases ha
  | prefixed hp =>
    rw [(List.cons.inj his).1, role_of_lead hp] at ha
    cases ha
  | @infixed k w' s' is₁ t₁ is₂ t₂ hp h₁ h₂ =>
    have hrole := role_of_join hp
    obtain ⟨x, is₁, rfl⟩ := List.exists_cons_of_ne_nil (h₁.ne_nil (exprRule_ne_program s'))
    rw [List.cons_append, List.cons.injEq] at his
    obtain ⟨rfl, his⟩ := his
    cases is₁ with
    | nil =>
      simp only [List.nil_append, List.cons.injEq, Piece.word.injEq] at his
      obtain ⟨rfl, rfl⟩ := his
      obtain ⟨_, hleft, hbase⟩ := h₁.of_operands (by simpa using ha)
      obtain ⟨_, hright, hbase'⟩ := h₂.of_operands (by simpa using hb)
      rw [← hleft] at hbase
      rw [← hright] at hbase'
      exact ⟨k, s', t₁, t₂, hp, hbase, hbase', rfl⟩
    | cons y is₁ =>
      -- the word of the form would be the last piece, which is an operand
      rw [List.cons_append, List.cons.injEq] at his
      have hmem : .word w' ∈ [b] := by rw [his.2]; simp
      rw [← List.mem_singleton.mp hmem, hrole] at hb
      cases hb
  | _ => cases his

/-- A word makes at most one form between two operands of a sort. -/
theorem join_productions {s s₁ s₂ : ValueSort} {k₁ k₂ w : String}
    (h₁ : ⟨baseRule s, .node k₁, [.rule (exprRule s₁), word w, .rule (exprRule s₁)]⟩ ∈
      productionsOf (baseRule s))
    (h₂ : ⟨baseRule s, .node k₂, [.rule (exprRule s₂), word w, .rule (exprRule s₂)]⟩ ∈
      productionsOf (baseRule s)) : k₁ = k₂ ∧ s₁ = s₂ := by
  have hone : ∀ p ∈ productionsOf (baseRule s), ∀ p' ∈ productionsOf (baseRule s),
      p.label ≠ .splice → p'.label ≠ .splice → p.leadWord? = none → p'.leadWord? = none →
      p.body.length = 3 → p'.body.length = 3 → p = p' := by
    cases s <;> decide +kernel
  have heq := hone _ h₁ _ h₂ (by simp) (by simp) rfl rfl rfl rfl
  simp only [Production.mk.injEq, Label.node.injEq, List.cons.injEq, Part.rule.injEq] at heq
  exact ⟨heq.2.1, exprRule_injective heq.2.2.1⟩

end Scalarize.Grammar
