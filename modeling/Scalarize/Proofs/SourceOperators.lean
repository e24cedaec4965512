import Scalarize.Proofs.OperandReadings
import Scalarize.Proofs.PrintedTokens
import Scalarize.Proofs.SingleAssignment
import Scalarize.Proofs.SourceMacros

/-!
# Scalarize — the operators of a lowered program

The operators in a lowered program are names, and nothing in a chip program says that there is such
an operator. They are taken from the source program, from places where the grammar has an operator:
one of two operands between operands, one of one operand before an operand.

* **`knownOperators`** — the operators on numbers, with the number of their operands.
* **`Tree.Operates`** — all nodes of a tree have such operators in the places of operators. It goes
  over to the expansions of macro calls.
* **`Reads.operates`** — the trees of the grammar are such trees.
* **`operates_of_lowerProgram`** — the operators of a lowered program are known.
-/

namespace Scalarize

open Traced Grammar

/-- The operators on numbers, each with the number of its operands. -/
def knownOperators : List (Nat × String) :=
  Layout.unaryKinds.map (1, ·) ++ Layout.binaryKinds.map (2, ·)

/-! ## Trees with known operators -/

/-- The nodes of the tree apply known operators only. -/
inductive Tree.Operates : Tree → Prop where
  | intro {t : Tree} (hops : ∀ s, ∀ o ∈ operators s t, o ∈ knownOperators)
      (h : ∀ c ∈ t.children, c.Operates) : Operates t

theorem Tree.Operates.child {t c : Tree} (h : t.Operates) (hc : c ∈ t.children) : c.Operates := by
  cases h with
  | intro _ h => exact h c hc

section

variable {σ : String → Option Tree} {n : Nat} {f : String → String}

/-- An operator keeps its name, since it is no variable. -/
theorem known_sign (hf : (n, f "variable") ∉ knownOperators) {c : Tree}
    (h : (n, f c.kind) ∈ knownOperators) : (n, f (c.substitute σ).kind) ∈ knownOperators := by
  have hkind : c.kind ≠ "variable" := by
    intro hkind
    rw [hkind] at h
    exact hf h
  rwa [Tree.kind_substitute hkind]

theorem known_chain (hf : (2, f "variable") ∉ knownOperators) {rest : List Tree}
    (h : ∀ o ∈ (pairs rest).map fun p => (2, f p.1.kind), o ∈ knownOperators) :
    ∀ o ∈ (pairs (rest.map (Tree.substitute σ))).map fun p => (2, f p.1.kind),
      o ∈ knownOperators := by
  intro o ho
  rw [pairs_map, List.map_map] at ho
  obtain ⟨p, hp, rfl⟩ := List.mem_map.mp ho
  exact known_sign hf (h _ (List.mem_map_of_mem hp))

theorem variable_not_known :
    (1, "variable") ∉ knownOperators ∧ (2, "variable") ∉ knownOperators ∧
      (2, Vec.elementOperator "variable") ∉ knownOperators ∧
      (2, Vec.elementOperator (Mat.rowOperator "variable")) ∉ knownOperators := by
  decide +kernel

variable {cs : List Tree}

/-- One operator, in front of everything else. -/
theorem known_lead (hn : (n, "variable") ∉ knownOperators) {c : Tree}
    (h : ∀ o ∈ [(n, c.kind)], o ∈ knownOperators) :
    ∀ o ∈ [(n, (c.substitute σ).kind)], o ∈ knownOperators := by
  rw [List.forall_mem_singleton] at h ⊢
  exact known_sign (f := id) hn h

theorem NumForm.known_substitute (f : NumForm) (h : ∀ o ∈ f.operators cs, o ∈ knownOperators) :
    ∀ o ∈ f.operators (cs.map (Tree.substitute σ)), o ∈ knownOperators := by
  obtain ⟨hone, htwo, -, -⟩ := variable_not_known
  cases f with
  | chain =>
    cases cs with
    | nil => exact h
    | cons c rest => exact known_chain (f := id) htwo h
  | unaryChain =>
    show ∀ o ∈ (cs.map (Tree.substitute σ)).dropLast.map fun op => (1, op.kind), o ∈ knownOperators
    rw [← List.map_dropLast, List.map_map]
    intro o ho
    obtain ⟨c, hc, rfl⟩ := List.mem_map.mp ho
    exact known_sign (f := id) hone (h _ (List.mem_map_of_mem hc))
  | reduce =>
    cases cs with
    | nil => exact h
    | cons c rest => exact known_lead htwo h
  | _ => exact h

theorem VecForm.known_substitute (f : VecForm) (h : ∀ o ∈ f.operators cs, o ∈ knownOperators) :
    ∀ o ∈ f.operators (cs.map (Tree.substitute σ)), o ∈ knownOperators := by
  obtain ⟨hone, htwo, hvector, -⟩ := variable_not_known
  rcases cs with _ | ⟨c, rest⟩
  · exact h
  cases f with
  | chain => exact known_chain hvector h
  | map => exact known_lead hone h
  | premap => exact known_lead htwo h
  | postmap =>
    cases rest with
    | nil => exact h
    | cons c rest => exact known_lead htwo h
  | apply => exact known_lead htwo h
  | _ => exact h

theorem MatForm.known_substitute (f : MatForm) (h : ∀ o ∈ f.operators cs, o ∈ knownOperators) :
    ∀ o ∈ f.operators (cs.map (Tree.substitute σ)), o ∈ knownOperators := by
  obtain ⟨hone, htwo, -, hmatrix⟩ := variable_not_known
  rcases cs with _ | ⟨c, rest⟩
  · exact h
  cases f with
  | chain => exact known_chain (f := fun k => Vec.elementOperator (Mat.rowOperator k)) hmatrix h
  | map => exact known_lead hone h
  | premap => exact known_lead htwo h
  | postmap =>
    cases rest with
    | nil => exact h
    | cons c rest => exact known_lead htwo h
  | apply => exact known_lead htwo h
  | _ => exact h

theorem known_substituteBelow {t : Tree} (h : ∀ s, ∀ o ∈ operators s t, o ∈ knownOperators) :
    ∀ s, ∀ o ∈ operators s (t.substituteBelow σ), o ∈ knownOperators := by
  intro s
  replace h := h s
  cases s <;>
    rw [operators] at h ⊢ <;>
    rw [Tree.kind_substituteBelow, Tree.children_substituteBelow]
  · cases hf : NumForm.ofKind? t.kind with
    | none => exact fun o ho => absurd ho List.not_mem_nil
    | some f =>
      rw [hf] at h
      exact f.known_substitute h
  · cases hf : VecForm.ofKind? t.kind with
    | none => exact fun o ho => absurd ho List.not_mem_nil
    | some f =>
      rw [hf] at h
      exact f.known_substitute h
  · cases hf : MatForm.ofKind? t.kind with
    | none => exact fun o ho => absurd ho List.not_mem_nil
    | some f =>
      rw [hf] at h
      exact f.known_substitute h

end

namespace Tree.Operates

variable {σ : String → Option Tree} {t : Tree}

theorem substitute (h : t.Operates) (hσ : ∀ x e, σ x = some e → e.Operates) :
    (t.substitute σ).Operates := by
  induction h with
  | @intro t hops h ih =>
    by_cases hkind : t.kind = "variable"
    · rw [substitute_of_variable hkind]
      cases hx : σ t.name with
      | none => exact .intro hops h
      | some e => exact hσ _ _ hx
    · rw [substitute_of_not_variable hkind]
      refine .intro (known_substituteBelow hops) fun c hc => ?_
      rw [children_substituteBelow] at hc
      obtain ⟨b, hb, rfl⟩ := List.mem_map.mp hc
      exact ih b hb

theorem substituteBelow (h : t.Operates) (hσ : ∀ x e, σ x = some e → e.Operates) :
    (t.substituteBelow σ).Operates := by
  cases h with
  | intro hops h =>
    refine .intro (known_substituteBelow hops) fun c hc => ?_
    rw [children_substituteBelow] at hc
    obtain ⟨b, hb, rfl⟩ := List.mem_map.mp hc
    exact (h b hb).substitute hσ

end Tree.Operates

theorem MacroDef.eq_of_call {m : MacroDef} {args : List Tree} {body : Tree}
    (h : (m.call args).toOption = some body) : body = m.body.substituteBelow (m.binding args) := by
  unfold MacroDef.call at h
  split at h
  · cases h
  · cases hcheck : MacroDef.checkArgs m.params args with
    | error d =>
      rw [hcheck] at h
      cases h
    | ok _ =>
      rw [hcheck] at h
      exact (Option.some.inj h).symm

/-- The nodes that occur in an expression, macro calls expanded, have known operators. -/
theorem Tree.Operates.of_occurs {macros : Macros} (hmacros : ∀ d ∈ macros, d.2.body.Operates)
    {t u : Tree} (ht : t.Operates) (h : Occurs macros t u) : u.Operates := by
  induction h with
  | here => exact ht
  | child _ hc _ ih => exact ih (ht.child hc)
  | @expanded t body u _ hbody _ ih =>
    obtain ⟨callee, args, rest, m, hchildren, hm, hcall⟩ := expansion_eq_some hbody
    have hargs : args.Operates := ht.child (by simp [hchildren])
    rw [MacroDef.eq_of_call hcall] at ih
    refine ih ((hmacros _ (mem_of_lookup hm)).substituteBelow fun x e he => ?_)
    exact hargs.child (MacroDef.mem_of_binding he)

/-! ## The trees of the grammar -/

/-- The kinds of nodes with operators among their children. -/
def operatorKinds : List String :=
  ["num_binary", "num_unary", "reduce", "vec_binary", "vec_map", "vec_premap", "vec_postmap",
    "vec_apply", "mat_binary", "mat_map", "mat_premap", "mat_postmap", "mat_apply"]

/-- Without operators among the children there are only those of products. -/
theorem known_of_not_operatorKind {t : Tree} (h : t.kind ∉ operatorKinds) :
    ∀ s, ∀ o ∈ operators s t, o ∈ knownOperators := by
  have hproduct : ∀ o ∈ [(2, "mul"), (2, "add")], o ∈ knownOperators := by decide +kernel
  have hnumber : ∀ p ∈ NumForm.table, p.1 ∉ operatorKinds →
      p.2 ≠ .chain ∧ p.2 ≠ .unaryChain ∧ p.2 ≠ .reduce := by decide +kernel
  have hvector : ∀ p ∈ VecForm.table, p.1 ∉ operatorKinds → p.2 ≠ .chain ∧ p.2 ≠ .map ∧
      p.2 ≠ .premap ∧ p.2 ≠ .postmap ∧ p.2 ≠ .apply := by decide +kernel
  have hmatrix : ∀ p ∈ MatForm.table, p.1 ∉ operatorKinds → p.2 ≠ .chain ∧ p.2 ≠ .map ∧
      p.2 ≠ .premap ∧ p.2 ≠ .postmap ∧ p.2 ≠ .apply := by decide +kernel
  intro s
  cases s <;> rw [operators]
  · cases hf : NumForm.ofKind? t.kind with
    | none => exact fun o ho => absurd ho List.not_mem_nil
    | some f =>
      have hne := hnumber _ (mem_of_lookup hf) h
      cases f with
      | chain => exact absurd rfl hne.1
      | unaryChain => exact absurd rfl hne.2.1
      | reduce => exact absurd rfl hne.2.2
      | dot => exact hproduct
      | _ => exact fun o ho => absurd ho List.not_mem_nil
  · cases hf : VecForm.ofKind? t.kind with
    | none => exact fun o ho => absurd ho List.not_mem_nil
    | some f =>
      have hne := hvector _ (mem_of_lookup hf) h
      cases f with
      | chain => exact absurd rfl hne.1
      | map => exact absurd rfl hne.2.1
      | premap => exact absurd rfl hne.2.2.1
      | postmap => exact absurd rfl hne.2.2.2.1
      | apply => exact absurd rfl hne.2.2.2.2
      | _ => exact fun o ho => absurd ho List.not_mem_nil
  · cases hf : MatForm.ofKind? t.kind with
    | none => exact fun o ho => absurd ho List.not_mem_nil
    | some f =>
      have hne := hmatrix _ (mem_of_lookup hf) h
      cases f with
      | chain => exact absurd rfl hne.1
      | map => exact absurd rfl hne.2.1
      | premap => exact absurd rfl hne.2.2.1
      | postmap => exact absurd rfl hne.2.2.2.1
      | apply => exact absurd rfl hne.2.2.2.2
      | product => exact hproduct
      | _ => exact fun o ho => absurd ho List.not_mem_nil

namespace Grammar

/-- How the productions of these kinds begin. -/
theorem operator_productions : ∀ p ∈ productions, ∀ k ∈ operatorKinds, p.label = .node k →
    (∃ s ∈ [ValueSort.number, .vector, .matrix],
      k = s.chainKind ∧ p.body = [.rule (chainRule s), .rule (tailRule s)]) ∨
    (k = "num_unary" ∧ p.body = [.rule .unaryOps, .rule .nexpr]) ∨
    (k ∈ ["vec_map", "mat_map"] ∧ p.body.take 2 = [word "map", .rule .unaryOp]) ∨
    (k ∈ ["reduce", "vec_premap", "vec_apply", "mat_premap", "mat_apply"] ∧
      ∃ w ∈ ["reduce", "map", "apply"], p.body.take 2 = [word w, .rule .binaryOp]) ∨
    (k ∈ ["vec_postmap", "mat_postmap"] ∧
      p.body.take 3 = [word "map", .rule .nexpr, .rule .binaryOp]) := by
  decide +kernel

/-- The words of operators are known operators. -/
theorem known_words : (∀ w ∈ ruleWords .unaryOp, (1, w.2) ∈ knownOperators) ∧
    (∀ w ∈ ruleWords .binaryOp, (2, w.2) ∈ knownOperators) ∧
    (∀ w ∈ ruleWords .vecOp, (2, Vec.elementOperator w.2) ∈ knownOperators) ∧
    ∀ w ∈ ruleWords .matOp, (2, Vec.elementOperator (Mat.rowOperator w.2)) ∈ knownOperators := by
  decide +kernel

theorem pairs_treesOf (links : List Link) :
    pairs (Link.treesOf links) = links.map fun l => (.node l.kind [], l.tree) := by
  induction links with
  | nil => rfl
  | cons l links ih =>
    show pairs (.node l.kind [] :: l.tree :: Link.treesOf links) = _
    rw [pairs, ih, List.map_cons]

section

variable {is : List Piece} {ts : List Tree} {parts : List Part}

/-- The operators of a chain. -/
theorem known_of_chain {s : ValueSort}
    (h : ReadsParts [.rule (chainRule s), .rule (tailRule s)] is ts) :
    ∀ s', ∀ o ∈ operators s' (.node s.chainKind ts), o ∈ knownOperators := by
  simp only [readsParts_rule, readsParts_nil] at h
  obtain ⟨_, _, _, _, rfl, rfl, hfirst, _, _, _, _, rfl, rfl, htail, rfl, rfl⟩ := h
  obtain ⟨-, -, htails, hsigns, hwords, hbase, -⟩ := sort_productions s
  obtain ⟨t, rfl⟩ := hfirst.exists_tree (by cases s <;> rfl)
  obtain ⟨links, -, -, rfl, hlinks⟩ := htail.of_chainTail hsigns hwords hbase htails
  obtain ⟨-, hnumber, hvector, hmatrix⟩ := known_words
  -- the operators that are applied are those of the links, as operators on numbers
  have hchain : ∀ f : String → String, (∀ w ∈ ruleWords (signRule s), (2, f w.2) ∈ knownOperators) →
      ∀ o ∈ (pairs (Link.treesOf links ++ [])).map fun p => (2, f p.1.kind),
        o ∈ knownOperators := by
    intro f hf o ho
    rw [List.append_nil, pairs_treesOf, List.map_map] at ho
    obtain ⟨l, hl, rfl⟩ := List.mem_map.mp ho
    exact hf _ (hlinks l hl).1
  have hnone : ∀ o ∈ ([] : List (Nat × String)), o ∈ knownOperators :=
    fun o ho => absurd ho List.not_mem_nil
  intro s'
  cases s <;> cases s'
  · exact hchain id hnumber
  · exact hnone
  · exact hnone
  · exact hnone
  · exact hchain _ hvector
  · exact hnone
  · exact hnone
  · exact hnone
  · exact hchain (fun k => Vec.elementOperator (Mat.rowOperator k)) hmatrix

/-- The operators before an operand. -/
theorem known_of_unaryOps (h : ReadsParts [.rule .unaryOps, .rule .nexpr] is ts) :
    ∀ s, ∀ o ∈ operators s (.node "num_unary" ts), o ∈ knownOperators := by
  simp only [readsParts_rule, readsParts_nil] at h
  obtain ⟨_, _, _, _, rfl, rfl, hops, _, _, _, _, rfl, rfl, he, rfl, rfl⟩ := h
  obtain ⟨ws, -, hws, -, rfl⟩ := hops.of_unaryOps
  obtain ⟨t, rfl⟩ := he.exists_tree rfl
  intro s
  cases s with
  | number =>
    intro o ho
    replace ho : o ∈ (ws.map (fun w : String × String => Tree.node w.2 []) ++ ([t] ++ [])).dropLast.map
      fun op : Tree => (1, op.kind) := ho
    rw [List.append_nil, List.dropLast_concat, List.map_map] at ho
    obtain ⟨w, hw, rfl⟩ := List.mem_map.mp ho
    exact known_words.1 w (hws w hw)
  | vector => exact fun o ho => absurd ho List.not_mem_nil
  | matrix => exact fun o ho => absurd ho List.not_mem_nil

/-- Nodes of the kind are expressions of one sort and apply one operator, the child at the place, to
`n` operands. -/
def AppliesAt (place n : Nat) (k : String) : Prop :=
  ∃ s₀, ∀ s cs, operators s (.node k cs) =
    if s = s₀ then (cs[place]?).toList.map fun c => (n, c.kind) else []

theorem appliesAt_kinds : (∀ k ∈ ["vec_map", "mat_map"], AppliesAt 0 1 k) ∧
    (∀ k ∈ ["reduce", "vec_premap", "vec_apply", "mat_premap", "mat_apply"], AppliesAt 0 2 k) ∧
    ∀ k ∈ ["vec_postmap", "mat_postmap"], AppliesAt 1 2 k := by
  simp only [List.forall_mem_cons, List.not_mem_nil, false_imp_iff, implies_true, and_true]
  refine ⟨⟨⟨.vector, ?_⟩, ⟨.matrix, ?_⟩⟩,
    ⟨⟨.number, ?_⟩, ⟨.vector, ?_⟩, ⟨.vector, ?_⟩, ⟨.matrix, ?_⟩, ⟨.matrix, ?_⟩⟩,
    ⟨.vector, ?_⟩, ⟨.matrix, ?_⟩⟩ <;>
  · intro s cs
    rcases cs with _ | ⟨c, _ | ⟨d, us⟩⟩ <;> cases s <;> rfl

theorem AppliesAt.known {place n : Nat} {k : String} (h : AppliesAt place n k)
    (hts : ∀ c, ts[place]? = some c → (n, c.kind) ∈ knownOperators) :
    ∀ s, ∀ o ∈ operators s (.node k ts), o ∈ knownOperators := by
  obtain ⟨s₀, hops⟩ := h
  intro s o ho
  rw [hops] at ho
  split at ho
  · obtain ⟨c, hc, rfl⟩ := List.mem_map.mp ho
    exact hts c (Option.mem_toList.mp hc)
  · cases ho

/-- An operator in front. -/
theorem known_of_lead {n : Nat} {k w : String} {r : Rule} (hk : AppliesAt 0 n k)
    (hr : r = .unaryOp ∨ r = .binaryOp) (hwords : ∀ w ∈ ruleWords r, (n, w.2) ∈ knownOperators)
    (h : ReadsParts (word w :: .rule r :: parts) is ts) :
    ∀ s, ∀ o ∈ operators s (.node k ts), o ∈ knownOperators := by
  simp only [readsParts_word, readsParts_rule] at h
  obtain ⟨_, rfl, _, _, _, us, rfl, rfl, hop, -⟩ := h
  obtain ⟨w, hw, -, rfl, -⟩ := hop.of_operator hr
  refine hk.known fun c hc => ?_
  cases hc
  exact hwords w hw

/-- An operator after a number. -/
theorem known_of_postmap {k w : String} (hk : AppliesAt 1 2 k)
    (h : ReadsParts (word w :: .rule .nexpr :: .rule .binaryOp :: parts) is ts) :
    ∀ s, ∀ o ∈ operators s (.node k ts), o ∈ knownOperators := by
  simp only [readsParts_word, readsParts_rule] at h
  obtain ⟨_, rfl, _, _, _, _, rfl, rfl, he, _, _, _, us, rfl, rfl, hop, -⟩ := h
  obtain ⟨e, rfl⟩ := he.exists_tree rfl
  obtain ⟨w, hw, -, rfl, -⟩ := hop.of_operator (.inr rfl)
  refine hk.known fun c hc => ?_
  cases hc
  exact known_words.2.1 w hw

/-- What a production makes of trees has known operators at its root. -/
theorem known_of_production {r : Rule} {k : String} {body : List Part}
    (hp : ⟨r, .node k, body⟩ ∈ productions) (h : ReadsParts body is ts) :
    ∀ s, ∀ o ∈ operators s (.node k ts), o ∈ knownOperators := by
  by_cases hk : k ∈ operatorKinds
  · rcases operator_productions _ hp k hk rfl with ⟨s, -, rfl, hbody⟩ | ⟨rfl, hbody⟩ |
      ⟨hkind, hbody⟩ | ⟨hkind, w, -, hbody⟩ | ⟨hkind, hbody⟩
    · obtain rfl : body = _ := hbody
      exact known_of_chain h
    · obtain rfl : body = _ := hbody
      exact known_of_unaryOps h
    · rw [← List.take_append_drop 2 body, show body.take 2 = _ from hbody] at h
      exact known_of_lead (appliesAt_kinds.1 k hkind) (.inl rfl) known_words.1 h
    · rw [← List.take_append_drop 2 body, show body.take 2 = _ from hbody] at h
      exact known_of_lead (appliesAt_kinds.2.1 k hkind) (.inr rfl) known_words.2.1 h
    · rw [← List.take_append_drop 3 body, show body.take 3 = _ from hbody] at h
      exact known_of_postmap (appliesAt_kinds.2.2 k hkind) h
  · exact known_of_not_operatorKind hk

end

/-- The trees of the grammar have known operators. -/
theorem Reads.operates {r : Rule} {is : List Piece} {ts : List Tree} (h : Reads r is ts) :
    ∀ t ∈ ts, t.Operates := by
  -- texts and brackets have no operators: they are of other kinds
  have hkinds : ∀ p ∈ productions, ∀ k ∈ operatorKinds, p.label = .node k →
      p.body.all Part.isLoose = true ∧ p.body.length ≠ 1 := by decide +kernel
  have hbare : ∀ {k : String} {cs : List Tree}, k ∉ operatorKinds → (∀ c ∈ cs, c.Operates) →
      (Tree.node k cs).Operates :=
    fun hk hcs => .intro (known_of_not_operatorKind hk) hcs
  have hleaf : ∀ {k : String}, k ∉ operatorKinds → ∀ w, (Tree.text k w).Operates :=
    fun hk w => .intro (known_of_not_operatorKind hk) fun c hc => absurd hc List.not_mem_nil
  have hheld : ∀ {r label body} {ts : List Tree}, ⟨r, label, body⟩ ∈ productions →
      body.all Part.isLoose = false → (∀ t ∈ ts, t.Operates) →
      ∀ t ∈ Label.trees label ts, t.Operates := by
    intro r label body ts hp hloose hts
    cases label with
    | splice => exact hts
    | node k =>
      refine List.forall_mem_singleton.mpr (hbare (fun hk => ?_) hts)
      rw [show body.all Part.isLoose = true from (hkinds _ hp k hk rfl).1] at hloose
      cases hloose
  refine @Reads.rec (fun _ _ ts _ => ∀ t ∈ ts, t.Operates) (fun _ _ ts _ => ∀ t ∈ ts, t.Operates)
    ?text ?parts ?external ?call ?round ?square ?nil ?word ?rule _ _ _ h
  case text =>
    intro r k t w hp _ _
    exact List.forall_mem_singleton.mpr (hleaf (fun hk => (hkinds _ hp k hk rfl).2 rfl) w)
  case parts =>
    intro r label body is ts hp _ hparts ih
    cases label with
    | splice => exact ih
    | node k => exact List.forall_mem_singleton.mpr (.intro (known_of_production hp hparts) ih)
  case external =>
    intro r x _ _
    exact List.forall_mem_singleton.mpr (hleaf (by decide) x)
  case call =>
    intro m is ts _ _ ih
    refine List.forall_mem_singleton.mpr (hbare (by decide) fun c hc => ?_)
    rcases List.mem_pair.mp hc with rfl | rfl
    · exact hleaf (by decide) m
    · exact hbare (by decide) ih
  case round =>
    intro r label r' is ts hp _ ih
    exact hheld hp rfl ih
  case square =>
    intro r label r' is ts hp _ ih
    exact hheld hp rfl ih
  case nil => exact fun t ht => absurd ht List.not_mem_nil
  case word => exact fun _ ih => ih
  case rule =>
    intro r is ts parts is' ts' _ _ ih ihparts
    exact List.forall_mem_append.mpr ⟨ih, ihparts⟩

theorem operates_of_isSource {cs : List Char} {p : ParseTree} (h : IsSource cs p) :
    ∃ program, p.toTree = .ok program ∧ program.Operates := by
  obtain ⟨_, _, program, -, -, -, hp, hreads⟩ := exists_reads_of_isSource h
  exact ⟨program, hp, hreads.operates program List.mem_cons_self⟩

end Grammar

/-! ## Macros -/

theorem operates_of_readProgram {source : String} {program : Tree}
    (h : readProgram source = .ok program) : program.Operates := by
  unfold readProgram at h
  split at h
  · cases h
  · next p hp =>
    obtain ⟨program', hprogram, hoperates⟩ := operates_of_isSource (isSource_of_parse hp)
    rw [hprogram] at h
    rwa [← Except.ok.inj h]

theorem operates_of_sourceStatements {program t : Tree} (h : program.Operates)
    (ht : t ∈ sourceStatements program) : t.Operates := by
  obtain ⟨line, hline, hhead⟩ := List.mem_filterMap.mp ht
  exact (h.child hline).child (List.mem_of_head? hhead)

/-- The definitions of a library are statements of a program. -/
theorem exists_program_of_load {files : FileStore} {library : String} {ds : List Tree}
    (h : Library.load files library = .ok ds) :
    ∃ source program, readProgram source = .ok program ∧ ∀ d ∈ ds, d ∈ sourceStatements program := by
  unfold Library.load at h
  split at h
  · cases h
  · split at h
    · cases h
    · split at h
      · cases h
      · next program hprogram =>
        split at h
        · cases h
        · next ss hss =>
          split at h
          · cases h
          · next ds' hds =>
            obtain rfl := Except.ok.inj h
            refine ⟨_, program, hprogram, fun d hd => ?_⟩
            rw [← statements_eq hss]
            exact (mem_of_definitions hds d hd).1
  · cases h

theorem operates_of_brought {files : FileStore} {t : Tree} (ht : t.Operates) :
    ∀ d ∈ broughtDefinitions files t, d.Operates := by
  unfold broughtDefinitions
  split
  · exact List.forall_mem_singleton.mpr ht
  · split
    · split
      · next library _ _ =>
        cases hload : Library.load files library.name with
        | error e => exact fun d hd => absurd hd List.not_mem_nil
        | ok ds =>
          obtain ⟨source, program, hprogram, hds⟩ := exists_program_of_load hload
          exact fun d hd =>
            operates_of_sourceStatements (operates_of_readProgram hprogram) (hds d hd)
      · exact fun d hd => absurd hd List.not_mem_nil
    · exact fun d hd => absurd hd List.not_mem_nil

theorem body_mem_of_definedMacro {t : Tree} {d : String × MacroDef}
    (h : definedMacro? t = some d) : d.2.body ∈ t.children := by
  unfold definedMacro? at h
  split at h
  · next name params body rest hchildren =>
    obtain ⟨s, -, h⟩ := Option.bind_eq_some_iff.mp h
    obtain ⟨ps, -, rfl⟩ := Option.map_eq_some_iff.mp h
    simp [hchildren]
  · cases h

theorem operates_of_sourceMacros {files : FileStore} {program : Tree} (h : program.Operates) :
    ∀ d ∈ sourceMacros files program, d.2.body.Operates := by
  intro d hd
  obtain ⟨t, ht, hd⟩ := List.mem_filterMap.mp hd
  obtain ⟨u, hu, ht⟩ := List.mem_flatMap.mp ht
  exact (operates_of_brought (operates_of_sourceStatements h hu) t ht).child
    (body_mem_of_definedMacro hd)

theorem operates_of_sourceLets {program : Tree} (h : program.Operates) :
    ∀ l ∈ sourceLets program, l.expr.Operates := by
  intro l hl
  obtain ⟨t, ht, hlet⟩ := List.mem_filterMap.mp hl
  unfold Tree.asLet? at hlet
  split at hlet
  · next s x e rest _ hchildren =>
    cases hlet
    exact (operates_of_sourceStatements h ht).child (by simp [hchildren])
  · cases hlet

/-! ## Lowered programs -/

/-- The operators in the number are known. -/
def Num.Operates : Num → Prop
  | literal _ => True
  | name _ => True
  | unary op x => (1, op) ∈ knownOperators ∧ x.Operates
  | binary op x y => (2, op) ∈ knownOperators ∧ x.Operates ∧ y.Operates

theorem Num.closed_operates : Num.Closed (· ∈ knownOperators) Num.Operates :=
  ⟨fun _ => trivial, fun hop hx => ⟨hop, hx⟩, fun hop hx hy => ⟨hop, hx, hy⟩⟩

/-- A run over expressions with known operators assigns numbers with known operators. -/
theorem Lowers.operates {env env' : Env} {ls : List SourceLet} {lines : List Tree}
    (h : Lowers env ls env' lines) (hmacros : ∀ d ∈ env'.macros, d.2.body.Operates)
    (hlets : ∀ l ∈ ls, l.expr.Operates)
    (hvars : ∀ b ∈ env.bindings, b.value.Each Num.Operates) :
    ∀ line ∈ lines, ∃ index v, v.Each Num.Operates ∧
      line = .node "line" (Value.assign index v).1 := by
  induction h with
  | done => exact fun line hline => absurd hline List.not_mem_nil
  | declare hd _ ih =>
    rw [← hd.bindings_eq] at hvars
    exact ih hmacros hlets hvars
  | @bind env env₁ env' v statements ls lines l hsort hv hbind rest ih =>
    have hinitial := (Lowers.bind hsort hv hbind rest).macros_initial
    have hvalue : v.Each Num.Operates := by
      refine hv.each Num.closed_operates hvars (fun u s hu => ?_) fun u _ _ => trivial
      have hu := Tree.Operates.of_occurs (fun d hd => hmacros d (hinitial.subset hd))
        (hlets l List.mem_cons_self) hu
      cases hu with
      | intro hops _ => exact hops s
    obtain rfl := Env.statements_of_bind hbind
    refine List.forall_mem_cons.mpr ⟨⟨_, v, hvalue, rfl⟩, ih hmacros ?_ ?_⟩
    · exact fun l' hl' => hlets l' (List.mem_cons_of_mem _ hl')
    · -- what is kept of the value are names
      rw [Env.bindings_of_bind hbind]
      refine List.forall_mem_append.mpr ⟨hvars, List.forall_mem_singleton.mpr ?_⟩
      rw [Value.each_iff, Value.parts_assign]
      intro x hx
      obtain ⟨c, -, rfl⟩ := List.mem_map.mp hx
      trivial

/-- The operators of a lowered program are known. -/
theorem operates_of_lowerProgram {files : FileStore} {program chip : Tree} {env : Env}
    (hprogram : program.Operates) (h : (lowerProgram files .empty program).Returns (env, chip)) :
    ∃ lines, chip = chipProgram lines ∧ ∀ line ∈ lines, ∃ index v, v.Each Num.Operates ∧
      line = .node "line" (Value.assign index v).1 := by
  obtain ⟨lines, rfl, hlowers, hmacros⟩ := lowers_of_lowerProgram h
  refine ⟨lines, rfl, hlowers.operates ?_ (operates_of_sourceLets hprogram) fun b hb => by cases hb⟩
  rw [show env.macros = sourceMacros files program from hmacros]
  exact operates_of_sourceMacros hprogram

end Scalarize
