import Scalarize.Proofs.PrintedTokens
import Scalarize.Proofs.Reduction

/-!
# Scalarize — programs of constants are computed

A program that reads nothing from outside and has operators with two operands only is reduced to
literals, unless two numbers cannot be combined on the way. The argument is one of progress. Of the
statements in order, the first that does not assign a literal reads literals only, so they are
propagated to it; and an expression without names that is no literal has an operation on two
literals somewhere, so that is folded.

* **`IsBinary`**, **`IsConstant`** — the expressions and the programs.
* **`ReductionStep.isConstant`** — a step of reduction keeps to them.
* **`IsBinary.isNumber_of_closed`**, **`IsConstant.isNumber_of_settled`** — progress, in an expression
  and in a program.
* **`constant_program_computed`** — what reduction comes to.
-/

namespace Scalarize

namespace Tree

/-! ## Expressions of operators with two operands -/

/-- An expression of operators with two operands, over names and literals. -/
inductive IsBinary : Tree → Prop where
  | named (x : String) : IsBinary (leaf "variable" (some (.text x)))
  | number (s : Scalar) : IsBinary (leaf "number" (some s))
  | operation {k : String} {v : Option Scalar} {a b : Tree} (hk : k ∈ Layout.binaryKinds)
      (ha : IsBinary a) (hb : IsBinary b) : IsBinary (branch k v [a, b])

theorem not_reserved_of_binary : ∀ k ∈ Layout.binaryKinds, k ∉ reservedKinds := by
  decide +kernel

theorem IsBinary.isExpression {e : Tree} (h : e.IsBinary) : e.IsExpression := by
  induction h with
  | named x => exact .named x
  | number s => exact .number _
  | @operation k v a b hk _ _ iha ihb =>
    refine .operation (not_reserved_of_binary k hk) fun c hc => ?_
    rcases List.mem_pair.mp hc with rfl | rfl
    · exact iha
    · exact ihb

theorem IsBinary.eq_of_isNumber {e : Tree} (h : e.IsBinary) (hnumber : e.isNumber = true) :
    ∃ s, e = leaf "number" (some s) := by
  cases h with
  | named x => cases hnumber
  | number s => exact ⟨s, rfl⟩
  | @operation k v a b hk ha hb =>
    obtain rfl : k = "number" := beq_iff_eq.mp hnumber
    exact absurd (by decide : "number" ∈ reservedKinds) (not_reserved_of_binary _ hk)

/-- An expression that reads no name and has no operation on two numbers is a number. -/
theorem IsBinary.isNumber_of_closed {e : Tree} (h : e.IsBinary) (hreads : e.readNames = [])
    (hfolded : ∀ u ∈ e.nodes, ∀ a b, u.children = [a, b] →
      ¬ (a.isNumber = true ∧ b.isNumber = true)) : e.isNumber = true := by
  induction h with
  | named x => cases hreads
  | number s => rfl
  | @operation k v a b hk ha hb iha ihb =>
    obtain ⟨hareads, hbreads⟩ : a.readNames = [] ∧ b.readNames = [] := by
      rwa [readNames_branch, List.flatMap_cons, List.flatMap_singleton, List.append_eq_nil_iff]
        at hreads
    -- otherwise both operands are numbers, and the operation itself is one on two numbers
    have hanumber := iha hareads fun u hu => hfolded u (mem_nodes_of_child (by simp [children]) hu)
    have hbnumber := ihb hbreads fun u hu => hfolded u (mem_nodes_of_child (by simp [children]) hu)
    exact absurd ⟨hanumber, hbnumber⟩ (hfolded _ (mem_nodes_self _) a b rfl)

theorem replaceable_isBinary : Replaceable IsBinary := by
  intro k v l r c h
  generalize hcs : l ++ c :: r = cs at h
  cases h with
  | @operation _ _ a b hk ha hb =>
    -- the operand is the first or the second
    rcases l with _ | ⟨x, _ | ⟨y, l⟩⟩
    · obtain ⟨rfl, rfl⟩ : c = a ∧ r = [b] := by simpa using hcs
      exact ⟨ha, fun d hd => .operation hk hd hb⟩
    · obtain ⟨rfl, rfl, rfl⟩ : x = a ∧ c = b ∧ r = [] := by simpa using hcs
      exact ⟨hb, fun d hd => .operation hk ha hd⟩
    · simp at hcs

theorem Simplifies.isBinary {t u : Tree} (h : Simplifies t u) (ht : t.IsBinary) : u.IsBinary := by
  obtain ⟨a, b, hchildren, hu⟩ := simplify_cases h.2
  cases ht with
  | named x => cases hchildren
  | number s => cases hchildren
  | @operation k v a' b' hk ha hb =>
    obtain ⟨rfl, rfl⟩ : a' = a ∧ b' = b := by simpa [children] using hchildren
    rcases hu with rfl | rfl | ⟨d, rfl⟩
    · exact ha
    · exact hb
    · exact .number _

/-! ## Programs that read nothing from outside -/

/-- A program in order that reads only what it has assigned, with operators of two operands. -/
structure IsConstant (program : Tree) : Prop extends program.IsOrdered where
  sides : ∀ a ∈ program.statements, a.rightSide.IsBinary
  closed : ∀ a ∈ program.statements, ∀ x ∈ a.reads, x ∈ program.statements.map targetName

theorem RewritesSide.isConstant {R : Tree → Tree → Prop} {p q : Tree} (h : RewritesSide R p q)
    (hp : p.IsConstant) (hq : q.IsOrdered) (hR : ∀ t u, R t u → t.IsBinary → u.IsBinary)
    (hreads : ∀ t u, R t u → ∀ x ∈ u.readNames, x ∈ t.readNames ∨
      ∃ y ∈ t.readNames, ∃ b ∈ p.statements, b.targetName = y ∧ x ∈ b.reads) : q.IsConstant := by
  obtain ⟨pre, post, k, v, x, e, e', hsp, hsq, he⟩ := h.statements
  have hside : branch k v [x, e] ∈ p.statements := by simp [hsp]
  refine ⟨hq, h.keeps replaceable_isBinary hp.sides hR, ?_⟩
  have hold : ∀ a ∈ pre ++ branch k v [x, e] :: post, ∀ y ∈ a.reads,
      y ∈ p.statements.map targetName := fun a ha => hp.closed a (by rwa [hsp])
  rw [h.targets_eq, hsq]
  refine forall_mem_replace hold fun _ y hy => ?_
  rcases he.readNames_cases hreads y hy with hy | ⟨z, -, b, hb, -, hyb⟩
  · exact hp.closed _ hside y hy
  · exact hp.closed b hb y hyb

theorem ReductionStep.isConstant {p q : Tree} (h : ReductionStep p q) (hp : p.IsConstant) :
    q.IsConstant ∧ q.statements.map targetName = p.statements.map targetName := by
  have hordered := hp.toIsOrdered
  rcases h with hq | ⟨-, hq⟩
  · have hside := hordered.propagateStep_rewrites hq
    refine ⟨hside.isConstant hp (hordered.of_propagateStep hq) ?_ ?_, hside.targets_eq⟩
    · rintro t e ⟨b, hb, rfl, rfl, -⟩ -
      exact hp.sides b hb
    · rintro t e ⟨b, hb, rfl, rfl, -⟩ x hx
      refine .inr ⟨b.targetName, ?_, b, hb, rfl, hx⟩
      simp [readNames_leaf, valueText, Scalar.render]
  · cases hordered.chip.fold_outcome hq.ends with
    | changed hside =>
      refine ⟨hside.isConstant hp (hordered.of_fold hside) ?_ ?_, hside.targets_eq⟩
      · exact fun t u htu => htu.isBinary
      · exact fun t u htu x hx => .inl (htu.readNames_subset hx)

theorem isConstant_of_steps {p q : Tree} (h : Relation.ReflTransGen ReductionStep p q)
    (hp : p.IsConstant) :
    q.IsConstant ∧ q.statements.map targetName = p.statements.map targetName := by
  induction h with
  | refl => exact ⟨hp, rfl⟩
  | tail _ hstep ih =>
    obtain ⟨hconstant, htargets⟩ := hstep.isConstant ih.1
    exact ⟨hconstant, htargets.trans ih.2⟩

/-! ## Where nothing is left to do -/

/-- A statement reads nothing, if all statements before it assign numbers and there is nothing to
propagate. -/
theorem IsConstant.reads_eq_nil {p a : Tree} {pre post : List Tree} (h : p.IsConstant)
    (hsettled : p.Settled) (hsplit : p.statements = pre ++ a :: post)
    (hpre : ∀ b ∈ pre, b.rightSide.isNumber = true) : a.reads = [] := by
  refine List.eq_nil_iff_forall_not_mem.mpr fun x hx => ?_
  have ha : a ∈ p.statements := by simp [hsplit]
  obtain ⟨b, hb, rfl⟩ := List.mem_map.mp (h.closed a ha x hx)
  have hbefore : b ∈ pre := by
    rw [hsplit, List.mem_append] at hb
    refine hb.resolve_right fun hlater => ?_
    have horder : InOrder (pre ++ a :: post) := hsplit ▸ h.inOrder
    exact horder.of_append.1 b hlater hx
  -- a number has no names, so it could be propagated
  obtain ⟨s, hs⟩ := (h.sides b hb).eq_of_isNumber (hpre b hbefore)
  have hreads := (hsettled.propagated a ha b hb hx).2
  rw [hs] at hreads
  exact hreads rfl

/-- If nothing is left to do, every statement assigns a number. The induction takes the statements
in order. -/
theorem IsConstant.isNumber_of_settled {p : Tree} (h : p.IsConstant) (hsettled : p.Settled) :
    ∀ a ∈ p.statements, a.rightSide.isNumber = true := by
  have hall : ∀ pre post : List Tree, p.statements = pre ++ post →
      ∀ a ∈ pre, a.rightSide.isNumber = true := by
    intro pre
    induction pre using List.reverseRecOn with
    | nil => exact fun post _ a ha => absurd ha List.not_mem_nil
    | append_singleton pre a ih =>
      intro post hsplit
      rw [List.append_assoc, List.singleton_append] at hsplit
      have hpre := ih (a :: post) hsplit
      have ha : a ∈ p.statements := by simp [hsplit]
      have hnumber : a.rightSide.isNumber = true :=
        (h.sides a ha).isNumber_of_closed (h.reads_eq_nil hsettled hsplit hpre) fun u hu =>
          hsettled.folded u (h.toIsOrdered.mem_nodes_of_side ha hu)
      exact List.forall_mem_append.mpr ⟨hpre, List.forall_mem_singleton.mpr hnumber⟩
  exact hall p.statements [] (by simp)

/-- The reduction of a program that reads nothing from outside and has operators with two operands
only. It gives a program that assigns the same names in the same order, and a literal to each; or it
stops because two literals, met on the way, cannot be combined. -/
theorem constant_program_computed {program : Tree} (h : program.IsConstant) (trace : Trace) :
    (∃ p, (program.reduce.runFrom trace).1 = .ok p ∧
      p.statements.map targetName = program.statements.map targetName ∧
      ∀ a ∈ p.statements, ∃ s, a.rightSide = leaf "number" (some s)) ∨
    ∃ p e, (program.reduce.runFrom trace).1 = .error e ∧
      Relation.ReflTransGen ReductionStep program p ∧ p.FoldingFails e := by
  have houtcome := reduce_outcome h.toIsOrdered (Traced.ends_runFrom program.reduce trace)
  generalize (program.reduce.runFrom trace).1 = r at houtcome
  cases houtcome with
  | @settled p hsteps hp hnone hfold =>
    obtain ⟨hconstant, htargets⟩ := isConstant_of_steps hsteps h
    refine .inl ⟨p, rfl, htargets, fun a ha => (hconstant.sides a ha).eq_of_isNumber ?_⟩
    exact hconstant.isNumber_of_settled (hp.settled hnone hfold) a ha
  | @failed p e hsteps hp hnone hfold => exact .inr ⟨p, e, rfl, hsteps, hp.foldingFails hfold⟩

/-- Three assignments on two lines. Literals of the program and results of folding meet: `b` is a
product with a zero of the program, and `c` a power with results of folding. -/
def constantChip : Tree :=
  node "program" [
    node "line" [
      node "assignment" [variableNamed "a", node "add" [numberOf (.int 1), numberOf (.int 2)]],
      node "assignment" [variableNamed "b", node "mul" [variableNamed "a", numberOf (.int 0)]]],
    node "line" [
      node "assignment" [variableNamed "c", node "exp" [variableNamed "a", variableNamed "b"]]]]

theorem isBinary_constantChip : ∀ a ∈ constantChip.statements, ∃ x e,
    a = node "assignment" [variableNamed x, e] ∧ e.IsBinary := by
  intro a ha
  have ha' : a = node "assignment" [variableNamed "a", node "add" [numberOf (.int 1),
        numberOf (.int 2)]] ∨
      a = node "assignment" [variableNamed "b", node "mul" [variableNamed "a",
        numberOf (.int 0)]] ∨
      a = node "assignment" [variableNamed "c", node "exp" [variableNamed "a",
        variableNamed "b"]] := by
    simpa [constantChip, statements, children, node] using ha
  rcases ha' with rfl | rfl | rfl
  · exact ⟨_, _, rfl, .operation (by decide) (.number _) (.number _)⟩
  · exact ⟨_, _, rfl, .operation (by decide) (.named _) (.number _)⟩
  · exact ⟨_, _, rfl, .operation (by decide) (.named _) (.named _)⟩

theorem isConstant_constantChip : constantChip.IsConstant := by
  have hside := isBinary_constantChip
  have hlines : ∀ l ∈ constantChip.children, l.kind = "line" ∧ l.isLeaf = false := by
    intro l hl
    rcases List.mem_pair.mp hl with rfl | rfl <;> exact ⟨rfl, rfl⟩
  have hchip : constantChip.IsChip := by
    refine ⟨rfl, fun l hl => ⟨(hlines l hl).1, (hlines l hl).2, fun a ha => ?_⟩⟩
    obtain ⟨x, e, rfl, he⟩ := hside a (List.mem_flatMap.mpr ⟨l, hl, ha⟩)
    exact ⟨rfl, _, e, rfl, he.isExpression.find_isStatement⟩
  refine ⟨⟨hchip, fun a ha => ?_, by decide, ⟨by decide, by decide, by decide, trivial⟩⟩,
    fun a ha => ?_, by decide⟩
  · obtain ⟨x, e, rfl, he⟩ := hside a ha
    exact ⟨x, e, rfl, he.isExpression⟩
  · obtain ⟨x, e, rfl, he⟩ := hside a ha
    exact he

theorem constant_program_computed_sample :
    constantChip.IsConstant ∧ ∃ p, (constantChip.reduce.runFrom .start).1 = .ok p ∧
      p.statements.map targetName = ["a", "b", "c"] ∧
      ∀ a ∈ p.statements, ∃ s, a.rightSide = leaf "number" (some s) := by
  refine ⟨isConstant_constantChip, ?_⟩
  have hok : (constantChip.reduce.runFrom .start).1.toOption.isSome = true := by decide +kernel
  rcases constant_program_computed isConstant_constantChip .start with hcomputed | ⟨p, e, he, -⟩
  · exact hcomputed
  · rw [he] at hok
    cases hok

end Tree

end Scalarize
