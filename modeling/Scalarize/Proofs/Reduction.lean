import Scalarize.Program.Reduction
import Scalarize.Proofs.ConstantFolding
import Scalarize.Proofs.CopyPropagation

/-!
# Scalarize — reduction ends

Propagation may copy a large expression, and folding may turn the assignment of a large expression
into one that can be propagated. What decreases in both is the weight of the right sides. A number
and an operator weigh one, and a name weighs more than the right side that it stands for. So putting
the right side in the place of the name makes the program lighter, and so does folding. The weights
of the names are fixed before the first step: the right sides only get lighter, so a name keeps
weighing more than its right side.

* **`weigh`**, **`Outweighs`** — weights, and what makes them a measure.
* **`ReductionStep.lighter`** — a step makes a program lighter.
* **`ReductionStep.keeps`** — a step keeps the properties of right sides that folding keeps.
* **`weights`**, **`IsOrdered.exists_weights`** — a program in order has such weights, and they
  bound the number of steps in advance.
* **`reduce_settles`** — reduction ends, and nothing is left to do when it has a result.
-/

namespace Scalarize

namespace Tree

open Traced

/-! ## Weights -/

/-- Numbers and operators weigh one. -/
def weighing : Interpretation Nat :=
  ⟨fun _ => 1, fun _ ws => 1 + ws.sum⟩

/-- The weight of an expression, for given weights of the names. -/
def weigh (ω : Store Nat) (e : Tree) : Nat :=
  e.valueIn weighing ω

theorem weigh_branch (ω : Store Nat) (k : String) (v : Option Scalar) (cs : List Tree) :
    weigh ω (branch k v cs) = 1 + (cs.map (weigh ω)).sum := by
  rw [weigh, valueIn_branch]
  rfl

theorem weigh_pos {ω : Store Nat} (hω : ∀ x, 0 < ω x) (e : Tree) : 0 < weigh ω e := by
  cases e with
  | leaf k v =>
    rw [weigh, valueIn]
    split
    · exact hω _
    · split
      · exact Nat.one_pos
      · exact Nat.one_pos
  | branch k v cs =>
    rw [weigh_branch]
    omega

theorem RewritesOne.weigh_lt {R : Tree → Tree → Prop} {ω : Store Nat} {t u : Tree}
    (h : RewritesOne R t u) (hR : ∀ t u, R t u → weigh ω u < weigh ω t) :
    weigh ω u < weigh ω t := by
  induction h with
  | here h => exact hR _ _ h
  | inside h ih =>
    simp only [weigh_branch, List.map_append, List.map_cons, List.sum_append, List.sum_cons]
    omega

/-- An operation weighs more than its operands, and more than a number. -/
theorem Simplifies.weigh_lt {ω : Store Nat} (hω : ∀ x, 0 < ω x) {t u : Tree}
    (h : Simplifies t u) : weigh ω u < weigh ω t := by
  obtain ⟨a, b, hchildren, hu⟩ := simplify_cases h.2
  cases t with
  | leaf k v => cases hchildren
  | branch k v cs =>
    obtain rfl : cs = [a, b] := hchildren
    have ha := weigh_pos hω a
    have hb := weigh_pos hω b
    have hsum : weigh ω (branch k v [a, b]) = 1 + (weigh ω a + weigh ω b) := by
      simp [weigh_branch]
    rcases hu with rfl | rfl | ⟨d, rfl⟩
    · omega
    · omega
    · have hnumber : weigh ω (.text "number" d.render) = 1 := rfl
      omega

/-- The weight of all right sides of a program. -/
def load (ω : Store Nat) (program : Tree) : Nat :=
  (program.statements.map fun a => weigh ω a.rightSide).sum

/-- Every name weighs something, and an assigned name weighs more than its right side. -/
structure Outweighs (ω : Store Nat) (program : Tree) : Prop where
  pos : ∀ x, 0 < ω x
  lt : ∀ a ∈ program.statements, weigh ω a.rightSide < ω a.targetName

/-- Making one right side lighter makes the program lighter, and the names keep outweighing what
they stand for. -/
theorem RewritesSide.lighter {R : Tree → Tree → Prop} {ω : Store Nat} {p q : Tree}
    (h : RewritesSide R p q) (hω : Outweighs ω p) (hR : ∀ t u, R t u → weigh ω u < weigh ω t) :
    Outweighs ω q ∧ load ω q < load ω p := by
  obtain ⟨pre, post, k, v, x, e, e', hp, hq, he⟩ := h.statements
  have hlt : weigh ω e' < weigh ω e := he.weigh_lt hR
  have hold := hω.lt (branch k v [x, e]) (by simp [hp])
  refine ⟨⟨hω.pos, fun a ha => ?_⟩, ?_⟩
  · rw [hq, List.mem_append, List.mem_cons] at ha
    rcases ha with ha | rfl | ha
    · exact hω.lt a (by simp [hp, ha])
    · exact Nat.lt_trans hlt hold
    · exact hω.lt a (by simp [hp, ha])
  · have hside : (branch k v [x, e]).rightSide = e := rfl
    have hside' : (branch k v [x, e']).rightSide = e' := rfl
    simp only [load, hp, hq, List.map_append, List.map_cons, List.sum_append, List.sum_cons, hside,
      hside']
    omega

/-! ## Steps -/

/-- One turn of the loop: propagation, and folding where there is nothing to propagate. -/
def ReductionStep (p q : Tree) : Prop :=
  p.propagateStep = some q ∨ (p.propagateStep = none ∧ p.fold.Returns (some q))

/-- A step keeps a program in order and makes it lighter. -/
theorem ReductionStep.lighter {ω : Store Nat} {p q : Tree} (h : ReductionStep p q)
    (hp : p.IsOrdered) (hω : Outweighs ω p) :
    q.IsOrdered ∧ Outweighs ω q ∧ load ω q < load ω p := by
  rcases h with hq | ⟨-, hq⟩
  · refine ⟨hp.of_propagateStep hq, (hp.propagateStep_rewrites hq).lighter hω ?_⟩
    rintro t e ⟨b, hb, rfl, rfl, -⟩
    exact hω.lt b hb
  · cases hp.chip.fold_outcome hq.ends with
    | changed hrewrites =>
      exact ⟨hp.of_fold hrewrites, hrewrites.lighter hω fun _ _ htu => htu.weigh_lt hω.pos⟩

/-- A chip program keeps a property of its right sides that folding keeps. What is propagated are
right sides, which have it already. -/
theorem ReductionStep.keeps {P : Tree → Prop} {p q : Tree} (hP : Replaceable P)
    (hexpression : ∀ e, P e → e.IsExpression) (hfold : ∀ t u, Simplifies t u → P t → P u)
    (h : ReductionStep p q) (hp : p.IsChip ∧ ∀ a ∈ p.statements, P a.rightSide) :
    q.IsChip ∧ ∀ a ∈ q.statements, P a.rightSide := by
  obtain ⟨hchip, hsides⟩ := hp
  have hkeeps : ∀ {R : Tree → Tree → Prop}, RewritesSide R p q → (∀ t u, R t u → P t → P u) →
      q.IsChip ∧ ∀ a ∈ q.statements, P a.rightSide := by
    intro R hside hR
    have hsides' := hside.keeps hP hsides hR
    refine ⟨hside.isChip hchip fun a ha => ?_, hsides'⟩
    exact (hexpression _ (hsides' a ha)).find_isStatement
  rcases h with h | ⟨-, h⟩
  · refine hkeeps (hchip.propagateBelow_rewrites h) fun t e hte _ => ?_
    obtain ⟨-, a, ha, -, rfl⟩ := hchip.of_replacement hte.2
    exact hsides a ha
  · cases hchip.fold_outcome h.ends with
    | changed hside => exact hkeeps hside hfold

/-- A row of steps is no longer than the load at its start. -/
theorem length_le_load {ω : Store Nat} {run : Nat → Tree} (hp : (run 0).IsOrdered)
    (hω : Outweighs ω (run 0)) {n : Nat} (hsteps : ∀ i < n, ReductionStep (run i) (run (i + 1))) :
    n ≤ load ω (run 0) := by
  have hall : ∀ i ≤ n, (run i).IsOrdered ∧ Outweighs ω (run i) ∧
      i + load ω (run i) ≤ load ω (run 0) := by
    intro i hi
    induction i with
    | zero => exact ⟨hp, hω, by omega⟩
    | succ i ih =>
      obtain ⟨hordered, hout, hload⟩ := ih (by omega)
      obtain ⟨hordered', hout', hlt⟩ := (hsteps i hi).lighter hordered hout
      exact ⟨hordered', hout', by omega⟩
  have := (hall n (Nat.le_refl n)).2.2
  omega

/-! ## Weights for a program in order -/

/-- Give each target of a list of statements one more than the weight of its right side. -/
def weights : List Tree → Store Nat → Store Nat
  | [], ω => ω
  | t :: ts, ω => weights ts (Function.update ω t.targetName (1 + weigh ω t.rightSide))

theorem weights_of_not_mem {ts : List Tree} {ω : Store Nat} {x : String}
    (h : x ∉ ts.map targetName) : weights ts ω x = ω x := by
  induction ts generalizing ω with
  | nil => rfl
  | cons t ts ih =>
    rw [List.map_cons, List.mem_cons, not_or] at h
    rw [weights, ih h.2, Function.update_of_ne h.1]

theorem weights_pos {ts : List Tree} {ω : Store Nat} (hω : ∀ x, 0 < ω x) (x : String) :
    0 < weights ts ω x := by
  induction ts generalizing ω with
  | nil => exact hω x
  | cons t ts ih =>
    refine ih fun y => ?_
    by_cases hy : y = t.targetName
    · rw [hy, Function.update_self]
      omega
    · rw [Function.update_of_ne hy]
      exact hω y

/-- What a statement reads has its weight when the statement comes, and keeps it. -/
theorem weigh_lt_weights {ts : List Tree} (hnodup : (ts.map targetName).Nodup)
    (horder : InOrder ts) (ω : Store Nat) {t : Tree} (ht : t ∈ ts) :
    weigh (weights ts ω) t.rightSide < weights ts ω t.targetName := by
  induction ts generalizing ω with
  | nil => cases ht
  | cons s ts ih =>
    obtain ⟨hs, hrest⟩ := List.nodup_cons.mp hnodup
    rcases List.mem_cons.mp ht with rfl | ht
    · have hreads : weigh (weights (t :: ts) ω) t.rightSide = weigh ω t.rightSide := by
        refine valueIn_congr weighing _ fun x hx => weights_of_not_mem fun hmem => ?_
        obtain ⟨a, ha, rfl⟩ := List.mem_map.mp hmem
        exact horder.1 a ha hx
      rw [hreads, weights, weights_of_not_mem hs, Function.update_self]
      omega
    · exact ih hrest horder.2 _ ht

/-! ## A bound for the number of steps -/

theorem weigh_le {ω : Store Nat} {m : Nat} (hm : 0 < m) (hω : ∀ x, ω x ≤ m) (e : Tree) :
    weigh ω e ≤ e.size * m := by
  induction e with
  | leaf k v =>
    rw [weigh, valueIn, size, Nat.one_mul]
    split
    · exact hω _
    · split
      · exact hm
      · exact hm
  | branch k v cs ih =>
    have hsum : (cs.map (weigh ω)).sum ≤ (cs.map size).sum * m := by
      rw [← List.sum_map_mul_right]
      exact List.sum_le_sum ih
    rw [weigh_branch, size_branch, Nat.add_mul, Nat.one_mul]
    omega

/-- The sizes of the right sides, added up. -/
def sideSizes (ts : List Tree) : Nat :=
  (ts.map fun t => t.rightSide.size).sum

theorem weights_le {ts : List Tree} {ω : Store Nat} {m : Nat} (hm : 0 < m) (hω : ∀ x, ω x ≤ m)
    (x : String) : weights ts ω x ≤ 2 ^ sideSizes ts * m := by
  induction ts generalizing ω m with
  | nil => simpa [weights, sideSizes] using hω x
  | cons t ts ih =>
    -- one more statement makes the names heavier by a factor of the size of its right side
    have hpow : t.rightSide.size + 1 ≤ 2 ^ t.rightSide.size := Nat.lt_two_pow_self
    have hstep : ∀ y, Function.update ω t.targetName (1 + weigh ω t.rightSide) y
        ≤ 2 ^ t.rightSide.size * m := by
      intro y
      have hle : (t.rightSide.size + 1) * m ≤ 2 ^ t.rightSide.size * m :=
        Nat.mul_le_mul_right m hpow
      rw [Nat.add_mul, Nat.one_mul] at hle
      by_cases hy : y = t.targetName
      · have := weigh_le hm hω t.rightSide
        rw [hy, Function.update_self]
        omega
      · have := hω y
        rw [Function.update_of_ne hy]
        omega
    have hrest := ih (Nat.mul_pos (Nat.two_pow_pos _) hm) hstep
    have hsizes : sideSizes (t :: ts) = sideSizes ts + t.rightSide.size := by
      simp [sideSizes, Nat.add_comm]
    rw [hsizes, Nat.pow_add, Nat.mul_assoc]
    exact hrest

theorem AssignsExpression.size_rightSide_le {a : Tree} (h : a.AssignsExpression) :
    a.rightSide.size ≤ a.size := by
  obtain ⟨x, e, hchildren, -⟩ := h
  have hle := sum_size_children_le a
  rw [Tree.rightSide, hchildren]
  rw [hchildren, List.map_cons, List.map_singleton, List.sum_cons, List.sum_singleton] at hle
  exact Nat.le_of_add_left_le hle

theorem IsOrdered.sideSizes_le {program : Tree} (h : program.IsOrdered) :
    sideSizes program.statements ≤ program.size := by
  have hlines : ∀ ls : List Tree,
      ((ls.flatMap children).map size).sum ≤ (ls.map size).sum := by
    intro ls
    induction ls with
    | nil => simp
    | cons l ls ih =>
      have hl := sum_size_children_le l
      simp only [List.flatMap_cons, List.map_append, List.sum_append, List.map_cons, List.sum_cons]
      omega
  calc sideSizes program.statements
      ≤ (program.statements.map size).sum :=
        List.sum_le_sum fun a ha => (h.plain a ha).size_rightSide_le
    _ ≤ (program.children.map size).sum := hlines program.children
    _ ≤ program.size := sum_size_children_le program

/-- There are weights for a program in order, and its load is bounded by its size alone. -/
theorem IsOrdered.exists_weights {program : Tree} (h : program.IsOrdered) :
    ∃ ω, Outweighs ω program ∧ load ω program ≤ 4 ^ program.size := by
  set ω := weights program.statements fun _ => 1 with hω
  set s := sideSizes program.statements with hs
  have hle : ∀ x, ω x ≤ 2 ^ s := by
    intro x
    have hbound : ω x ≤ 2 ^ s * 1 := weights_le Nat.one_pos (fun _ => Nat.le_refl 1) x
    rwa [Nat.mul_one] at hbound
  have hsize : s ≤ program.size := h.sideSizes_le
  refine ⟨ω, ⟨weights_pos fun _ => Nat.one_pos, fun a ha => ?_⟩, ?_⟩
  · exact weigh_lt_weights h.once h.inOrder _ ha
  · calc load ω program
        ≤ (program.statements.map fun a => a.rightSide.size * 2 ^ s).sum :=
          List.sum_le_sum fun a _ => weigh_le (Nat.two_pow_pos s) hle a.rightSide
      _ = s * 2 ^ s := List.sum_map_mul_right ..
      _ ≤ 2 ^ program.size * 2 ^ program.size :=
          Nat.mul_le_mul (Nat.le_trans hsize (Nat.le_of_lt Nat.lt_two_pow_self))
            (Nat.pow_le_pow_right Nat.two_pos hsize)
      _ = 4 ^ program.size := by rw [← Nat.mul_pow]

/-! ## The loop -/

/-- Two numbers in the program cannot be combined, and this is reported. -/
def FoldingFails (p : Tree) (e : Failure) : Prop :=
  ∃ u ∈ p.nodes, ∃ a b d, u.children = [a, b] ∧ a.isNumber = true ∧ b.isNumber = true ∧
    foldNumbers u.kind a b = .error d ∧ e = foldFailure d

/-- There is nothing to propagate, and no operation has two numbers for its operands. -/
structure Settled (p : Tree) : Prop where
  propagated : p.NothingToPropagate
  folded : ∀ u ∈ p.nodes, ∀ a b, u.children = [a, b] → ¬ (a.isNumber = true ∧ b.isNumber = true)

/-- The ways in which the loop ends. -/
inductive ReduceOutcome (program : Tree) : Except Failure Tree → Prop where
  | settled {p : Tree} (hsteps : Relation.ReflTransGen ReductionStep program p)
      (hp : p.IsOrdered) (hnone : p.propagateStep = none) (hfold : p.fold.Returns none) :
      ReduceOutcome program (.ok p)
  | failed {p : Tree} {e : Failure} (hsteps : Relation.ReflTransGen ReductionStep program p)
      (hp : p.IsOrdered) (hnone : p.propagateStep = none) (hfold : p.fold.Ends (.error e)) :
      ReduceOutcome program (.error e)

theorem ReduceOutcome.head {program q : Tree} {r : Except Failure Tree}
    (hstep : ReductionStep program q) (h : ReduceOutcome q r) : ReduceOutcome program r := by
  cases h with
  | settled hsteps hp hnone hfold => exact .settled (.head hstep hsteps) hp hnone hfold
  | failed hsteps hp hnone hfold => exact .failed (.head hstep hsteps) hp hnone hfold

/-- With more steps than the load the loop ends by itself. -/
theorem reduceIn_outcome {ω : Store Nat} {program : Tree} (h : program.IsOrdered)
    (hω : Outweighs ω program) {steps : Nat} (hsteps : load ω program < steps)
    {r : Except Failure Tree} (hr : (reduceIn steps program).Ends r) :
    ReduceOutcome program r := by
  induction steps generalizing program r with
  | zero => omega
  | succ steps ih =>
    rw [reduceIn] at hr
    cases hprop : program.propagateStep with
    | some q =>
      rw [hprop] at hr
      have hstep : ReductionStep program q := .inl hprop
      obtain ⟨hq, hωq, hlt⟩ := hstep.lighter h hω
      exact .head hstep (ih hq hωq (by omega) hr)
    | none =>
      rw [hprop] at hr
      rcases hr.of_bind with ⟨folded, hfold, hr⟩ | ⟨e, rfl, he⟩
      · cases folded with
        | some q =>
          have hstep : ReductionStep program q := .inr ⟨hprop, hfold⟩
          obtain ⟨hq, hωq, hlt⟩ := hstep.lighter h hω
          exact .head hstep (ih hq hωq (by omega) hr)
        | none =>
          rw [hr.of_pure]
          exact .settled .refl h hprop hfold
      · exact .failed .refl h hprop he

theorem IsChip.reduce_eq {program : Tree} (h : program.IsChip) :
    program.reduce = program.reduceIn program.stepBound := by
  have hguard : (program.kind != "program") = false := by rw [h.kind_eq]; rfl
  rw [reduce, hguard]
  rfl

theorem reduce_outcome {program : Tree} (h : program.IsOrdered) {r : Except Failure Tree}
    (hr : program.reduce.Ends r) : ReduceOutcome program r := by
  obtain ⟨ω, hω, hload⟩ := h.exists_weights
  rw [h.chip.reduce_eq] at hr
  refine reduceIn_outcome h hω ?_ hr
  calc load ω program
      ≤ 4 ^ program.size := hload
    _ < 4 ^ (program.size + 2) := Nat.pow_lt_pow_right (by omega) (by omega)

/-! ## What is left when the loop ends -/

theorem mem_nodes_iff {t u : Tree} : u ∈ t.nodes ↔ u = t ∨ ∃ c ∈ t.children, u ∈ c.nodes := by
  cases t with
  | leaf k v => simp [nodes_leaf, children]
  | branch k v cs => simp [nodes_branch, children]

theorem IsExpression.child {e c : Tree} (h : e.IsExpression) (hc : c ∈ e.children) :
    c.IsExpression := by
  cases h with
  | named x => cases hc
  | number v => cases hc
  | operation hk h => exact h c hc

theorem IsExpression.of_mem_nodes {e u : Tree} (h : e.IsExpression) (hu : u ∈ e.nodes) :
    u.IsExpression :=
  Tree.of_mem_nodes (fun _ _ => IsExpression.child) h hu

theorem IsExpression.kind_ne_assignment {e : Tree} (h : e.IsExpression) :
    e.kind ≠ "assignment" := by
  cases h with
  | named x => simp [kind]
  | number v => simp [kind]
  | operation hk h =>
    simp only [reservedKinds, List.mem_cons, not_or] at hk
    exact hk.2.2.1

theorem IsOrdered.mem_nodes_of_side {p a u : Tree} (h : p.IsOrdered) (ha : a ∈ p.statements)
    (hu : u ∈ a.rightSide.nodes) : u ∈ p.nodes := by
  obtain ⟨l, hl, hal⟩ := List.mem_flatMap.mp ha
  obtain ⟨x, e, hchildren, -⟩ := h.plain a ha
  rw [rightSide, hchildren] at hu
  have hmem : e ∈ a.children := by simp [hchildren]
  exact mem_nodes_of_child hl (mem_nodes_of_child hal (mem_nodes_of_child hmem hu))

/-- A node whose first operand is a number belongs to a right side: the children of programs, lines
and assignments begin with something else. -/
theorem IsOrdered.mem_side_of_number {p u a b : Tree} (h : p.IsOrdered) (hu : u ∈ p.nodes)
    (hchildren : u.children = [a, b]) (ha : a.isNumber = true) :
    ∃ s ∈ p.statements, u ∈ s.rightSide.nodes := by
  have hnumber : a.kind = "number" := beq_iff_eq.mp ha
  have hmem : a ∈ u.children := by simp [hchildren]
  rcases mem_nodes_iff.mp hu with rfl | ⟨l, hl, hu⟩
  · have := (h.chip.lines a hmem).kind_eq
    simp [hnumber] at this
  rcases mem_nodes_iff.mp hu with rfl | ⟨s, hs, hu⟩
  · have := ((h.chip.lines u hl).assignments a hmem).kind_eq
    simp [hnumber] at this
  have hstatement : s ∈ p.statements := List.mem_flatMap.mpr ⟨l, hl, hs⟩
  obtain ⟨x, e, hparts, -⟩ := h.plain s hstatement
  refine ⟨s, hstatement, ?_⟩
  rcases mem_nodes_iff.mp hu with rfl | ⟨c, hc, hu⟩
  · obtain ⟨rfl, -⟩ : leaf "variable" (some (.text x)) = a ∧ e = b := by
      simpa using hparts.symm.trans hchildren
    simp [kind] at hnumber
  · rw [hparts] at hc
    rcases List.mem_pair.mp hc with rfl | rfl
    · rw [nodes_leaf, List.mem_singleton] at hu
      rw [hu] at hchildren
      cases hchildren
    · rwa [rightSide, hparts]

theorem IsOrdered.unfoldable {p : Tree} (h : p.IsOrdered) (hfold : p.fold.Returns none) :
    ∀ a ∈ p.statements, a.rightSide.Unfoldable := by
  cases h.chip.fold_outcome hfold.ends with
  | quiet hall => exact hall

theorem IsOrdered.settled {p : Tree} (h : p.IsOrdered) (hnone : p.propagateStep = none)
    (hfold : p.fold.Returns none) : p.Settled := by
  refine ⟨h.propagateStep_eq_none_iff.mp hnone, fun u hu a b hchildren ⟨ha, hb⟩ => ?_⟩
  obtain ⟨s, hs, hus⟩ := h.mem_side_of_number hu hchildren ha
  have hkind := ((h.plain s hs).rightSide.of_mem_nodes hus).kind_ne_assignment
  have hquiet := h.unfoldable hfold s hs u hus ⟨a, by simp [hchildren], ha⟩
  exact simplify_numbers hkind hchildren ha hb hquiet

theorem IsOrdered.foldingFails {p : Tree} {e : Failure} (h : p.IsOrdered)
    (hfold : p.fold.Ends (.error e)) : p.FoldingFails e := by
  cases h.chip.fold_outcome hfold with
  | failed hfail =>
    obtain ⟨s, hs, u, hu, -, hsimplify⟩ := hfail
    exact ⟨u, h.mem_nodes_of_side hs hu, simplify_error hsimplify⟩

/-- Where the loop has ended there is no further step, and folding does not fail. -/
theorem IsOrdered.no_step {p : Tree} (h : p.IsOrdered) (hnone : p.propagateStep = none)
    (hfold : p.fold.Returns none) : (∀ q, ¬ ReductionStep p q) ∧ ∀ e, ¬ p.fold.Ends (.error e) := by
  have hquiet := h.unfoldable hfold
  refine ⟨fun q hstep => ?_, fun e he => ?_⟩
  · rcases hstep with hq | ⟨-, hq⟩
    · rw [hnone] at hq
      cases hq
    · cases h.chip.fold_outcome hq.ends with
      | changed hside =>
        obtain ⟨pre, post, k, v, x, e, e', hp, -, he⟩ := hside.statements
        exact (hquiet (branch k v [x, e]) (by simp [hp])).not_rewrites he
  · cases h.chip.fold_outcome he with
    | failed hfail =>
      obtain ⟨a, ha, hfail⟩ := hfail
      exact (hquiet a ha).not_fails hfail

/-- Such a program is its own reduction, whatever the trace. -/
theorem IsOrdered.reduce_eq_self {p : Tree} (h : p.IsOrdered) (hnone : p.propagateStep = none)
    (hfold : p.fold.Returns none) (trace : Trace) : (p.reduce.runFrom trace).1 = .ok p := by
  obtain ⟨hstep, herror⟩ := h.no_step hnone hfold
  have hstay : ∀ {q : Tree}, Relation.ReflTransGen ReductionStep p q → q = p := by
    intro q hq
    rcases hq.cases_head with rfl | ⟨q', hq', -⟩
    · rfl
    · exact absurd hq' (hstep q')
  have houtcome := reduce_outcome h (ends_runFrom p.reduce trace)
  generalize (p.reduce.runFrom trace).1 = r at houtcome
  cases houtcome with
  | settled hsteps _ _ _ => rw [hstay hsteps]
  | failed hsteps _ _ he =>
    obtain rfl := hstay hsteps
    exact absurd he (herror _)

/-- The reduction of a program in order ends. Any row of steps is bounded by the size of the
program. The loop gives a program in which there is nothing to propagate and no operation has two
numbers for its operands, and which is its own reduction; or it stops because two numbers cannot be
combined. -/
theorem reduce_settles {program : Tree} (h : program.IsOrdered) :
    (∀ (n : Nat) (run : Nat → Tree), run 0 = program →
      (∀ i < n, ReductionStep (run i) (run (i + 1))) → n ≤ 4 ^ program.size) ∧
    ∀ trace,
      (∃ p, (program.reduce.runFrom trace).1 = .ok p ∧
        Relation.ReflTransGen ReductionStep program p ∧ p.IsOrdered ∧ p.Settled ∧
        ∀ later, (p.reduce.runFrom later).1 = .ok p) ∨
      ∃ p e, (program.reduce.runFrom trace).1 = .error e ∧
        Relation.ReflTransGen ReductionStep program p ∧ p.FoldingFails e := by
  constructor
  · rintro n run rfl hsteps
    obtain ⟨ω, hω, hload⟩ := h.exists_weights
    exact Nat.le_trans (length_le_load h hω hsteps) hload
  · intro trace
    have houtcome := reduce_outcome h (ends_runFrom program.reduce trace)
    generalize (program.reduce.runFrom trace).1 = r at houtcome
    cases houtcome with
    | @settled p hsteps hp hnone hfold =>
      exact .inl ⟨p, rfl, hsteps, hp, hp.settled hnone hfold, hp.reduce_eq_self hnone hfold⟩
    | @failed p e hsteps hp hnone hfold =>
      exact .inr ⟨p, e, rfl, hsteps, hp.foldingFails hfold⟩

theorem reduce_sample :
    sampleChip.IsOrdered ∧ ∃ p, (sampleChip.reduce.runFrom .start).1 = .ok p ∧ p.Settled ∧
      ∀ later, (p.reduce.runFrom later).1 = .ok p := by
  refine ⟨sampleChip_isOrdered, ?_⟩
  have hok : ((sampleChip.reduce.runFrom .start).1.toOption).isSome = true := by rfl
  rcases (reduce_settles sampleChip_isOrdered).2 .start with ⟨p, hp, -, -, hsettled, hself⟩ |
    ⟨p, e, he, -⟩
  · exact ⟨p, hp, hsettled, hself⟩
  · rw [he] at hok
    cases hok

end Tree

end Scalarize
