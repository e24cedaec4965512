import Scalarize.Program.Propagation
import Scalarize.Proofs.Elimination
import Scalarize.Proofs.Rewriting

/-!
# Scalarize — propagation keeps the meaning of a program

A step of propagation puts the right side of an assignment in the place of its target. At the end of
a run both have the same value, because neither the target nor anything that its right side reads is
assigned again; and the equations of a program in order, read at the end of the run, determine the
run.

* **`propagateAll_eq_some`**, **`propagateStep_rewrites`** — everything that a step can do.
* **`propagateStep_eq_none_iff`** — when there is nothing to do.
* **`propagate_preserves_meaning`** — any number of steps.
-/

namespace Scalarize

universe u

namespace Tree

/-! ## What a step does -/

/-- A variable takes the expression that is found for its name. -/
def Substitutes (find : String → Option Tree) (t e : Tree) : Prop :=
  t.isVariable = true ∧ find t.name = some e

/-- In a list of trees one tree is changed: it is a variable and is replaced, or something below it
is. The target of an assignment is not replaced itself. -/
theorem propagateAll_eq_some {find : String → Option Tree} {target : Bool} {ts ts' : List Tree}
    (h : propagateAll find target ts = some ts') :
    ∃ l c d r, ts = l ++ c :: r ∧ ts' = l ++ d :: r ∧
      ((Substitutes find c d ∧ (target = true → l ≠ [])) ∨ propagateBelow find c = some d) := by
  induction ts generalizing target ts' with
  | nil => cases h
  | cons t ts ih =>
    rw [propagateAll] at h
    cases hroot : (if t.isVariable && !target then find t.name else none) with
    | some e =>
      rw [hroot] at h
      obtain ⟨hcond, hfind⟩ : (t.isVariable && !target) = true ∧ find t.name = some e := by
        simpa using hroot
      rw [Bool.and_eq_true, Bool.not_eq_true'] at hcond
      refine ⟨[], t, e, ts, rfl, (Option.some.inj h).symm, .inl ⟨⟨hcond.1, hfind⟩, ?_⟩⟩
      simp [hcond.2]
    | none =>
      rw [hroot] at h
      cases hbelow : propagateBelow find t with
      | some t' =>
        rw [hbelow] at h
        exact ⟨[], t, t', ts, rfl, (Option.some.inj h).symm, .inr hbelow⟩
      | none =>
        rw [hbelow] at h
        obtain ⟨ts₁, hts, rfl⟩ := Option.map_eq_some_iff.mp h
        obtain ⟨l, c, d, r, rfl, rfl, hcd⟩ := ih hts
        exact ⟨t :: l, c, d, r, rfl, rfl, hcd.imp_left fun hcd => ⟨hcd.1, fun _ => by simp⟩⟩

theorem propagateBelow_branch_eq_some {find : String → Option Tree} {k : String}
    {v : Option Scalar} {cs : List Tree} {t : Tree}
    (h : propagateBelow find (branch k v cs) = some t) :
    ∃ l c d r, cs = l ++ c :: r ∧ t = branch k v (l ++ d :: r) ∧
      ((Substitutes find c d ∧ ((k == "assignment") = true → l ≠ [])) ∨
        propagateBelow find c = some d) := by
  rw [propagateBelow] at h
  obtain ⟨cs', hcs, rfl⟩ := Option.map_eq_some_iff.mp h
  obtain ⟨l, c, d, r, rfl, rfl, hcd⟩ := propagateAll_eq_some hcs
  exact ⟨l, c, d, r, rfl, rfl, hcd⟩

theorem propagateBelow_rewrites {find : String → Option Tree} {t u : Tree}
    (h : propagateBelow find t = some u) : RewritesOne (Substitutes find) t u := by
  induction t generalizing u with
  | leaf k v => cases h
  | branch k v cs ih =>
    obtain ⟨l, c, d, r, rfl, rfl, hcd⟩ := propagateBelow_branch_eq_some h
    rcases hcd with ⟨hcd, -⟩ | hcd
    · exact .inside (.here hcd)
    · exact .inside (ih c (by simp) hcd)

/-- In a chip program it is the right side of an assignment that is changed. -/
theorem IsChip.propagateBelow_rewrites {find : String → Option Tree} {program program' : Tree}
    (hchip : program.IsChip) (h : propagateBelow find program = some program') :
    RewritesSide (Substitutes find) program program' := by
  have hnot : ∀ {t : Tree}, t.kind = "line" ∨ t.kind = "assignment" →
      t.isVariable = false := by
    rintro t (ht | ht) <;> rw [isVariable, ht] <;> rfl
  cases program with
  | leaf k v => cases h
  | branch k v ls =>
    obtain ⟨before, l, l', after, rfl, rfl, hl⟩ := propagateBelow_branch_eq_some h
    have hline := hchip.lines l (by simp [children])
    replace hl : propagateBelow find l = some l' := by
      rcases hl with ⟨hl, -⟩ | hl
      · exact absurd hl.1 (by simp [hnot (.inl hline.kind_eq)])
      · exact hl
    cases l with
    | leaf lk lv => cases hl
    | branch lk lv as =>
      obtain ⟨left, a, a', right, rfl, rfl, ha⟩ := propagateBelow_branch_eq_some hl
      have hassign := hline.assignments a (by simp [children])
      replace ha : propagateBelow find a = some a' := by
        rcases ha with ⟨ha, -⟩ | ha
        · exact absurd ha.1 (by simp [hnot (.inr hassign.kind_eq)])
        · exact ha
      cases a with
      | leaf ak av => cases ha
      | branch ak av cs =>
        obtain ⟨w, e, hchildren, -⟩ := hassign.parts
        obtain rfl : cs = [leaf "variable" w, e] := hchildren
        have hkind : (ak == "assignment") = true := by
          rw [beq_iff_eq]
          exact hassign.kind_eq
        obtain ⟨l₁, c, d, r₁, hcs, rfl, hcd⟩ := propagateBelow_branch_eq_some ha
        -- the first child is the target: it is passed over, and has nothing below it
        rcases l₁ with _ | ⟨x, l₁⟩
        · obtain ⟨rfl, rfl⟩ : leaf "variable" w = c ∧ [e] = r₁ := by simpa using hcs
          rcases hcd with ⟨-, hfirst⟩ | hcd
          · exact absurd rfl (hfirst hkind)
          · cases hcd
        · obtain rfl : l₁ = [] := by
            cases l₁ with
            | nil => rfl
            | cons y l₁ => simp at hcs
          obtain ⟨rfl, rfl, rfl⟩ : leaf "variable" w = x ∧ e = c ∧ [] = r₁ := by simpa using hcs
          refine .intro ?_
          rcases hcd with ⟨hcd, -⟩ | hcd
          · exact .here hcd
          · exact Tree.propagateBelow_rewrites hcd

/-! ## The assignments of a program -/

theorem IsChip.assigned_eq {program : Tree} (h : program.IsChip) :
    program.assigned = program.statements.map fun a => (a.targetName, a.rightSide) := by
  rw [assigned, h.assignments_eq, ← List.filterMap_eq_map]
  refine List.filterMap_congr fun a ha => ?_
  obtain ⟨v, e, hchildren, -⟩ := (h.of_mem_statements ha).parts
  simp [targetName, rightSide, hchildren]

/-- What takes the place of a name is the right side of a statement that assigns it. -/
theorem IsChip.of_replacement {program e : Tree} {x : String} (h : program.IsChip)
    (he : replacement? program.assigned x = some e) :
    e.isPropagated = true ∧ ∃ a ∈ program.statements, a.targetName = x ∧ a.rightSide = e := by
  rw [replacement?, h.assigned_eq] at he
  cases hl : (program.statements.map fun a => (a.targetName, a.rightSide)).lookup x with
  | none =>
    rw [hl] at he
    cases he
  | some f =>
    rw [hl] at he
    obtain ⟨hf, rfl⟩ : f.isPropagated = true ∧ f = e := by simpa using he
    obtain ⟨l₁, l₂, hsplit, -⟩ := List.lookup_eq_some_iff.mp hl
    have hmem : (x, f) ∈ program.statements.map fun a => (a.targetName, a.rightSide) := by
      rw [hsplit]
      simp
    obtain ⟨a, ha, heq⟩ := List.mem_map.mp hmem
    exact ⟨hf, a, ha, congrArg Prod.fst heq, congrArg Prod.snd heq⟩

/-- A name that is assigned once has the right side of its assignment for a replacement, if that is
a variable or has no variables. -/
theorem IsChip.replacement_eq {program a : Tree} (h : program.IsChip) (honce : program.AssignsOnce)
    (ha : a ∈ program.statements) :
    replacement? program.assigned a.targetName
      = if a.rightSide.isPropagated then some a.rightSide else none := by
  have hl : program.assigned.lookup a.targetName = some a.rightSide := by
    rw [h.assigned_eq, List.lookup_eq_some_iff]
    obtain ⟨pre, post, hsplit⟩ := List.append_of_mem ha
    refine ⟨pre.map fun a => (a.targetName, a.rightSide),
      post.map fun a => (a.targetName, a.rightSide), by simp [hsplit], fun p hp => ?_⟩
    obtain ⟨b, hb, rfl⟩ := List.mem_map.mp hp
    -- an earlier assignment to the same name would be a second one
    rw [AssignsOnce, hsplit, List.map_append, List.map_cons] at honce
    have hne : b.targetName ≠ a.targetName := fun heq =>
      List.disjoint_of_nodup_append honce (List.mem_map_of_mem hb) (by simp [heq])
    simpa using hne.symm
  rw [replacement?, hl]

theorem IsExpression.isPropagated_iff {e : Tree} (h : e.IsExpression) :
    e.isPropagated = true ↔ e.isVariable = true ∨ e.readNames = [] := by
  rw [isPropagated, Bool.or_eq_true, List.isEmpty_iff, ← h.variableNames_eq, variableNames,
    List.map_eq_nil_iff]

/-! ## When there is nothing to do -/

theorem propagateAll_eq_none_iff {find : String → Option Tree} {ts : List Tree} :
    propagateAll find false ts = none ↔
      ∀ c ∈ ts, (c.isVariable = true → find c.name = none) ∧ propagateBelow find c = none := by
  induction ts with
  | nil => simp [propagateAll]
  | cons t ts ih =>
    rw [propagateAll, List.forall_mem_cons, ← ih]
    by_cases hv : t.isVariable = true
    · cases hf : find t.name <;> cases hb : propagateBelow find t <;> simp [hv]
    · cases hb : propagateBelow find t <;> simp [hv]

/-- Nothing is replaced in an expression if there is nothing to find for the names that it reads. -/
theorem IsExpression.propagate_none_iff {find : String → Option Tree} {e : Tree}
    (h : e.IsExpression) :
    ((e.isVariable = true → find e.name = none) ∧ propagateBelow find e = none) ↔
      ∀ x ∈ e.readNames, find x = none := by
  induction h with
  | named x =>
    simp [isVariable, kind, propagateBelow, readNames_leaf, name, value]
  | number v => simp [isVariable, kind, propagateBelow, readNames_leaf]
  | @operation k v cs hk h ih =>
    have hreserved : k ≠ "assignment" ∧ k ≠ "variable" := by
      simp only [reservedKinds, List.mem_cons, not_or] at hk
      exact ⟨hk.2.2.1, hk.2.2.2.1⟩
    have hbelow : propagateBelow find (branch k v cs) = none ↔
        propagateAll find false cs = none := by
      rw [propagateBelow, Option.map_eq_none_iff, beq_eq_false_iff_ne.mpr hreserved.1]
    rw [hbelow, propagateAll_eq_none_iff, readNames_branch]
    constructor
    · rintro ⟨-, hcs⟩ x hx
      obtain ⟨c, hc, hxc⟩ := List.mem_flatMap.mp hx
      exact (ih c hc).mp (hcs c hc) x hxc
    · intro hnone
      refine ⟨fun hv => absurd (beq_iff_eq.mp hv) hreserved.2, fun c hc => (ih c hc).mpr ?_⟩
      exact fun x hx => hnone x (List.mem_flatMap.mpr ⟨c, hc, hx⟩)

theorem propagateBelow_assignment {find : String → Option Tree} {a : Tree}
    (hkind : a.kind = "assignment") (h : a.AssignsExpression) :
    propagateBelow find a = none ↔ ∀ x ∈ a.reads, find x = none := by
  obtain ⟨y, e, hchildren, he⟩ := h
  cases a with
  | leaf k v => cases hchildren
  | branch k v cs =>
    obtain rfl : cs = [leaf "variable" (some (.text y)), e] := hchildren
    obtain rfl : k = "assignment" := hkind
    have hskip : propagateAll find true [leaf "variable" (some (.text y)), e]
        = (propagateAll find false [e]).map (leaf "variable" (some (.text y)) :: ·) := by
      rw [propagateAll, Bool.not_true, Bool.and_false]
      rfl
    rw [propagateBelow, Option.map_eq_none_iff, beq_self_eq_true, hskip, Option.map_eq_none_iff,
      propagateAll_eq_none_iff, List.forall_mem_singleton]
    exact he.propagate_none_iff

theorem IsOrdered.propagateBelow_eq_none_iff {find : String → Option Tree} {program : Tree}
    (h : program.IsOrdered) : propagateBelow find program = none ↔
      ∀ a ∈ program.statements, ∀ x ∈ a.reads, find x = none := by
  -- a program and its lines have nothing to replace in themselves
  have hbranch : ∀ {t : Tree}, t.kind ≠ "assignment" →
      (∀ c ∈ t.children, c.isVariable = false) →
      (propagateBelow find t = none ↔ ∀ c ∈ t.children, propagateBelow find c = none) := by
    intro t hk hc
    cases t with
    | leaf k v => simp [propagateBelow, children]
    | branch k v cs =>
      have hk' : (k == "assignment") = false := beq_eq_false_iff_ne.mpr hk
      rw [propagateBelow, Option.map_eq_none_iff, hk', propagateAll_eq_none_iff]
      refine forall₂_congr fun c hmem => ?_
      simp [hc c hmem]
  have hline : ∀ l ∈ program.children, (propagateBelow find l = none ↔
      ∀ a ∈ l.children, ∀ x ∈ a.reads, find x = none) := by
    intro l hl
    have hl' := h.chip.lines l hl
    rw [hbranch (by simp [hl'.kind_eq])
      fun a ha => by rw [isVariable, (hl'.assignments a ha).kind_eq]; rfl]
    refine forall₂_congr fun a ha => ?_
    exact propagateBelow_assignment (hl'.assignments a ha).kind_eq
      (h.plain a (List.mem_flatMap.mpr ⟨l, hl, ha⟩))
  rw [hbranch (by simp [h.chip.kind_eq])
    fun l hl => by rw [isVariable, (h.chip.lines l hl).kind_eq]; rfl]
  constructor
  · intro hnone a ha
    obtain ⟨l, hl, hal⟩ := List.mem_flatMap.mp ha
    exact (hline l hl).mp (hnone l hl) a hal
  · intro hnone l hl
    exact (hline l hl).mpr fun a ha => hnone a (List.mem_flatMap.mpr ⟨l, hl, ha⟩)

/-- No statement reads a name that is assigned a single variable or an expression without
variables. -/
def NothingToPropagate (program : Tree) : Prop :=
  ∀ a ∈ program.statements, ∀ b ∈ program.statements, b.targetName ∈ a.reads →
    b.rightSide.isVariable = false ∧ b.rightSide.readNames ≠ []

theorem IsOrdered.propagateStep_eq_none_iff {program : Tree} (h : program.IsOrdered) :
    program.propagateStep = none ↔ program.NothingToPropagate := by
  rw [propagateStep, h.propagateBelow_eq_none_iff]
  refine forall₂_congr fun a _ => ⟨fun hnone b hb hread => ?_, fun hnone x hx => ?_⟩
  · have hb' := hnone b.targetName hread
    rw [h.chip.replacement_eq h.once hb] at hb'
    have hnot : ¬ b.rightSide.isPropagated = true := fun hp => by simp [hp] at hb'
    rw [(h.plain b hb).rightSide.isPropagated_iff, not_or, Bool.not_eq_true] at hnot
    exact hnot
  · cases hx' : replacement? program.assigned x with
    | none => rfl
    | some e =>
      obtain ⟨he, b, hb, rfl, rfl⟩ := h.chip.of_replacement hx'
      obtain ⟨hvariable, hreads⟩ := hnone b hb hx
      rw [(h.plain b hb).rightSide.isPropagated_iff, hvariable] at he
      simp [hreads] at he

/-! ## What a step keeps -/

/-- A name is replaced by the right side of the assignment to it, which is a single variable or has
no variables. -/
def PropagatesIn (program t e : Tree) : Prop :=
  ∃ b ∈ program.statements, t = leaf "variable" (some (.text b.targetName)) ∧ b.rightSide = e ∧
    e.isPropagated = true

theorem IsOrdered.propagateStep_rewrites {program q : Tree} (h : program.IsOrdered)
    (hq : program.propagateStep = some q) : RewritesSide (PropagatesIn program) program q := by
  refine (h.chip.propagateBelow_rewrites hq).mono h fun t e ht hte => ?_
  obtain ⟨x, rfl⟩ := ht.eq_of_isVariable hte.1
  obtain ⟨he, b, hb, hname, rfl⟩ := h.chip.of_replacement hte.2
  obtain rfl : b.targetName = x := hname
  exact ⟨b, hb, rfl, rfl, he⟩

theorem IsOrdered.of_propagateStep {program q : Tree} (h : program.IsOrdered)
    (hq : program.propagateStep = some q) : q.IsOrdered := by
  refine (h.propagateStep_rewrites hq).isOrdered h ?_ ?_
  · rintro t e ⟨b, hb, rfl, rfl, -⟩ -
    exact (h.plain b hb).rightSide
  · rintro t e ⟨b, hb, rfl, rfl, -⟩ x hx
    refine .inr ⟨b.targetName, ?_, b, hb, rfl, hx⟩
    simp [readNames_leaf, valueText, Scalar.render]

/-- At the end of a run a name has the value of the right side that was assigned to it. -/
theorem IsOrdered.run_of_propagateStep {program q : Tree} (h : program.IsOrdered)
    (hq : program.propagateStep = some q) {V : Type u} (I : Interpretation V) (σ : Store V) :
    q.run I σ = program.run I σ := by
  refine (h.propagateStep_rewrites hq).run_eq h (h.of_propagateStep hq) ?_
  rintro t e ⟨b, hb, rfl, rfl, -⟩
  exact foldl_execute_eq I h.once h.inOrder σ hb

/-! ## Any number of steps -/

/-- The program after a number of calls, each of which may change it. -/
def propagateTimes : Nat → Tree → Except Fault Tree
  | 0, t => .ok t
  | n + 1, t => do
    let step ← t.propagate
    propagateTimes n (step.getD t)

theorem propagateTimes_succ {program : Tree} (hkind : program.kind = "program") (n : Nat) :
    propagateTimes (n + 1) program = propagateTimes n (program.propagateStep.getD program) := by
  have hguard : (program.kind != "program") = false := by rw [hkind]; rfl
  rw [propagateTimes, propagate, hguard]
  rfl

/-- Any number of calls of propagation give a program that is in order again and assigns the same
names in the same order. It leaves the same store: for every reading of the literals and operators,
from every store. A call changes something unless no statement reads a name that is assigned a
single variable or an expression without variables. -/
theorem propagate_preserves_meaning {program : Tree} (h : program.IsOrdered) (n : Nat) :
    ∃ q, propagateTimes n program = .ok q ∧ q.IsOrdered ∧
      q.statements.map targetName = program.statements.map targetName ∧
      (∀ (V : Type u) (I : Interpretation V) (σ : Store V), q.run I σ = program.run I σ) ∧
      (q.propagate = .ok none ↔ q.NothingToPropagate) := by
  induction n generalizing program with
  | zero =>
    refine ⟨program, rfl, h, rfl, fun V I σ => rfl, ?_⟩
    have hguard : (program.kind != "program") = false := by rw [h.chip.kind_eq]; rfl
    rw [propagate, hguard, ← h.propagateStep_eq_none_iff]
    simp
  | succ n ih =>
    rw [propagateTimes_succ h.chip.kind_eq]
    cases hstep : program.propagateStep with
    | none => exact ih h
    | some q₁ =>
      obtain ⟨q, hq, hordered, htargets, hrun, hnone⟩ := ih (h.of_propagateStep hstep)
      refine ⟨q, hq, hordered, ?_, fun V I σ => ?_, hnone⟩
      · rw [htargets, (h.propagateStep_rewrites hstep).targets_eq]
      · rw [hrun V I σ, h.run_of_propagateStep hstep]

theorem sampleChip_isOrdered : sampleChip.IsOrdered := by
  have hplain : ∀ a ∈ sampleChip.statements, a.AssignsExpression := by
    intro a ha
    have ha' : a = node "assignment" [variableNamed "a", numberOf (.int 1)] ∨
        a = node "assignment" [variableNamed "b",
          node "add" [variableNamed "a", variableNamed "x"]] ∨
        a = node "assignment" [variableNamed "c", variableNamed "a"] := by
      simpa [sampleChip, statements, children, node] using ha
    rcases ha' with rfl | rfl | rfl
    · exact ⟨"a", _, rfl, .number _⟩
    · refine ⟨"b", _, rfl, .operation (by decide) fun c hc => ?_⟩
      rcases List.mem_pair.mp hc with rfl | rfl
      · exact .named "a"
      · exact .named "x"
    · exact ⟨"c", _, rfl, .named "a"⟩
  refine ⟨sampleChip_isChip, hplain, by decide, ?_⟩
  exact ⟨by decide, by decide, by decide, trivial⟩

theorem propagate_sample :
    sampleChip.IsOrdered ∧ sampleChip.propagateStep.isSome = true ∧
      ∃ q, propagateTimes 2 sampleChip = .ok q ∧ q.IsOrdered ∧
        q.statements.map targetName = ["a", "b", "c"] ∧
        ∀ (V : Type) (I : Interpretation V) (σ : Store V), q.run I σ = sampleChip.run I σ := by
  obtain ⟨q, hq, hordered, htargets, hrun, -⟩ :=
    propagate_preserves_meaning sampleChip_isOrdered 2
  exact ⟨sampleChip_isOrdered, rfl, q, hq, hordered, htargets, hrun⟩

end Tree

end Scalarize
