import Scalarize.Proofs.Reduction

/-!
# Scalarize — where folding fails

An error is reported with the statement and the expression that the compiler has come to. Folding
enters every assignment and every operation before it looks at it, and goes on to the next one if
there is nothing to fold. So when it fails, the focus is on the operation that fails.

* **`triple_foldOperation`**, **`triple_foldFirst`** — the focus of folding.
* **`IsChip.focus_of_fold`** — the focus is on an operation that cannot be computed, and on the
  assignment that it belongs to.
* **`report_of_focus`** — the report names both.
-/

namespace Scalarize

namespace Tree

open Traced

/-! ## The operation in focus -/

/-- The statement `s` is in focus, and an operation among `us` that fails to fold. -/
def FocusOn (s : Tree) (us : List Tree) (e : Failure) (t : Trace) : Prop :=
  t.statement = some s ∧ ∃ u ∈ us, t.expression = some u ∧ u.simplify = .error e

theorem FocusOn.mono {s : Tree} {us vs : List Tree} {e : Failure} {t : Trace}
    (hsub : ∀ u ∈ us, u ∈ vs) (h : FocusOn s us e t) : FocusOn s vs e t := by
  obtain ⟨hs, u, hu, hfail⟩ := h
  exact ⟨hs, u, hsub u hu, hfail⟩

section

variable {s : Tree} {us : List Tree}

theorem triple_tryFold {parent : Tree} (hparent : parent ∈ us) (operand : Tree) :
    Triple (·.statement = some s) (tryFold parent operand) (·.statement = some s)
      (FocusOn s us) := by
  unfold tryFold
  split
  · -- the node is entered, and after that it is the one to fail
    have henter : Triple (·.statement = some s) (enterExpression parent)
        (fun t => t.statement = some s ∧ t.expression = some parent) (FocusOn s us) :=
      triple_note fun t ht => ⟨ht, rfl⟩
    have hlift : Triple (fun t => t.statement = some s ∧ t.expression = some parent)
        (lift parent.simplify) _ (FocusOn s us) :=
      triple_lift fun e t he ht => ⟨ht.1, parent, hparent, ht.2, he⟩
    exact henter.bind fun _ => hlift.mono (fun t ht => ht.1) fun e t he => he
  · exact triple_pure none

theorem triple_foldOperands {parent : Tree} (hparent : parent ∈ us) {ts : List Tree}
    (hts : ∀ t ∈ ts, Triple (·.statement = some s) (foldOperation t) (·.statement = some s)
      (FocusOn s us)) :
    Triple (·.statement = some s) (foldOperands parent ts) (·.statement = some s)
      (FocusOn s us) := by
  induction ts with
  | nil =>
    rw [foldOperands]
    exact triple_pure _
  | cons t ts ih =>
    have hrest := ih fun c hc => hts c (List.mem_cons_of_mem t hc)
    rw [foldOperands]
    refine (triple_tryFold hparent t).bind fun here => ?_
    cases here with
    | some e => exact triple_pure _
    | none =>
      refine (hts t List.mem_cons_self).bind fun inner => ?_
      cases inner with
      | some t' => exact triple_pure _
      | none =>
        -- the focus may be on something else by now, but on the same statement
        refine hrest.bind fun step => ?_
        cases step <;> exact triple_pure _

theorem triple_foldOperation (t : Tree) :
    Triple (·.statement = some s) (foldOperation t) (·.statement = some s)
      (FocusOn s t.nodes) := by
  induction t with
  | leaf k v =>
    rw [foldOperation]
    exact triple_pure _
  | branch k v cs ih =>
    rw [foldOperation]
    refine (triple_foldOperands (mem_nodes_self _) fun c hc => ?_).bind fun step => ?_
    · exact (ih c hc).mono (fun t ht => ht) fun e t =>
        FocusOn.mono fun u hu => mem_nodes_of_child hc hu
    · cases step <;> exact triple_pure _

end

/-! ## The statement in focus -/

/-- One of the assignments is in focus, and an operation in it that fails to fold. -/
def FocusAmong (ss : List Tree) (e : Failure) (t : Trace) : Prop :=
  ∃ s ∈ ss, FocusOn s s.nodes e t

section

variable {ss : List Tree}

theorem triple_foldAssignment {s : Tree} (hs : s ∈ ss) :
    Triple (fun _ => True) (foldAssignment s) (fun _ => True) (FocusAmong ss) := by
  have henter : Triple (fun _ => True) (enterStatement s) (·.statement = some s) (FocusAmong ss) :=
    triple_note fun t _ => rfl
  have hfold : Triple (·.statement = some s) (foldOperation s) (fun _ => True) (FocusAmong ss) :=
    (triple_foldOperation s).mono (fun t _ => trivial) fun e t he => ⟨s, hs, he⟩
  unfold foldAssignment
  refine henter.bind fun _ => hfold.bind fun folded => ?_
  cases folded with
  | none => exact triple_pure _
  | some t' =>
    -- the statement in focus is the changed one now, and nothing fails any more
    have hrefocus : Triple (fun _ => True) (refocus t') (fun _ => True) (FocusAmong ss) :=
      triple_note fun t _ => trivial
    exact hrefocus.bind fun _ => triple_pure _

theorem triple_foldFirstOf {ts : List Tree}
    (hts : ∀ t ∈ ts, Triple (fun _ => True) (foldFirst t) (fun _ => True) (FocusAmong ss)) :
    Triple (fun _ => True) (foldFirstOf ts) (fun _ => True) (FocusAmong ss) := by
  induction ts with
  | nil =>
    rw [foldFirstOf]
    exact triple_pure _
  | cons t ts ih =>
    rw [foldFirstOf]
    refine (hts t List.mem_cons_self).bind fun first => ?_
    cases first with
    | some t' => exact triple_pure _
    | none =>
      refine (ih fun c hc => hts c (List.mem_cons_of_mem t hc)).bind fun others => ?_
      cases others <;> exact triple_pure _

theorem triple_foldFirst {t : Tree} (ht : ∀ s ∈ t.find isAssignment, s ∈ ss) :
    Triple (fun _ => True) (foldFirst t) (fun _ => True) (FocusAmong ss) := by
  induction t with
  | leaf k v =>
    rw [foldFirst]
    split
    · next hk =>
      refine triple_foldAssignment (ht _ ?_)
      rw [find_leaf]
      simp [isAssignment, kind, hk]
    · exact triple_pure _
  | branch k v cs ih =>
    have hbelow : Triple (fun _ => True) (foldFirstOf cs) (fun _ => True) (FocusAmong ss) := by
      refine triple_foldFirstOf fun c hc => ih c hc fun s hs => ht s ?_
      rw [find_branch]
      exact List.mem_append_right _ (List.mem_flatMap.mpr ⟨c, hc, hs⟩)
    rw [foldFirst]
    split
    · next hk =>
      have hroot : branch k v cs ∈ (branch k v cs).find isAssignment := by
        rw [find_branch]
        simp [isAssignment, kind, hk]
      refine (triple_foldAssignment (ht _ hroot)).bind fun here => ?_
      cases here with
      | some t' => exact triple_pure _
      | none =>
        refine hbelow.bind fun below => ?_
        cases below <;> exact triple_pure _
    · refine (triple_pure none).bind fun here => ?_
      cases here with
      | some t' => exact triple_pure _
      | none =>
        refine hbelow.bind fun below => ?_
        cases below <;> exact triple_pure _

end

/-- When folding fails in a program, an operation that fails is in focus, with its statement. -/
theorem IsChip.focus_of_fold {program : Tree} (hchip : program.IsChip) {e : Failure}
    {trace focus : Trace} (h : program.fold.runFrom trace = (.error e, focus)) :
    ∃ a ∈ program.statements, ∃ u ∈ a.rightSide.nodes,
      focus.statement = some a ∧ focus.expression = some u ∧ u.simplify = .error e := by
  have hguard : (program.kind != "program") = false := by rw [hchip.kind_eq]; rfl
  rw [fold, hguard] at h
  have hall : ∀ s ∈ program.find isAssignment, s ∈ program.statements := by
    intro s hs
    rwa [← hchip.assignments_eq]
  obtain ⟨a, ha, hstatement, u, hu, hexpression, hfail⟩ := (triple_foldFirst hall).error trivial h
  refine ⟨a, ha, u, ?_, hstatement, hexpression, hfail⟩
  have hassign := hchip.of_mem_statements ha
  obtain ⟨v, f, hchildren, -⟩ := hassign.parts
  -- neither the assignment itself nor its target fails
  rcases mem_nodes_iff.mp hu with rfl | ⟨c, hc, hu⟩
  · cases (simplify_assignment hassign.kind_eq).symm.trans hfail
  · rw [hchildren] at hc
    rcases List.mem_pair.mp hc with rfl | rfl
    · rw [nodes_leaf, List.mem_singleton] at hu
      rw [hu] at hfail
      cases hfail
    · rwa [rightSide, hchildren]

/-! ## The report -/

/-- What the author is told about a place in the program. -/
def placeReport (statement expression : Tree) : String :=
  "In statement:\n\n" ++ statement.pretty 0 ++ "\n" ++
    ("With expression:\n\n" ++ expression.pretty 0 ++ "\n")

theorem report_of_focus {t : Trace} {a u : Tree} (ha : t.statement = some a)
    (hu : t.expression = some u) : t.report = placeReport a u := by
  have hstatement : "In statement" ++ ":\n\n" = "In statement:\n\n" := by decide +kernel
  have hexpression : "With expression" ++ ":\n\n" = "With expression:\n\n" := by decide +kernel
  unfold Trace.report placeReport
  rw [← hstatement, ← hexpression, ha, hu]

end Tree

end Scalarize
