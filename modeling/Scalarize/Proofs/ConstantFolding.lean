import Scalarize.Program.Folding
import Scalarize.Proofs.Rewriting
import Scalarize.Proofs.Traced

/-!
# Scalarize — what a step of folding does

Folding looks for an operation with a number among its operands. There are nine rules, but for the
shape of a program they come to one: an operation on two operands is replaced by one of its operands
or by a number. A step ends in one of three ways. It finds nothing to fold, it replaces one
operation in one right side, or two numbers cannot be combined.

* **`simplify_cases`** — what takes the place of an operation.
* **`foldOperation_outcome`** — the three ways in a tree.
* **`IsChip.fold_outcome`** — the three ways in a program.
-/

namespace Scalarize

namespace Tree

open Traced

/-! ## One operation -/

theorem identity_cases {kind : String} {a b u : Tree} (h : identity? kind a b = some u) :
    u = a ∨ u = b ∨ ∃ d : Decimal, u = .text "number" d.render := by
  have hzero : Decimal.render ⟨0.0⟩ = "0" := by decide +kernel
  have hone : Decimal.render ⟨1.0⟩ = "1" := by decide +kernel
  have hu : u = a ∨ u = b ∨ u = .text "number" "0" ∨ u = .text "number" "1" := by
    unfold identity? at h
    grind
  rcases hu with hu | hu | hu | hu
  · exact .inl hu
  · exact .inr (.inl hu)
  · exact .inr (.inr ⟨⟨0.0⟩, by rw [hzero, hu]⟩)
  · exact .inr (.inr ⟨⟨1.0⟩, by rw [hone, hu]⟩)

theorem ok_of_bind {ε α β : Type} {x : Except ε α} {f : α → Except ε β} {b : β}
    (h : x.bind f = .ok b) : ∃ a, x = .ok a ∧ f a = .ok b := by
  cases x with
  | error e => cases h
  | ok a => exact ⟨a, rfl, h⟩

theorem foldNumbers_eq_ok {kind : String} {a b u : Tree} (h : foldNumbers kind a b = .ok u) :
    ∃ d : Decimal, u = .text "number" d.render := by
  obtain ⟨x, -, h⟩ := ok_of_bind h
  obtain ⟨y, -, h⟩ := ok_of_bind h
  obtain ⟨r, -, h⟩ := ok_of_bind h
  cases h
  exact ⟨_, rfl⟩

/-- An operation on two operands is replaced by one of them or by a decimal. -/
theorem simplify_cases {t u : Tree} (h : t.simplify = .ok (some u)) :
    ∃ a b, t.children = [a, b] ∧ (u = a ∨ u = b ∨ ∃ d : Decimal, u = .text "number" d.render) := by
  unfold simplify at h
  split at h
  · next a b hchildren =>
    refine ⟨a, b, hchildren, ?_⟩
    split at h
    · cases h
    · split at h
      · next e he =>
        cases h
        exact identity_cases he
      · split at h
        · split at h
          · next e he =>
            cases h
            exact .inr (.inr (foldNumbers_eq_ok he))
          · cases h
        · cases h
  · cases h

/-- Folding fails only for two numbers that cannot be combined. -/
theorem simplify_error {t : Tree} {e : Failure} (h : t.simplify = .error e) :
    ∃ a b d, t.children = [a, b] ∧ a.isNumber = true ∧ b.isNumber = true ∧
      foldNumbers t.kind a b = .error d ∧ e = foldFailure d := by
  unfold simplify at h
  split at h
  · next a b hchildren =>
    split at h
    · cases h
    · split at h
      · cases h
      · split at h
        · next hnumbers =>
          rw [Bool.and_eq_true] at hnumbers
          split at h
          · cases h
          · next d hd =>
            cases h
            exact ⟨a, b, d, hchildren, hnumbers.1, hnumbers.2, hd, rfl⟩
        · cases h
  · cases h

/-- Two numbers are always combined, or this fails. -/
theorem simplify_numbers {t a b : Tree} (hkind : t.kind ≠ "assignment") (h : t.children = [a, b])
    (ha : a.isNumber = true) (hb : b.isNumber = true) : t.simplify ≠ .ok none := by
  have hassign : t.isAssignment = false := beq_eq_false_iff_ne.mpr hkind
  intro hnone
  rw [simplify, h] at hnone
  simp only [hassign, ha, hb, Bool.and_true, if_true, Bool.false_eq_true, if_false] at hnone
  split at hnone
  · cases hnone
  · split at hnone <;> cases hnone

theorem simplify_assignment {t : Tree} (hkind : t.kind = "assignment") :
    t.simplify = .ok none := by
  have hassign : t.isAssignment = true := beq_iff_eq.mpr hkind
  unfold simplify
  split
  · rw [if_pos hassign]
  · rfl

/-! ## All nodes of a tree -/

/-- The nodes of a tree, a node before its children. -/
def nodes (t : Tree) : List Tree :=
  t.find fun _ => true

theorem nodes_leaf (k : String) (v : Option Scalar) : (leaf k v).nodes = [leaf k v] := by
  rw [nodes, find_leaf]
  rfl

theorem nodes_branch (k : String) (v : Option Scalar) (cs : List Tree) :
    (branch k v cs).nodes = branch k v cs :: cs.flatMap nodes := by
  rw [nodes, find_branch]
  rfl

theorem mem_nodes_self (t : Tree) : t ∈ t.nodes := by
  cases t with
  | leaf k v => simp [nodes_leaf]
  | branch k v cs => simp [nodes_branch]

theorem mem_nodes_of_child {t c u : Tree} (hc : c ∈ t.children) (hu : u ∈ c.nodes) :
    u ∈ t.nodes := by
  cases t with
  | leaf k v => cases hc
  | branch k v cs =>
    rw [nodes_branch]
    exact List.mem_cons_of_mem _ (List.mem_flatMap.mpr ⟨c, hc, hu⟩)

/-- A property that goes over to children goes over to all nodes. -/
theorem of_mem_nodes {P : Tree → Prop} (hP : ∀ t c, P t → c ∈ t.children → P c) {t u : Tree}
    (ht : P t) (hu : u ∈ t.nodes) : P u := by
  induction t with
  | leaf k v =>
    rw [nodes_leaf, List.mem_singleton] at hu
    rwa [hu]
  | branch k v cs ih =>
    rw [nodes_branch, List.mem_cons] at hu
    rcases hu with rfl | hu
    · exact ht
    · obtain ⟨c, hc, huc⟩ := List.mem_flatMap.mp hu
      exact ih c hc (hP _ c ht hc) huc

/-- Has the node a number among its operands? -/
def HasNumber (t : Tree) : Prop :=
  ∃ c ∈ t.children, c.isNumber = true

/-- An operation with a number among its operands is replaced. -/
def Simplifies (t u : Tree) : Prop :=
  t.HasNumber ∧ t.simplify = .ok (some u)

/-- No operation of the tree can be folded. -/
def Unfoldable (t : Tree) : Prop :=
  ∀ u ∈ t.nodes, u.HasNumber → u.simplify = .ok none

/-- Some operation of the tree fails to fold. -/
def FailsToFold (t : Tree) (e : Failure) : Prop :=
  ∃ u ∈ t.nodes, u.HasNumber ∧ u.simplify = .error e

theorem exists_node_of_rewritesOne {t u : Tree} (h : RewritesOne Simplifies t u) :
    ∃ t' ∈ t.nodes, ∃ u', Simplifies t' u' := by
  induction h with
  | @here t u h => exact ⟨t, mem_nodes_self t, u, h⟩
  | @inside k v l r c d h ih =>
    obtain ⟨t', ht', u', hu'⟩ := ih
    exact ⟨t', mem_nodes_of_child (by simp [children]) ht', u', hu'⟩

theorem Unfoldable.not_rewrites {t u : Tree} (h : t.Unfoldable) : ¬ RewritesOne Simplifies t u := by
  intro hu
  obtain ⟨t', ht', u', hnumber, hsimplify⟩ := exists_node_of_rewritesOne hu
  rw [h t' ht' hnumber] at hsimplify
  cases hsimplify

theorem Unfoldable.not_fails {t : Tree} {e : Failure} (h : t.Unfoldable) : ¬ t.FailsToFold e := by
  rintro ⟨u, hu, hnumber, hsimplify⟩
  rw [h u hu hnumber] at hsimplify
  cases hsimplify

/-! ## One tree -/

/-- The ways in which a step of folding ends: with nothing to fold, with something in its place, or
with an error. -/
inductive FoldOutcome {α : Type} (quiet : Prop) (changed : α → Prop) (failed : Failure → Prop) :
    Except Failure (Option α) → Prop where
  | quiet (h : quiet) : FoldOutcome quiet changed failed (.ok none)
  | changed {u : α} (h : changed u) : FoldOutcome quiet changed failed (.ok (some u))
  | failed {e : Failure} (h : failed e) : FoldOutcome quiet changed failed (.error e)

/-- The ways in which looking through the operands of a node ends. -/
inductive OperandsOutcome (parent : Tree) (ts : List Tree) : Except Failure FoldStep → Prop where
  | unchanged (h : ∀ c ∈ ts, (c.isNumber = true → parent.simplify = .ok none) ∧
      (foldOperation c).Returns none) : OperandsOutcome parent ts (.ok .unchanged)
  | here {c u : Tree} (hc : c ∈ ts) (hn : c.isNumber = true)
      (hu : parent.simplify = .ok (some u)) : OperandsOutcome parent ts (.ok (.here u))
  | below {l rest : List Tree} {c d : Tree} (hts : ts = l ++ c :: rest)
      (h : (foldOperation c).Returns (some d)) :
      OperandsOutcome parent ts (.ok (.below (l ++ d :: rest)))
  | failedHere {c : Tree} {e : Failure} (hc : c ∈ ts) (hn : c.isNumber = true)
      (he : parent.simplify = .error e) : OperandsOutcome parent ts (.error e)
  | failedBelow {c : Tree} {e : Failure} (hc : c ∈ ts) (h : (foldOperation c).Ends (.error e)) :
      OperandsOutcome parent ts (.error e)

theorem tryFold_cases {parent operand : Tree} {r : Except Failure (Option Tree)}
    (h : (tryFold parent operand).Ends r) :
    (operand.isNumber = true ∧ parent.simplify = r) ∨
      (operand.isNumber = false ∧ r = .ok none) := by
  rw [tryFold] at h
  by_cases hn : operand.isNumber = true
  · rw [if_pos hn] at h
    exact .inl ⟨hn, h.of_note.of_lift.symm⟩
  · rw [if_neg hn] at h
    exact .inr ⟨Bool.eq_false_iff.mpr hn, h.of_pure⟩

theorem foldOperands_outcome {parent : Tree} {ts : List Tree} {r : Except Failure FoldStep}
    (h : (foldOperands parent ts).Ends r) : OperandsOutcome parent ts r := by
  induction ts generalizing r with
  | nil =>
    rw [foldOperands] at h
    rw [h.of_pure]
    exact .unchanged fun c hc => by cases hc
  | cons t ts ih =>
    rw [foldOperands] at h
    rcases h.of_bind with ⟨here, hhere, h⟩ | ⟨e, rfl, he⟩
    · cases here with
      | some u =>
        rw [h.of_pure]
        rcases tryFold_cases hhere.ends with ⟨hn, hu⟩ | ⟨-, hu⟩
        · exact .here List.mem_cons_self hn hu
        · cases hu
      | none =>
        have hroot : t.isNumber = true → parent.simplify = .ok none := by
          intro hn
          rcases tryFold_cases hhere.ends with ⟨-, hu⟩ | ⟨hn', -⟩
          · exact hu
          · rw [hn] at hn'
            cases hn'
        rcases h.of_bind with ⟨inner, hinner, h⟩ | ⟨e, rfl, he⟩
        · cases inner with
          | some t' =>
            rw [h.of_pure]
            exact .below (l := []) rfl hinner
          | none =>
            -- neither the node nor this operand is folded, so the other operands decide
            rcases h.of_bind with ⟨step, hstep, h⟩ | ⟨e, rfl, he⟩
            · cases ih hstep.ends with
              | unchanged hall =>
                rw [h.of_pure]
                exact .unchanged (List.forall_mem_cons.mpr ⟨⟨hroot, hinner⟩, hall⟩)
              | here hc hn hu =>
                rw [h.of_pure]
                exact .here (List.mem_cons_of_mem t hc) hn hu
              | @below l rest c d hts hcd =>
                rw [h.of_pure]
                exact .below (l := t :: l) (congrArg (t :: ·) hts) hcd
            · cases ih he with
              | failedHere hc hn he => exact .failedHere (List.mem_cons_of_mem t hc) hn he
              | failedBelow hc he => exact .failedBelow (List.mem_cons_of_mem t hc) he
        · exact .failedBelow List.mem_cons_self he
    · rcases tryFold_cases he with ⟨hn, hu⟩ | ⟨-, hu⟩
      · exact .failedHere List.mem_cons_self hn hu
      · cases hu

theorem FailsToFold.of_child {t c : Tree} {e : Failure} (hc : c ∈ t.children)
    (h : c.FailsToFold e) : t.FailsToFold e := by
  obtain ⟨u, hu, hfail⟩ := h
  exact ⟨u, mem_nodes_of_child hc hu, hfail⟩

theorem Unfoldable.of_children {t : Tree} (hroot : t.HasNumber → t.simplify = .ok none)
    (h : ∀ c ∈ t.children, c.Unfoldable) : t.Unfoldable := by
  intro u hu hnumber
  cases t with
  | leaf k v =>
    rw [nodes_leaf, List.mem_singleton] at hu
    subst hu
    exact hroot hnumber
  | branch k v cs =>
    rw [nodes_branch, List.mem_cons] at hu
    rcases hu with rfl | hu
    · exact hroot hnumber
    · obtain ⟨c, hc, hu⟩ := List.mem_flatMap.mp hu
      exact h c hc u hu hnumber

/-- Folding in a tree finds nothing to fold, replaces one operation, or fails at one. -/
theorem foldOperation_outcome {t : Tree} {r : Except Failure (Option Tree)}
    (h : (foldOperation t).Ends r) :
    FoldOutcome t.Unfoldable (RewritesOne Simplifies t) t.FailsToFold r := by
  induction t generalizing r with
  | leaf k v =>
    rw [foldOperation] at h
    rw [h.of_pure]
    exact .quiet (.of_children (fun ⟨c, hc, _⟩ => by cases hc) fun c hc => by cases hc)
  | branch k v cs ih =>
    rw [foldOperation] at h
    rcases h.of_bind with ⟨step, hstep, h⟩ | ⟨e, rfl, he⟩
    · cases foldOperands_outcome hstep.ends with
      | unchanged hall =>
        rw [h.of_pure]
        refine .quiet (.of_children (fun ⟨c, hc, hn⟩ => (hall c hc).1 hn) fun c hc => ?_)
        cases ih c hc (hall c hc).2.ends with
        | quiet hc' => exact hc'
      | here hc hn hu =>
        rw [h.of_pure]
        exact .changed (.here ⟨⟨_, hc, hn⟩, hu⟩)
      | @below l rest c d hts hcd =>
        rw [h.of_pure, hts]
        cases ih c (by simp [hts]) hcd.ends with
        | changed hcd' => exact .changed (.inside hcd')
    · cases foldOperands_outcome he with
      | failedHere hc hn he => exact .failed ⟨_, mem_nodes_self _, ⟨_, hc, hn⟩, he⟩
      | @failedBelow c e hc he =>
        cases ih c hc he with
        | failed hfail => exact .failed (.of_child hc hfail)

/-! ## One program -/

theorem foldFirstOf_outcome {ts : List Tree} {r : Except Failure (Option (List Tree))}
    (h : (foldFirstOf ts).Ends r) :
    FoldOutcome (∀ c ∈ ts, (foldFirst c).Returns none)
      (fun ts' => ∃ l c d rest, ts = l ++ c :: rest ∧ ts' = l ++ d :: rest ∧
        (foldFirst c).Returns (some d))
      (fun e => ∃ c ∈ ts, (foldFirst c).Ends (.error e)) r := by
  induction ts generalizing r with
  | nil =>
    rw [foldFirstOf] at h
    rw [h.of_pure]
    exact .quiet fun c hc => by cases hc
  | cons t ts ih =>
    rw [foldFirstOf] at h
    rcases h.of_bind with ⟨first, hfirst, h⟩ | ⟨e, rfl, he⟩
    · cases first with
      | some t' =>
        rw [h.of_pure]
        exact .changed ⟨[], t, t', ts, rfl, rfl, hfirst⟩
      | none =>
        rcases h.of_bind with ⟨others, hothers, h⟩ | ⟨e, rfl, he⟩
        · cases ih hothers.ends with
          | quiet hall =>
            rw [h.of_pure]
            exact .quiet (List.forall_mem_cons.mpr ⟨hfirst, hall⟩)
          | changed hts =>
            obtain ⟨l, c, d, rest, rfl, rfl, hcd⟩ := hts
            rw [h.of_pure]
            exact .changed ⟨t :: l, c, d, rest, rfl, rfl, hcd⟩
        · cases ih he with
          | failed hfail =>
            obtain ⟨c, hc, hfail⟩ := hfail
            exact .failed ⟨c, List.mem_cons_of_mem t hc, hfail⟩
    · exact .failed ⟨t, List.mem_cons_self, he⟩

/-- In a node that is not an assignment itself, the first child with something to fold decides. -/
theorem foldFirst_outcome {t : Tree} (hkind : t.kind ≠ "assignment")
    {r : Except Failure (Option Tree)} (h : (foldFirst t).Ends r) :
    FoldOutcome (∀ c ∈ t.children, (foldFirst c).Returns none)
      (fun u => ∃ k v l c d rest, t = branch k v (l ++ c :: rest) ∧
        u = branch k v (l ++ d :: rest) ∧ (foldFirst c).Returns (some d))
      (fun e => ∃ c ∈ t.children, (foldFirst c).Ends (.error e)) r := by
  cases t with
  | leaf k v =>
    have hk : (k == "assignment") = false := beq_eq_false_iff_ne.mpr hkind
    rw [foldFirst, hk] at h
    rw [h.of_pure]
    exact .quiet fun c hc => by cases hc
  | branch k v cs =>
    have hk : (k == "assignment") = false := beq_eq_false_iff_ne.mpr hkind
    rw [foldFirst, hk] at h
    rcases h.of_bind with ⟨here, hhere, h⟩ | ⟨e, rfl, he⟩
    · obtain rfl := hhere.of_pure
      rcases h.of_bind with ⟨below, hbelow, h⟩ | ⟨e, rfl, he⟩
      · cases foldFirstOf_outcome hbelow.ends with
        | quiet hall =>
          rw [h.of_pure]
          exact .quiet hall
        | changed hcs =>
          obtain ⟨l, c, d, rest, rfl, rfl, hcd⟩ := hcs
          rw [h.of_pure]
          exact .changed ⟨k, v, l, c, d, rest, rfl, rfl, hcd⟩
      · cases foldFirstOf_outcome he with
        | failed hfail => exact .failed hfail
    · cases he.of_pure

/-- Where there is no assignment, nothing is folded. -/
theorem foldFirst_of_find_eq_nil {t : Tree} (ht : t.find isAssignment = [])
    {r : Except Failure (Option Tree)} (h : (foldFirst t).Ends r) : r = .ok none := by
  induction t generalizing r with
  | leaf k v =>
    have hk : (k == "assignment") = false := not_of_find_eq_nil ht
    rw [foldFirst, hk] at h
    exact h.of_pure
  | branch k v cs ih =>
    have hk : (branch k v cs).kind ≠ "assignment" := beq_eq_false_iff_ne.mp (not_of_find_eq_nil ht)
    cases foldFirst_outcome hk h with
    | quiet _ => rfl
    | changed hu =>
      obtain ⟨k', v', l, c, d, rest, heq, -, hcd⟩ := hu
      cases heq
      cases ih c (by simp) (find_child_eq_nil ht (by simp [children])) hcd.ends
    | failed hfail =>
      obtain ⟨c, hc, hfail⟩ := hfail
      cases ih c hc (find_child_eq_nil ht hc) hfail

theorem foldAssignment_ends {t : Tree} {r : Except Failure (Option Tree)}
    (h : (foldAssignment t).Ends r) : (foldOperation t).Ends r := by
  unfold foldAssignment at h
  rcases h.of_note.of_bind with ⟨u, hu, h⟩ | ⟨e, rfl, he⟩
  · cases u with
    | none =>
      rw [h.of_pure]
      exact hu
    | some u =>
      rw [h.of_note.of_pure]
      exact hu
  · exact he

theorem foldOperation_leaf {k : String} {v : Option Scalar} {r : Except Failure (Option Tree)}
    (h : (foldOperation (leaf k v)).Ends r) : r = .ok none := by
  rw [foldOperation] at h
  exact h.of_pure

/-- An assignment is no operation, and its target has none: folding works on the right side. -/
theorem foldOperation_assignment {v w : Option Scalar} {e : Tree}
    {r : Except Failure (Option Tree)}
    (h : (foldOperation (branch "assignment" v [leaf "variable" w, e])).Ends r) :
    FoldOutcome e.Unfoldable
      (fun u => ∃ e', u = branch "assignment" v [leaf "variable" w, e'] ∧
        RewritesOne Simplifies e e')
      e.FailsToFold r := by
  have hsimplify : ∀ cs, (branch "assignment" v cs).simplify = .ok none :=
    fun cs => simplify_assignment rfl
  rw [foldOperation] at h
  rcases h.of_bind with ⟨step, hstep, h⟩ | ⟨e', rfl, he⟩
  · cases foldOperands_outcome hstep.ends with
    | unchanged hall =>
      rw [h.of_pure]
      cases foldOperation_outcome (hall e (by simp)).2.ends with
      | quiet he => exact .quiet he
    | here _ _ hu => cases (hsimplify _).symm.trans hu
    | @below l rest c d hts hcd =>
      rw [h.of_pure]
      rcases l with _ | ⟨x, l⟩
      · obtain ⟨rfl, -⟩ : leaf "variable" w = c ∧ [e] = rest := by simpa using hts
        cases foldOperation_leaf hcd.ends
      · obtain rfl : l = [] := by
          cases l with
          | nil => rfl
          | cons y l => simp at hts
        obtain ⟨rfl, rfl, rfl⟩ : leaf "variable" w = x ∧ e = c ∧ [] = rest := by simpa using hts
        cases foldOperation_outcome hcd.ends with
        | changed hcd' => exact .changed ⟨d, rfl, hcd'⟩
  · cases foldOperands_outcome he with
    | failedHere _ _ hhere => cases (hsimplify _).symm.trans hhere
    | @failedBelow c _ hc hbelow =>
      rcases List.mem_pair.mp hc with rfl | rfl
      · cases foldOperation_leaf hbelow
      · cases foldOperation_outcome hbelow with
        | failed hfail => exact .failed hfail

theorem foldFirst_assignment {v w : Option Scalar} {e : Tree} (he : e.find isStatement = [])
    {r : Except Failure (Option Tree)}
    (h : (foldFirst (branch "assignment" v [leaf "variable" w, e])).Ends r) :
    FoldOutcome e.Unfoldable
      (fun u => ∃ e', u = branch "assignment" v [leaf "variable" w, e'] ∧
        RewritesOne Simplifies e e')
      e.FailsToFold r := by
  -- there are no assignments below to go on with
  have hbelow : ∀ c ∈ [leaf "variable" w, e], c.find isAssignment = [] := by
    intro c hc
    rcases List.mem_pair.mp hc with rfl | rfl
    · rfl
    · refine find_eq_nil_of_imp (fun t ht => ?_) c he
      rw [isStatement, Bool.or_eq_true]
      exact .inl ht
  rw [foldFirst, beq_self_eq_true, if_pos rfl] at h
  rcases h.of_bind with ⟨here, hhere, h⟩ | ⟨e', rfl, he'⟩
  · have houtcome := foldOperation_assignment (foldAssignment_ends hhere.ends)
    cases here with
    | some u =>
      rw [h.of_pure]
      exact houtcome
    | none =>
      rcases h.of_bind with ⟨others, hothers, h⟩ | ⟨e', rfl, he'⟩
      · cases foldFirstOf_outcome hothers.ends with
        | quiet _ =>
          rw [h.of_pure]
          exact houtcome
        | changed hcs =>
          obtain ⟨l, c, d, rest, hcs, -, hcd⟩ := hcs
          cases foldFirst_of_find_eq_nil (hbelow c (by simp [hcs])) hcd.ends
      · cases foldFirstOf_outcome he' with
        | failed hfail =>
          obtain ⟨c, hc, hfail⟩ := hfail
          cases foldFirst_of_find_eq_nil (hbelow c hc) hfail
  · exact foldOperation_assignment (foldAssignment_ends he')

theorem IsChip.fold_outcome {program : Tree} (hchip : program.IsChip)
    {r : Except Failure (Option Tree)} (h : program.fold.Ends r) :
    FoldOutcome (∀ a ∈ program.statements, a.rightSide.Unfoldable)
      (RewritesSide Simplifies program)
      (fun e => ∃ a ∈ program.statements, a.rightSide.FailsToFold e) r := by
  have hguard : (program.kind != "program") = false := by rw [hchip.kind_eq]; rfl
  rw [fold, hguard] at h
  replace h : program.foldFirst.Ends r := h
  -- an assignment on a line, as the node that it is
  have hshape : ∀ {a : Tree}, a.IsChipAssignment → ∃ v w e,
      a = branch "assignment" v [leaf "variable" w, e] ∧ e.find isStatement = [] := by
    intro a ha
    obtain ⟨w, e, hchildren, he⟩ := ha.parts
    cases a with
    | leaf k v => cases hchildren
    | branch k v cs =>
      obtain rfl : cs = [leaf "variable" w, e] := hchildren
      obtain rfl : k = "assignment" := ha.kind_eq
      exact ⟨v, w, e, rfl, he⟩
  have hline : ∀ l ∈ program.children, ∀ {r}, (foldFirst l).Ends r → FoldOutcome
      (∀ a ∈ l.children, (foldFirst a).Returns none)
      (fun u => ∃ k v l' c d rest, l = branch k v (l' ++ c :: rest) ∧
        u = branch k v (l' ++ d :: rest) ∧ (foldFirst c).Returns (some d))
      (fun e => ∃ c ∈ l.children, (foldFirst c).Ends (.error e)) r :=
    fun l hl r hr => foldFirst_outcome (by simp [(hchip.lines l hl).kind_eq]) hr
  cases foldFirst_outcome (by simp [hchip.kind_eq]) h with
  | quiet hall =>
    refine .quiet fun a ha => ?_
    obtain ⟨l, hl, hal⟩ := List.mem_flatMap.mp ha
    cases hline l hl (hall l hl).ends with
    | quiet hall' =>
      obtain ⟨v, w, e, rfl, he⟩ := hshape ((hchip.lines l hl).assignments a hal)
      cases foldFirst_assignment he (hall' _ hal).ends with
      | quiet h => exact h
  | changed hu =>
    obtain ⟨k, v, before, l, l', after, rfl, rfl, hl'⟩ := hu
    have hmem : l ∈ (branch k v (before ++ l :: after)).children := by simp [children]
    cases hline l hmem hl'.ends with
    | changed hl =>
      obtain ⟨lk, lv, left, a, a', right, rfl, rfl, ha'⟩ := hl
      obtain ⟨av, w, e, rfl, he⟩ := hshape ((hchip.lines _ hmem).assignments a (by simp [children]))
      cases foldFirst_assignment he ha'.ends with
      | changed hside =>
        obtain ⟨e', rfl, hee'⟩ := hside
        exact .changed (.intro hee')
  | failed hfail =>
    obtain ⟨l, hl, hfail⟩ := hfail
    cases hline l hl hfail with
    | failed hfail =>
      obtain ⟨a, hal, hfail⟩ := hfail
      obtain ⟨v, w, e, rfl, he⟩ := hshape ((hchip.lines l hl).assignments a hal)
      cases foldFirst_assignment he hfail with
      | failed hfail => exact .failed ⟨_, List.mem_flatMap.mpr ⟨l, hl, hal⟩, hfail⟩

/-! ## What a step keeps -/

/-- What takes the place of an operation reads nothing new. -/
theorem Simplifies.readNames_subset {t u : Tree} (h : Simplifies t u) :
    u.readNames ⊆ t.readNames := by
  obtain ⟨a, b, hchildren, hu⟩ := simplify_cases h.2
  cases t with
  | leaf k v => cases hchildren
  | branch k v cs =>
    obtain rfl : cs = [a, b] := hchildren
    intro x hx
    rw [readNames_branch, List.mem_flatMap]
    rcases hu with rfl | rfl | ⟨d, rfl⟩
    · exact ⟨u, by simp, hx⟩
    · exact ⟨u, by simp, hx⟩
    · cases hx

theorem Simplifies.isExpression {t u : Tree} (h : Simplifies t u) (ht : t.IsExpression) :
    u.IsExpression := by
  obtain ⟨a, b, hchildren, hu⟩ := simplify_cases h.2
  cases ht with
  | named x => cases hchildren
  | number v => cases hchildren
  | @operation k v cs hk hcs =>
    obtain rfl : cs = [a, b] := hchildren
    rcases hu with rfl | rfl | ⟨d, rfl⟩
    · exact hcs u (by simp)
    · exact hcs u (by simp)
    · exact .number _

theorem IsOrdered.of_fold {program q : Tree} (h : program.IsOrdered)
    (hq : RewritesSide Simplifies program q) : q.IsOrdered :=
  hq.isOrdered h (fun _ _ htu ht => htu.isExpression ht)
    fun _ _ htu _ hx => .inl (htu.readNames_subset hx)

end Tree

end Scalarize
