import Scalarize.Proofs.DeclaredFailures
import Scalarize.Proofs.FoldedNumbers
import Scalarize.Proofs.FoldingFocus
import Scalarize.Proofs.LiteralValues
import Scalarize.Proofs.ShortNames
import Scalarize.Proofs.SourceOperators

/-!
# Scalarize — how reduction can fail

Reduction computes with the constants of a program. It fails where two of them cannot be combined,
and the author of the program is told the statement and the operation. There is one exception. The
power of a negative number to a fraction is not real, and this is not taken for a failure of
arithmetic: it ends the compilation as a fault, without a report.

* **`IsArithmetic`** — expressions whose operators are known and whose numbers can be read. Both
  passes keep to them, so no other fault can come up.
* **`foldNumbers_error`** — why two numbers cannot be combined.
* **`ReductionOutcome`** — the ways in which reduction ends.
* **`reduction_outcome`** — a program that was lowered from a source ends in one of these.
-/

namespace Scalarize

open Traced Grammar

/-- The scalar stands for a number. -/
def Scalar.IsReadable : Scalar → Prop
  | .text s => (readFloat? s).isSome = true
  | .numeral _ => True

namespace Tree

/-! ## Expressions that can be computed -/

/-- An expression with known operators and readable numbers. -/
inductive IsArithmetic : Tree → Prop where
  | named (x : String) : IsArithmetic (leaf "variable" (some (.text x)))
  | number {s : Scalar} (hs : s.IsReadable) : IsArithmetic (leaf "number" (some s))
  | operation {k : String} {v : Option Scalar} {cs : List Tree}
      (hk : (cs.length, k) ∈ knownOperators) (h : ∀ c ∈ cs, c.IsArithmetic) :
      IsArithmetic (branch k v cs)

theorem not_reserved_of_known : ∀ o ∈ knownOperators, o.2 ∉ reservedKinds := by
  decide +kernel

theorem IsArithmetic.isExpression {e : Tree} (h : e.IsArithmetic) : e.IsExpression := by
  induction h with
  | named x => exact .named x
  | number hs => exact .number _
  | operation hk h ih => exact .operation (not_reserved_of_known _ hk) ih

theorem IsArithmetic.child {e c : Tree} (h : e.IsArithmetic) (hc : c ∈ e.children) :
    c.IsArithmetic := by
  cases h with
  | named x => cases hc
  | number hs => cases hc
  | operation hk h => exact h c hc

theorem IsArithmetic.of_mem_nodes {e u : Tree} (h : e.IsArithmetic) (hu : u ∈ e.nodes) :
    u.IsArithmetic :=
  Tree.of_mem_nodes (fun _ _ => IsArithmetic.child) h hu

theorem IsArithmetic.renameVariables {e : Tree} (h : e.IsArithmetic) (f : String → String) :
    (e.renameVariables f).IsArithmetic := by
  induction h with
  | named x => exact .named (f x)
  | number hs => exact .number hs
  | @operation k v cs hk h ih =>
    rw [renameVariables_branch]
    refine .operation (by rwa [List.length_map]) fun c hc => ?_
    obtain ⟨b, hb, rfl⟩ := List.mem_map.mp hc
    exact ih b hb

/-! ## What a step keeps -/

theorem replaceable_isArithmetic : Replaceable IsArithmetic := by
  intro k v l r c h
  cases h with
  | operation hk h =>
    refine ⟨h c (by simp), fun d hd => .operation ?_ (forall_mem_replace h fun _ => hd)⟩
    have hlength : (l ++ d :: r).length = (l ++ c :: r).length := by simp
    rwa [hlength]

theorem Simplifies.isArithmetic {t u : Tree} (h : Simplifies t u) (ht : t.IsArithmetic) :
    u.IsArithmetic := by
  obtain ⟨a, b, hchildren, hu⟩ := simplify_cases h.2
  cases ht with
  | named x => cases hchildren
  | number hs => cases hchildren
  | @operation k v cs hk hcs =>
    obtain rfl : cs = [a, b] := hchildren
    rcases hu with rfl | rfl | ⟨d, rfl⟩
    · exact hcs u (by simp)
    · exact hcs u (by simp)
    · exact .number (isSome_readFloat_render d)

/-- A chip program that assigns arithmetic expressions. -/
structure AssignsArithmetic (p : Tree) : Prop where
  chip : p.IsChip
  sides : ∀ a ∈ p.statements, a.rightSide.IsArithmetic

theorem AssignsArithmetic.of_reductionStep {p q : Tree} (hp : p.AssignsArithmetic)
    (h : ReductionStep p q) : q.AssignsArithmetic := by
  have hkeeps := h.keeps replaceable_isArithmetic (fun _ => IsArithmetic.isExpression)
    (fun _ _ htu => htu.isArithmetic) ⟨hp.chip, hp.sides⟩
  exact ⟨hkeeps.1, hkeeps.2⟩

/-! ## Numbers that cannot be combined -/

/-- Why an operation on two numbers has no result. -/
inductive HasNoResult (u : Tree) : DecimalError → Prop where
  | tooLarge {a b : Tree} (hchildren : u.children = [a, b])
      (hnumbers : a.isNumber = true ∧ b.isNumber = true) (h : TooLarge a ∨ TooLarge b) :
      HasNoResult u .tooLarge
  | undefined {a b : Tree} {x y : Decimal} {d : DecimalError} (hchildren : u.children = [a, b])
      (hnumbers : a.isNumber = true ∧ b.isNumber = true) (hx : a.decimal = .ok x)
      (hy : b.decimal = .ok y) (h : Decimal.Undefined u.kind x.value y.value d) : HasNoResult u d

theorem HasNoResult.isArithmetic {u : Tree} {d : DecimalError} (h : u.HasNoResult d)
    (hd : d ≠ .notReal) : d.isArithmetic = true := by
  cases h with
  | tooLarge => rfl
  | undefined _ _ _ _ h => exact h.isArithmetic hd

namespace IsArithmetic

variable {u a b : Tree} {d : DecimalError}

/-- A number can be read, and is a double unless it is too large for one. -/
theorem decimal_error (h : a.IsArithmetic) (hnumber : a.isNumber = true)
    (hd : a.decimal = .error d) : d = .tooLarge ∧ TooLarge a := by
  cases h with
  | named x => cases hnumber
  | @number s hs =>
    replace hd : Decimal.ofScalar s = .error d := hd
    unfold Decimal.ofScalar at hd
    split at hd
    · obtain ⟨x, hx⟩ := Option.isSome_iff_exists.mp hs
      rw [hx] at hd
      cases hd
    · next n =>
      rcases floatOfInt_cases n with ⟨hlarge, -⟩ | ⟨-, x, hx, -⟩
      · split at hd
        · cases hd
        · cases hd
          exact ⟨rfl, n, rfl, hlarge⟩
      · rw [hx] at hd
        cases hd
    · cases hd
  | @operation k v cs hk h =>
    obtain rfl : k = "number" := beq_iff_eq.mp hnumber
    exact absurd (by decide : "number" ∈ reservedKinds) (not_reserved_of_known _ hk)

theorem mem_binaryKinds (h : u.IsArithmetic) (hchildren : u.children = [a, b]) :
    u.kind ∈ Layout.binaryKinds := by
  cases h with
  | named x => cases hchildren
  | number hs => cases hchildren
  | @operation k v cs hk h =>
    obtain rfl : cs = [a, b] := hchildren
    have hk' : k ∈ Layout.binaryKinds := by simpa [knownOperators] using hk
    exact hk'

/-- Two numbers cannot be combined for a reason of arithmetic. -/
theorem foldNumbers_error (hu : u.IsArithmetic) (hchildren : u.children = [a, b])
    (hnumbers : a.isNumber = true ∧ b.isNumber = true)
    (h : foldNumbers u.kind a b = .error d) : u.HasNoResult d := by
  have hoperand : ∀ c ∈ [a, b], c.IsArithmetic := fun c hc => hu.child (by rwa [hchildren])
  -- the operands are read one after the other, then the operator is applied
  rcases error_of_bind h with hd | ⟨x, hx, h⟩
  · obtain ⟨rfl, hlarge⟩ := (hoperand a (by simp)).decimal_error hnumbers.1 hd
    exact .tooLarge hchildren hnumbers (.inl hlarge)
  rcases error_of_bind h with hd | ⟨y, hy, h⟩
  · obtain ⟨rfl, hlarge⟩ := (hoperand b (by simp)).decimal_error hnumbers.2 hd
    exact .tooLarge hchildren hnumbers (.inr hlarge)
  rcases error_of_bind h with hd | ⟨r, -, h⟩
  · rcases error_of_bind hd with hd | ⟨r, -, hd⟩
    · have happly := Decimal.apply_error (hu.mem_binaryKinds hchildren) hd
      exact .undefined hchildren hnumbers hx hy happly
    · cases hd
  · cases h

end IsArithmetic

/-! ## The loop -/

/-- The program comes to another in a number of turns of the loop. -/
inductive ReducesIn : Nat → Tree → Tree → Prop where
  | refl (p : Tree) : ReducesIn 0 p p
  | head {n : Nat} {p q r : Tree} (hstep : ReductionStep p q) (h : ReducesIn n q r) :
      ReducesIn (n + 1) p r

/-- The ways in which the loop ends that is given a number of steps. -/
inductive ReductionOutcome (p : Tree) (steps : Nat) : Except CompileError (Tree × Trace) → Prop where
  | reduced {n q trace} (hn : n < steps) (hsteps : ReducesIn n p q) (hnone : q.propagateStep = none)
      (hfold : q.fold.Returns none) : ReductionOutcome p steps (.ok (q, trace))
  /-- An operation has no result, and the author is told which. -/
  | reported {n q a u d} (hn : n < steps) (hsteps : ReducesIn n p q) (ha : a ∈ q.statements)
      (hu : u ∈ a.rightSide.nodes) (hresult : u.HasNoResult d) (hd : d ≠ .notReal) :
      ReductionOutcome p steps (.error (.optimising .foldFailed (placeReport a u)))
  /-- An operation is a power that is not real. -/
  | notReal {n q a u} (hn : n < steps) (hsteps : ReducesIn n p q) (ha : a ∈ q.statements)
      (hu : u ∈ a.rightSide.nodes) (hresult : u.HasNoResult .notReal) :
      ReductionOutcome p steps (.error (.fault (.decimal .notReal)))
  | unfinished {q} (hsteps : ReducesIn steps p q) :
      ReductionOutcome p steps (.error (.fault .endlessReduction))

theorem ReductionOutcome.head {p q : Tree} {steps : Nat} {r : Except CompileError (Tree × Trace)}
    (hstep : ReductionStep p q) (h : ReductionOutcome q steps r) :
    ReductionOutcome p (steps + 1) r := by
  cases h with
  | reduced hn hsteps hnone hfold =>
    exact .reduced (Nat.succ_lt_succ hn) (.head hstep hsteps) hnone hfold
  | reported hn hsteps ha hu hresult hd =>
    exact .reported (Nat.succ_lt_succ hn) (.head hstep hsteps) ha hu hresult hd
  | notReal hn hsteps ha hu hresult =>
    exact .notReal (Nat.succ_lt_succ hn) (.head hstep hsteps) ha hu hresult
  | unfinished hsteps => exact .unfinished (.head hstep hsteps)

theorem foldFailure_eq {d : DecimalError} (h : d.isArithmetic = true) :
    foldFailure d = .diagnostic .foldFailed :=
  if_pos h

/-- A step of folding that fails is reported, or comes to a power that is not real. -/
theorem AssignsArithmetic.outcome_of_fold {p : Tree} (hp : p.AssignsArithmetic) {e : Failure}
    {trace focus : Trace} (h : p.fold.runFrom trace = (.error e, focus)) (steps : Nat) :
    ReductionOutcome p (steps + 1) (stageOutcome .optimising (.error e, focus)) := by
  obtain ⟨s, hs, u, hu, hstatement, hexpression, hfail⟩ := hp.chip.focus_of_fold h
  obtain ⟨a, b, d, hchildren, ha, hb, hd, rfl⟩ := simplify_error hfail
  have hresult := ((hp.sides s hs).of_mem_nodes hu).foldNumbers_error hchildren ⟨ha, hb⟩ hd
  by_cases hreal : d = .notReal
  · subst hreal
    exact .notReal (Nat.succ_pos steps) (.refl p) hs hu hresult
  · rw [foldFailure_eq (hresult.isArithmetic hreal), stageOutcome,
      report_of_focus hstatement hexpression]
    exact .reported (Nat.succ_pos steps) (.refl p) hs hu hresult hreal

/-- The loop ends in one of these ways, from any trace and with any number of steps. -/
theorem AssignsArithmetic.reduceIn_outcome {p : Tree} (hp : p.AssignsArithmetic) (steps : Nat)
    (trace : Trace) :
    ReductionOutcome p steps (stageOutcome .optimising ((reduceIn steps p).runFrom trace)) := by
  -- a turn of the loop changes both the program and the trace
  induction steps generalizing p trace with
  | zero => exact .unfinished (.refl p)
  | succ steps ih =>
    rw [reduceIn]
    cases hprop : p.propagateStep with
    | some q =>
      have hstep : ReductionStep p q := .inl hprop
      exact .head hstep (ih (hp.of_reductionStep hstep) trace)
    | none =>
      dsimp only
      rw [runFrom_bind]
      cases hfold : p.fold.runFrom trace with
      | mk r focus =>
        cases r with
        | error e => exact hp.outcome_of_fold hfold steps
        | ok folded =>
          cases folded with
          | some q =>
            have hstep : ReductionStep p q := .inr ⟨hprop, trace, focus, hfold⟩
            exact .head hstep (ih (hp.of_reductionStep hstep) focus)
          | none =>
            exact .reduced (Nat.succ_pos steps) (.refl p) hprop ⟨trace, focus, hfold⟩

/-- A program that reduction gives is at the end of a row of steps, and folding leaves it alone. -/
theorem AssignsArithmetic.steps_of_reduce {p q : Tree} (hp : p.AssignsArithmetic) {trace : Trace}
    (h : (p.reduce.runFrom trace).1 = .ok q) : ∃ n, ReducesIn n p q ∧ q.fold.Returns none := by
  have houtcome := hp.reduceIn_outcome p.stepBound trace
  rw [← hp.chip.reduce_eq] at houtcome
  cases hrun : p.reduce.runFrom trace with
  | mk r focus =>
    rw [hrun] at h houtcome
    obtain rfl : r = .ok q := h
    cases houtcome with
    | reduced hn hsteps hnone hfold => exact ⟨_, hsteps, hfold⟩

end Tree

/-! ## Programs of the grammar -/

theorem Num.isArithmetic_toTree {x : Num} (h : x.Operates) : x.toTree.IsArithmetic := by
  induction x with
  | literal n => exact .number trivial
  | name s => exact .named s
  | unary op x ih => exact .operation h.1 (List.forall_mem_singleton.mpr (ih h.2))
  | binary op x y ihx ihy =>
    refine .operation h.1 fun c hc => ?_
    rcases List.mem_pair.mp hc with rfl | rfl
    · exact ihx h.2.1
    · exact ihy h.2.2

theorem Num.renameVariables_assignTo (x : Num) (n : String) (f : String → String) :
    (x.assignTo n).renameVariables f
      = .node "assignment" [.variableNamed (f n), x.toTree.renameVariables f] := by
  rw [assignTo, Tree.node, Tree.renameVariables_branch]
  rfl

section

variable {P : Tree → Prop} (hexpression : ∀ e, P e → e.IsExpression)
  (hP : ∀ (x : Num) (f : String → String), x.Operates → P (x.toTree.renameVariables f))

include hexpression hP

/-- Lines that assign values with known operators, whatever their variables are called. -/
theorem sides_of_chipProgram {lines : List Tree}
    (hlines : ∀ line ∈ lines, ∃ index v, v.Each Num.Operates ∧
      line = .node "line" (Value.assign index v).1) (f : String → String) :
    ((chipProgram lines).renameVariables f).IsChip ∧
      ∀ a ∈ ((chipProgram lines).renameVariables f).statements, P a.rightSide := by
  -- an assignment on one of the lines, after renaming
  have hassign : ∀ line ∈ lines, ∀ a ∈ (line.renameVariables f).children, ∃ n e,
      P e ∧ a = .node "assignment" [.variableNamed n, e] := by
    intro line hline a ha
    obtain ⟨index, v, hv, rfl⟩ := hlines line hline
    rw [Tree.children_renameVariables] at ha
    obtain ⟨b, hb, rfl⟩ := List.mem_map.mp ha
    obtain ⟨n, x, hx, rfl⟩ := Value.mem_assign hb
    exact ⟨f n, _, hP x f (Value.each_iff.mp hv x hx), x.renameVariables_assignTo n f⟩
  have hchildren : ((chipProgram lines).renameVariables f).children
      = lines.map (Tree.renameVariables f) := by
    rw [Tree.children_renameVariables, children_chipProgram]
  refine ⟨⟨by cases lines <;> rfl, fun l hl => ?_⟩, fun a ha => ?_⟩
  · rw [hchildren] at hl
    obtain ⟨line, hline, rfl⟩ := List.mem_map.mp hl
    refine ⟨?_, ?_, fun a ha => ?_⟩
    · obtain ⟨index, v, -, rfl⟩ := hlines line hline
      rfl
    · obtain ⟨index, v, -, rfl⟩ := hlines line hline
      rfl
    · obtain ⟨n, e, he, rfl⟩ := hassign line hline a ha
      exact ⟨rfl, some (.text n), e, rfl, (hexpression e he).find_isStatement⟩
  · rw [Tree.statements, hchildren, List.flatMap_map] at ha
    obtain ⟨line, hline, ha⟩ := List.mem_flatMap.mp ha
    obtain ⟨n, e, he, rfl⟩ := hassign line hline a ha
    exact he

/-- What holds of all values with known operators holds of the right sides of a program that was
lowered and resolved. -/
theorem sides_of_lowerAndResolve {files : FileStore} {program : Tree} {r : Resolution}
    (hprogram : program.Operates) (h : (lowerAndResolve files program).Returns r) :
    r.program.IsChip ∧ ∀ a ∈ r.program.statements, P a.rightSide := by
  obtain ⟨⟨env, chip⟩, hlower, hresolve⟩ := h.of_bind
  have hr : resolveAliases env chip = .ok r := hresolve.of_lift
  obtain ⟨lines, rfl, hlowers, -⟩ := lowers_of_lowerProgram hlower
  have hkind : (chipProgram lines).kind = "program" := by cases lines <;> rfl
  obtain ⟨r', hr', hrenamed⟩ := program_of_resolveAliases hkind
    (hlowers.exports_bound fun p hp => by cases hp)
  obtain rfl : r' = r := Except.ok.inj (hr'.symm.trans hr)
  -- resolution only renames variables
  obtain ⟨lines', heq, hlines⟩ := operates_of_lowerProgram hprogram hlower
  rw [hrenamed, heq]
  exact sides_of_chipProgram hexpression hP hlines env.finalName

end

/-- The right sides of a program that was lowered and resolved are arithmetic. -/
theorem assignsArithmetic_of_lowerAndResolve {files : FileStore} {program : Tree}
    {r : Resolution} (hprogram : program.Operates) (h : (lowerAndResolve files program).Returns r) :
    r.program.AssignsArithmetic := by
  obtain ⟨hchip, hsides⟩ := sides_of_lowerAndResolve (fun _ => Tree.IsArithmetic.isExpression)
    (fun x f hx => (Num.isArithmetic_toTree hx).renameVariables f) hprogram h
  exact ⟨hchip, hsides⟩

/-- Reduction of a program of the grammar, lowered and resolved, ends with a program or with a report
of an operation that has no result; or it has not ended yet. The one exception are powers that are
not real. -/
theorem reduction_outcome {source : List Char} {p : ParseTree} (h : IsSource source p) :
    ∃ program, p.toTree = .ok program ∧ ∀ files trace r focus,
      (lowerAndResolve files program).runFrom trace = (.ok r, focus) →
      r.program.reduce = r.program.reduceIn r.program.stepBound ∧
      ∀ steps focus', r.program.ReductionOutcome steps
        (stageOutcome .optimising ((r.program.reduceIn steps).runFrom focus')) := by
  obtain ⟨program, hp, hoperates⟩ := operates_of_isSource h
  refine ⟨program, hp, fun files trace r focus hr => ?_⟩
  have harithmetic := assignsArithmetic_of_lowerAndResolve hoperates ⟨trace, focus, hr⟩
  exact ⟨harithmetic.chip.reduce_eq, fun steps focus' => harithmetic.reduceIn_outcome steps focus'⟩

/-- A source with one variable, an operation on two literals. -/
def constantSource (x symbol y : String) : List Char :=
  ("let number A = " ++ x ++ " " ++ symbol ++ " " ++ y ++ "\nexport A").toList

/-- Its parse tree. -/
def constantParse (x kind y : String) : ParseTree :=
  .branch "program" [
    .branch "line" [.branch "let_num" [.branch "variable" [.token "A"],
      .branch "num_binary" [.branch "number" [.token x], .branch kind [],
        .branch "number" [.token y]]]],
    .branch "line" [.branch "export" [.branch "variable" [.token "A"]]]]

/-- Its program. -/
def constantProgram (x kind y : String) : Tree :=
  .node "program" [
    .node "line" [.node "let_num" [.text "variable" "A",
      .node "num_binary" [.text "number" x, .node kind [], .text "number" y]]],
    .node "line" [.node "export" [.text "variable" "A"]]]

theorem constantParse_toTree {kind : String} (hkind : kind ∈ ["div", "exp"]) (x y : String) :
    (constantParse x kind y).toTree = .ok (constantProgram x kind y) := by
  rcases List.mem_pair.mp hkind with rfl | rfl <;>
  · simp only [constantParse, ParseTree.toTree, ParseTree.toTrees]
    rfl

theorem constantSource_isSource :
    IsSource (constantSource "8" "/" "0") (constantParse "8" "div" "0") ∧
      IsSource (constantSource "-8" "^" "0.5") (constantParse "-8" "exp" "0.5") :=
  ⟨@isSource_of_leftmost 40 [1, 1, 0, 2, 0, 0, 0, 1, 0, 12, 0, 0, 3, 12, 0, 1, 0, 0] _ _ rfl,
    @isSource_of_leftmost 40 [1, 1, 0, 2, 0, 0, 0, 1, 0, 12, 0, 0, 5, 12, 0, 1, 0, 0] _ _ rfl⟩

theorem reduction_outcome_of_division :
    IsSource (constantSource "8" "/" "0") (constantParse "8" "div" "0") ∧ ∃ r focus,
      (lowerAndResolve [] (constantProgram "8" "div" "0")).runFrom .start = (.ok r, focus) ∧
      r.program.reduce = r.program.reduceIn r.program.stepBound ∧
      ∀ steps focus', r.program.ReductionOutcome steps
        (stageOutcome .optimising ((r.program.reduceIn steps).runFrom focus')) := by
  have hsource := constantSource_isSource.1
  obtain ⟨program, hp, hall⟩ := reduction_outcome hsource
  rw [constantParse_toTree (by simp)] at hp
  obtain rfl := Except.ok.inj hp
  obtain ⟨r, focus, hr⟩ : ∃ r focus,
      (lowerAndResolve [] (constantProgram "8" "div" "0")).runFrom .start = (.ok r, focus) :=
    exists_runFrom (by decide +kernel)
  exact ⟨hsource, r, focus, hr, hall [] .start r focus hr⟩

/-- The error of decimals that an outcome ends with as a fault. -/
def decimalFault? {α : Type} : Except Failure α → Option DecimalError
  | .error (.fault (.decimal d)) => some d
  | _ => none

theorem eq_of_decimalFault {α : Type} {x : Except Failure α} {d : DecimalError}
    (h : decimalFault? x = some d) : x = .error (.fault (.decimal d)) := by
  unfold decimalFault? at h
  split at h
  · cases h
    rfl
  · cases h

/-- The power of a negative literal to a fraction is not reported. -/
theorem power_not_reported :
    IsSource (constantSource "-8" "^" "0.5") (constantParse "-8" "exp" "0.5") ∧
      (constantParse "-8" "exp" "0.5").toTree = .ok (constantProgram "-8" "exp" "0.5") ∧
      ∃ r focus,
        (lowerAndResolve [] (constantProgram "-8" "exp" "0.5")).runFrom .start = (.ok r, focus) ∧
        stageOutcome .optimising (r.program.reduce.runFrom focus)
          = .error (.fault (.decimal .notReal)) := by
  refine ⟨constantSource_isSource.2, constantParse_toTree (by simp) _ _, ?_⟩
  obtain ⟨r, focus, hr⟩ : ∃ r focus,
      (lowerAndResolve [] (constantProgram "-8" "exp" "0.5")).runFrom .start = (.ok r, focus) :=
    exists_runFrom (by decide +kernel)
  have hfault : decimalFault? ((lowerAndResolve [] (constantProgram "-8" "exp" "0.5") >>=
      fun r => r.program.reduce).runFrom .start).1 = some .notReal := by
    decide +kernel
  -- lowering succeeds, so the fault is that of the reduction
  rw [runFrom_bind, hr] at hfault
  dsimp only at hfault
  refine ⟨r, focus, hr, ?_⟩
  cases hrun : r.program.reduce.runFrom focus with
  | mk outcome focus' =>
    rw [hrun] at hfault
    obtain rfl := eq_of_decimalFault hfault
    rfl

end Scalarize
