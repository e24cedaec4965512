import Scalarize.Proofs.LiteralValues
import Scalarize.Proofs.PrintedMeaning

/-!
# Scalarize — folding comparisons and logical operators

Six operators compare two numbers, and two join their truth values; all answer with one or zero.
Folding computes the answer from the doubles of two literals. The comparisons come out as the
language has them, but `and` and `or` take their operands for true when they are zero.

* **`foldedTruth`** — when folding answers with one.
* **`apply_truthOperator`** — the answer on doubles is the one on their numbers.
* **`foldedTruth_iff`** — where the answer is that of the language.
* **`truthOperator_folding`** — folding two literals.
-/

namespace Scalarize

/-! ## Folding -/

/-- The operators that answer with a truth value. -/
def truthOperators : List String :=
  ["lt", "le", "gt", "ge", "eq", "ne", "and", "or"]

theorem mem_truthOperators {op : String} : op ∈ truthOperators ↔
    op = "lt" ∨ op = "le" ∨ op = "gt" ∨ op = "ge" ∨ op = "eq" ∨ op = "ne" ∨ op = "and" ∨
      op = "or" := by
  simp [truthOperators]

/-- When folding answers with one. The two logical operators join the facts that their operands are
zero. -/
def foldedTruth : String → ℚ → ℚ → Bool
  | "lt", x, y => x < y
  | "le", x, y => x ≤ y
  | "gt", x, y => x > y
  | "ge", x, y => x ≥ y
  | "eq", x, y => x = y
  | "ne", x, y => x ≠ y
  | "and", x, y => x = 0 ∧ y = 0
  | "or", x, y => x = 0 ∨ y = 0
  | _, _, _ => false

/-- The text of a truth value. -/
def truthText (b : Bool) : String :=
  if b then "1" else "0"

theorem render_ofBool (b : Bool) :
    Decimal.render ⟨Decimal.round4 (Decimal.ofBool b)⟩ = truthText b := by
  cases b <;> decide +kernel

theorem beq_eq_decide {x y : Float} {a b : ℚ} (hx : (FloatClass.of x).number? = some a)
    (hy : (FloatClass.of y).number? = some b) : (x == y) = decide (a = b) :=
  Bool.eq_iff_iff.mpr ((beq_iff_number hx hy).trans decide_eq_true_iff.symm)

theorem apply_truthOperator {op : String} (hop : op ∈ truthOperators) {x y : Float} {a b : ℚ}
    (hx : (FloatClass.of x).number? = some a) (hy : (FloatClass.of y).number? = some b) :
    Decimal.apply op x y = .ok (Decimal.ofBool (foldedTruth op a b)) := by
  have hxzero := beq_eq_decide hx number_zero_double
  have hyzero := beq_eq_decide hy number_zero_double
  rcases mem_truthOperators.mp hop with rfl | rfl | rfl | rfl | rfl | rfl | rfl | rfl
  · simp [Decimal.apply, foldedTruth, lt_iff_number hx hy]
  · simp [Decimal.apply, foldedTruth, le_iff_number hx hy]
  · simp [Decimal.apply, foldedTruth, lt_iff_number hy hx]
  · simp [Decimal.apply, foldedTruth, le_iff_number hy hx]
  · simp [Decimal.apply, foldedTruth, beq_eq_decide hx hy]
  · simp [Decimal.apply, foldedTruth, bne, beq_eq_decide hx hy]
  · simp [Decimal.apply, foldedTruth, hxzero, hyzero]
  · simp [Decimal.apply, foldedTruth, hxzero, hyzero]

/-- The identities are about other operators, so numbers are combined. -/
theorem simplify_eq_foldNumbers {op : String} (hop : op ∈ truthOperators) {a b : Tree}
    (ha : a.isNumber = true) (hb : b.isNumber = true) :
    (∀ u, Tree.foldNumbers op a b = .ok u → (Tree.node op [a, b]).simplify = .ok (some u)) ∧
      ∀ e, Tree.foldNumbers op a b = .error e →
        (Tree.node op [a, b]).simplify = .error (Tree.foldFailure e) := by
  have hop' : (Tree.node op [a, b]).isAssignment = false ∧ Tree.identity? op a b = none := by
    rcases mem_truthOperators.mp hop with rfl | rfl | rfl | rfl | rfl | rfl | rfl | rfl <;>
      exact ⟨rfl, rfl⟩
  have hkind : (Tree.node op [a, b]).kind = op := rfl
  have hchildren : (Tree.node op [a, b]).children = [a, b] := rfl
  unfold Tree.simplify
  simp only [hchildren, hkind, hop'.1, hop'.2, ha, hb, Bool.and_self, if_true, Bool.false_eq_true,
    if_false]
  constructor <;> intro r hr <;> rw [hr]

theorem foldNumbers_ok {op : String} (hop : op ∈ truthOperators) {a b : Tree} {x y : Float}
    {p q : ℚ} (ha : a.decimal = .ok ⟨x⟩) (hb : b.decimal = .ok ⟨y⟩)
    (hx : (FloatClass.of x).number? = some p) (hy : (FloatClass.of y).number? = some q) :
    Tree.foldNumbers op a b = .ok (.text "number" (truthText (foldedTruth op p q))) := by
  unfold Tree.foldNumbers Decimal.binary
  rw [ha, hb]
  simp only [bind, Except.bind, apply_truthOperator hop hx hy, pure, Except.pure, render_ofBool]

theorem truth_eq_one (p : Prop) [Decidable p] :
    some (some (Layout.truth p)) = some (some 1) ↔ p := by
  unfold Layout.truth
  split <;> simp_all

/-- Folding answers as the language does, but for the logical operators when both operands are zero
or neither is. -/
theorem foldedTruth_iff {op : String} (hop : op ∈ truthOperators) (x y : ℚ) :
    (foldedTruth op x y = true ↔ Layout.arithmetic op [x, y] = some (some 1)) ↔
      (op = "and" ∨ op = "or" → (x = 0 ↔ y ≠ 0)) := by
  rcases mem_truthOperators.mp hop with rfl | rfl | rfl | rfl | rfl | rfl | rfl | rfl <;>
    show (decide _ = true ↔ some (some (Layout.truth _)) = some (some 1)) ↔ _ <;>
    rw [truth_eq_one, decide_eq_true_eq] <;> grind

/-- Short decimals are compared like their doubles. -/
theorem foldedTruth_nearestDouble {op : String} (hop : op ∈ truthOperators) {p q : ℚ}
    (hp : IsShortDecimal p) (hq : IsShortDecimal q) :
    foldedTruth op (nearestDouble p) (nearestDouble q) = foldedTruth op p q := by
  have hlt := hp.nearestDouble_lt_iff hq
  have hgt := hq.nearestDouble_lt_iff hp
  have heq := hp.nearestDouble_inj hq
  have hpzero := hp.nearestDouble_inj IsShortDecimal.zero
  have hqzero := hq.nearestDouble_inj IsShortDecimal.zero
  rw [nearestDouble_zero] at hpzero hqzero
  rcases mem_truthOperators.mp hop with rfl | rfl | rfl | rfl | rfl | rfl | rfl | rfl <;>
    simp only [foldedTruth, ge_iff_le, gt_iff_lt, ← not_lt, ne_eq, hlt, hgt, heq, hpzero, hqzero]

/-! ## Folding literals -/

section

variable {cs ds : List Char} {a b : Tree} {op : String} (hop : op ∈ truthOperators)
  (hcs : IsLiteralText cs) (hds : IsLiteralText ds) (ha : LiteralNode cs a) (hb : LiteralNode ds b)

include hop hcs hds ha hb

theorem simplify_of_tooLarge (h : TooLarge a ∨ TooLarge b) :
    (Tree.node op [a, b]).simplify = .error (.diagnostic .foldFailed) := by
  refine (simplify_eq_foldNumbers hop ha.isNumber hb.isNumber).2 .tooLarge ?_
  unfold Tree.foldNumbers
  rcases ha.decimal_cases hcs with ⟨-, hlarge⟩ | ⟨hnot, x, hx, -⟩
  · rw [hlarge]
    rfl
  · obtain ⟨-, hlarge⟩ := (hb.decimal_cases hds).resolve_right fun hr => h.elim hnot hr.1
    rw [hx, hlarge]
    rfl

theorem simplify_of_not_tooLarge (ha' : ¬ TooLarge a) (hb' : ¬ TooLarge b) :
    (Tree.node op [a, b]).simplify = .ok (some (.text "number" (truthText
      (foldedTruth op (nearestDouble (literalValue cs)) (nearestDouble (literalValue ds)))))) := by
  obtain ⟨-, x, hx, hnumber⟩ := (ha.decimal_cases hcs).resolve_left fun hl => ha' hl.1
  obtain ⟨-, y, hy, hnumber'⟩ := (hb.decimal_cases hds).resolve_left fun hl => hb' hl.1
  refine (simplify_eq_foldNumbers hop ha.isNumber hb.isNumber).1 _ ?_
  exact foldNumbers_ok hop hx hy hnumber hnumber'

theorem simplify_of_short (hcs' : IsShortLiteral cs) (hds' : IsShortLiteral ds) :
    (Tree.node op [a, b]).simplify = .ok (some (.text "number" (truthText
      (foldedTruth op (literalValue cs) (literalValue ds))))) := by
  rw [simplify_of_not_tooLarge hop hcs hds ha hb (ha.not_tooLarge hcs hcs')
    (hb.not_tooLarge hds hds'), foldedTruth_nearestDouble hop (hcs.isShortDecimal hcs')
    (hds.isShortDecimal hds')]

end

end Scalarize
