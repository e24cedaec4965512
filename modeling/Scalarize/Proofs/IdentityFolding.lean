import Scalarize.Program.Folding
import Scalarize.Proofs.ChipSemantics
import Scalarize.Proofs.NearestDouble

/-!
# Scalarize — folding with zero and one

An operation with a zero or a one among its operands is replaced by an operand or by a number. The
rule looks at the value that an operand holds, and compound operands hold none, whatever they stand
for. In exact arithmetic on rational numbers each rule gives the value of the operation, with one
exception: zero to a power is folded to zero even if the exponent stands for zero.

* **`exactly`** — exact arithmetic; the operators outside it may be anything.
* **`Identity`** — the rules, one for each side of an operator.
* **`exactValue_of_valueIs`** — an operand that holds a numeral stands for it.
* **`Identity.value`** — what the replacement stands for, rule by rule.
* **`identity_folding`** — where this is what the operation stands for.
-/

namespace Scalarize

/-! ## Exact arithmetic -/

/-- The number that a numeral stands for. -/
def Numeral.rational? : Numeral → Option ℚ
  | int n => some n
  | float x =>
    match FloatClass.of x with
    | .finite d => some d.toRat
    | _ => none

/-- The number that a scalar stands for; a text is read first. -/
def Scalar.rational? : Scalar → Option ℚ
  | text s => (Numeral.read? s).bind Numeral.rational?
  | numeral n => n.rational?

/-- The five operators of exact arithmetic. Division by zero has no value, nor has a power with a
broken exponent or of zero to a negative one. -/
def exactOperator : String → Option (ℚ → ℚ → Option ℚ)
  | "add" => some fun x y => some (x + y)
  | "sub" => some fun x y => some (x - y)
  | "mul" => some fun x y => some (x * y)
  | "div" => some fun x y => if y = 0 then none else some (x / y)
  | "exp" => some fun x y => if y.den ≠ 1 ∨ x = 0 ∧ y < 0 then none else some (x ^ y.num)
  | _ => none

/-- Exact arithmetic on two operands; `other` says what all else is. -/
def exactly (other : String → List (Option ℚ) → Option ℚ) : Interpretation (Option ℚ) where
  literal v := v.bind Scalar.rational?
  operation k vs :=
    match exactOperator k, vs with
    | some f, [x, y] => x.bind fun x => y.bind (f x)
    | _, _ => other k vs

namespace Tree

/-- The value of an expression in exact arithmetic. -/
def exactValue (other : String → List (Option ℚ) → Option ℚ) (σ : String → ℚ) (t : Tree) :
    Option ℚ :=
  t.valueIn (exactly other) fun x => some (σ x)

/-- An operand: a named variable, a number, or an operation, which holds no value. -/
inductive IsOperand : Tree → Prop
  | named (x : String) : IsOperand (variableNamed x)
  | number (v : Option Scalar) : IsOperand (leaf "number" v)
  | operation (k : String) (cs : List Tree) : IsOperand (node k cs)

end Tree

theorem FloatParts.toRat_of_isWhole {d : FloatParts} (h : d.isWhole = true) :
    d.toRat = d.truncate := by
  have hden : (d.denominator : ℚ) ≠ 0 := by simp [denominator]
  have hdvd : d.denominator ∣ d.numerator := Nat.dvd_of_mod_eq_zero (beq_iff_eq.mp h)
  have hdiv : ((d.numerator / d.denominator : ℤ) : ℚ) = d.numerator / d.denominator := by
    rw [← Int.natCast_div, Int.cast_natCast]
    exact Nat.cast_div hdvd hden
  rw [toRat_eq, ← hdiv]
  unfold truncate signed
  cases d.negative <;> simp

theorem Numeral.rational_of_equalsInt {n : Numeral} {k : ℤ} (h : n.equalsInt k = true) :
    n.rational? = some (k : ℚ) := by
  cases n with
  | int m =>
    rw [beq_iff_eq.mp h]
    rfl
  | float x =>
    unfold equalsInt at h
    unfold rational?
    dsimp only at h ⊢
    cases hx : FloatClass.of x with
    | finite d =>
      rw [hx, Bool.and_eq_true, beq_iff_eq] at h
      exact congrArg some ((FloatParts.toRat_of_isWhole h.1).trans (congrArg Int.cast h.2))
    | infinite b =>
      rw [hx] at h
      cases h
    | notANumber =>
      rw [hx] at h
      cases h

namespace Tree

variable (other : String → List (Option ℚ) → Option ℚ) (σ : String → ℚ)

/-- An operand that holds a numeral stands for it. -/
theorem exactValue_of_valueIs {t : Tree} {k : ℤ} (ht : t.IsOperand) (h : t.valueIs k = true) :
    t.exactValue other σ = some (k : ℚ) := by
  cases ht with
  | named x => cases h
  | operation k cs => cases h
  | number v =>
    cases v with
    | none => cases h
    | some s =>
      cases s with
      | text s => cases h
      | numeral n => exact Numeral.rational_of_equalsInt h

theorem exactValue_node {k : String} {f : ℚ → ℚ → Option ℚ} (hk : exactOperator k = some f)
    (a b : Tree) :
    (node k [a, b]).exactValue other σ =
      (a.exactValue other σ).bind fun x => (b.exactValue other σ).bind (f x) := by
  rw [exactValue, node, valueIn_branch, exactly]
  simp only [hk]
  rfl

/-- The rules, by operator and side. -/
inductive Identity : String → Tree → Tree → Tree → Prop
  | zero_add {a b : Tree} (h : a.valueIs 0 = true) : Identity "add" a b b
  | add_zero {a b : Tree} (h : b.valueIs 0 = true) : Identity "add" a b a
  | sub_zero {a b : Tree} (h : b.valueIs 0 = true) : Identity "sub" a b a
  | zero_mul {a b : Tree} (h : a.valueIs 0 = true) : Identity "mul" a b (text "number" "0")
  | mul_zero {a b : Tree} (h : b.valueIs 0 = true) : Identity "mul" a b (text "number" "0")
  | one_mul {a b : Tree} (h : a.valueIs 1 = true) : Identity "mul" a b b
  | mul_one {a b : Tree} (h : b.valueIs 1 = true) : Identity "mul" a b a
  | div_one {a b : Tree} (h : b.valueIs 1 = true) : Identity "div" a b a
  | zero_exp {a b : Tree} (h : a.valueIs 0 = true) (h' : b.valueIs 0 = false) :
    Identity "exp" a b (text "number" "0")
  | exp_zero {a b : Tree} (h : a.valueIs 0 = false) (h' : b.valueIs 0 = true) :
    Identity "exp" a b (text "number" "1")
  | one_exp {a b : Tree} (h : a.valueIs 1 = true) : Identity "exp" a b (text "number" "1")
  | exp_one {a b : Tree} (h : b.valueIs 1 = true) : Identity "exp" a b a

theorem identity_of_some {k : String} {a b r : Tree} (h : identity? k a b = some r) :
    Identity k a b r := by
  unfold identity? at h
  split at h
  · split_ifs at h with h₁ h₂ <;> cases h
    · exact .zero_add h₁
    · exact .add_zero h₂
  · split_ifs at h with h₁
    cases h
    exact .sub_zero h₁
  · split_ifs at h with h₁ h₂ h₃ <;> cases h
    · rcases Bool.or_eq_true_iff.mp h₁ with h | h
      · exact .zero_mul h
      · exact .mul_zero h
    · exact .one_mul h₂
    · exact .mul_one h₃
  · split_ifs at h with h₁
    cases h
    exact .div_one h₁
  · split_ifs at h with h₁ h₂ h₃ h₄ <;> cases h
    · rw [Bool.and_eq_true, Bool.not_eq_true'] at h₁
      exact .zero_exp h₁.1 h₁.2
    · rw [Bool.and_eq_true, Bool.not_eq_true'] at h₂
      exact .exp_zero h₂.1 h₂.2
    · exact .one_exp h₃
    · exact .exp_one h₄
  · cases h

theorem exactValue_zero : (text "number" "0").exactValue other σ = some 0 := rfl

theorem exactValue_one : (text "number" "1").exactValue other σ = some 1 := rfl

section

variable {other σ}

theorem exists_operands {k : String} {f : ℚ → ℚ → Option ℚ} {a b : Tree} {q : ℚ}
    (hk : exactOperator k = some f) (hq : (node k [a, b]).exactValue other σ = some q) :
    ∃ x y, a.exactValue other σ = some x ∧ b.exactValue other σ = some y ∧ f x y = some q := by
  rw [exactValue_node other σ hk] at hq
  obtain ⟨x, hx, hq⟩ := Option.bind_eq_some_iff.mp hq
  obtain ⟨y, hy, hq⟩ := Option.bind_eq_some_iff.mp hq
  exact ⟨x, y, hx, hy, hq⟩

variable {k : String} {f : ℚ → ℚ → Option ℚ} {a b r : Tree} {c d q : ℚ}

theorem value_of_left_neutral (hk : exactOperator k = some f)
    (ha : a.exactValue other σ = some c) (hf : ∀ y, f c y = some y)
    (hq : (node k [a, b]).exactValue other σ = some q) : b.exactValue other σ = some q := by
  obtain ⟨x, y, hx, hy, hxy⟩ := exists_operands hk hq
  obtain rfl := Option.some.inj (hx.symm.trans ha)
  rw [hy, ← hf y, hxy]

theorem value_of_right_neutral (hk : exactOperator k = some f)
    (hb : b.exactValue other σ = some c) (hf : ∀ x, f x c = some x)
    (hq : (node k [a, b]).exactValue other σ = some q) : a.exactValue other σ = some q := by
  obtain ⟨x, y, hx, hy, hxy⟩ := exists_operands hk hq
  obtain rfl := Option.some.inj (hy.symm.trans hb)
  rw [hx, ← hf x, hxy]

theorem eq_of_left_constant (hk : exactOperator k = some f) (ha : a.exactValue other σ = some c)
    (hf : ∀ y z, f c y = some z → z = d) (hq : (node k [a, b]).exactValue other σ = some q) :
    q = d := by
  obtain ⟨x, y, hx, hy, hxy⟩ := exists_operands hk hq
  obtain rfl := Option.some.inj (hx.symm.trans ha)
  exact hf y q hxy

theorem eq_of_right_constant (hk : exactOperator k = some f) (hb : b.exactValue other σ = some c)
    (hf : ∀ x z, f x c = some z → z = d) (hq : (node k [a, b]).exactValue other σ = some q) :
    q = d := by
  obtain ⟨x, y, hx, hy, hxy⟩ := exists_operands hk hq
  obtain rfl := Option.some.inj (hy.symm.trans hb)
  exact hf x q hxy

/-- Powers of zero: one if the exponent is zero, else zero. -/
theorem zero_exp_cases (ha : a.exactValue other σ = some 0)
    (hq : (node "exp" [a, b]).exactValue other σ = some q) :
    b.exactValue other σ = some 0 ∧ q = 1 ∨ b.exactValue other σ ≠ some 0 ∧ q = 0 := by
  obtain ⟨x, y, hx, hy, hxy⟩ := exists_operands rfl hq
  obtain rfl := Option.some.inj (hx.symm.trans ha)
  split at hxy
  · cases hxy
  · obtain rfl := Option.some.inj hxy
    rw [hy]
    by_cases hzero : y = 0
    · exact .inl ⟨congrArg some hzero, by simp [hzero]⟩
    · exact .inr ⟨by simpa using hzero, zero_zpow _ (Rat.num_ne_zero.mpr hzero)⟩

theorem one_exp_eq {y z : ℚ}
    (h : (if y.den ≠ 1 ∨ (1 : ℚ) = 0 ∧ y < 0 then none else some ((1 : ℚ) ^ y.num)) = some z) :
    z = 1 := by
  split at h
  · cases h
  · rw [one_zpow] at h
    exact (Option.some.inj h).symm

/-- Where a rule fails: a power of the number zero of which the exponent stands for zero. -/
def ZeroToZero (other : String → List (Option ℚ) → Option ℚ) (σ : String → ℚ) (k : String)
    (a b : Tree) : Prop :=
  k = "exp" ∧ a.valueIs 0 = true ∧ b.exactValue other σ = some 0

theorem Identity.value (h : Identity k a b r) (ha : a.IsOperand) (hb : b.IsOperand)
    (hq : (node k [a, b]).exactValue other σ = some q) :
    (ZeroToZero other σ k a b ∧ q = 1 ∧ r.exactValue other σ = some 0) ∨
    (¬ ZeroToZero other σ k a b ∧ r.exactValue other σ = some q) := by
  have hleft {n : ℤ} (h : a.valueIs n = true) := exactValue_of_valueIs other σ ha h
  have hright {n : ℤ} (h : b.valueIs n = true) := exactValue_of_valueIs other σ hb h
  have hother (hk : k ≠ "exp") : ¬ ZeroToZero other σ k a b := fun hzero => hk hzero.1
  cases h with
  -- a neutral operand leaves the other one
  | zero_add h => exact .inr ⟨hother (by decide), value_of_left_neutral rfl (hleft h) (by simp) hq⟩
  | add_zero h =>
    exact .inr ⟨hother (by decide), value_of_right_neutral rfl (hright h) (by simp) hq⟩
  | sub_zero h =>
    exact .inr ⟨hother (by decide), value_of_right_neutral rfl (hright h) (by simp) hq⟩
  | one_mul h => exact .inr ⟨hother (by decide), value_of_left_neutral rfl (hleft h) (by simp) hq⟩
  | mul_one h =>
    exact .inr ⟨hother (by decide), value_of_right_neutral rfl (hright h) (by simp) hq⟩
  | div_one h =>
    exact .inr ⟨hother (by decide), value_of_right_neutral rfl (hright h) (by simp) hq⟩
  -- a constant result needs no more than that the other operand has a value
  | zero_mul h =>
    obtain rfl : q = 0 := eq_of_left_constant rfl (hleft h) (by simp +contextual) hq
    exact .inr ⟨hother (by decide), exactValue_zero other σ⟩
  | mul_zero h =>
    obtain rfl : q = 0 := eq_of_right_constant rfl (hright h) (by simp +contextual) hq
    exact .inr ⟨hother (by decide), exactValue_zero other σ⟩
  | zero_exp h h' =>
    rcases zero_exp_cases (by simpa using hleft h) hq with ⟨hzero, rfl⟩ | ⟨hne, rfl⟩
    · exact .inl ⟨⟨rfl, h, hzero⟩, rfl, exactValue_zero other σ⟩
    · exact .inr ⟨fun hzero => hne hzero.2.2, exactValue_zero other σ⟩
  | exp_zero h h' =>
    obtain rfl : q = 1 := eq_of_right_constant rfl (hright h') (by simp +contextual) hq
    exact .inr ⟨by simp [ZeroToZero, h], exactValue_one other σ⟩
  | one_exp h =>
    obtain rfl : q = 1 :=
      eq_of_left_constant rfl (hleft h) (fun y z hz => one_exp_eq (by simpa using hz)) hq
    refine .inr ⟨fun hzero => ?_, exactValue_one other σ⟩
    have := Option.some.inj ((hleft h).symm.trans (hleft hzero.2.1))
    norm_num at this
  | exp_one h =>
    refine .inr ⟨fun hzero => ?_, value_of_right_neutral rfl (hright h) (by simp) hq⟩
    have := Option.some.inj ((hright h).symm.trans hzero.2.2)
    norm_num at this

end

/-- Where an operation with a zero or a one among its operands has a value, the replacement has the
same one, except for a power of zero to what stands for zero: this is one, and the replacement is
zero. -/
theorem identity_folding {k : String} {a b r : Tree} {q : ℚ} (ha : a.IsOperand) (hb : b.IsOperand)
    (h : identity? k a b = some r) (hq : (node k [a, b]).exactValue other σ = some q) :
    (r.exactValue other σ = some q ↔ ¬ ZeroToZero other σ k a b) ∧
      (ZeroToZero other σ k a b → q = 1 ∧ r.exactValue other σ = some 0) := by
  rcases (identity_of_some h).value ha hb hq with ⟨hzero, rfl, hr⟩ | ⟨hne, hr⟩
  · refine ⟨⟨fun hone => ?_, fun hne => absurd hzero hne⟩, fun _ => ⟨rfl, hr⟩⟩
    rw [hr] at hone
    norm_num at hone
  · exact ⟨⟨fun _ => hne, fun _ => hr⟩, fun hzero => absurd hzero hne⟩

theorem identity_folding_sample :
    identity? "exp" (numberOf (.int 0)) (node "add" [variableNamed "n", numberOf (.int 1)]) =
        some (text "number" "0") ∧
      (node "exp" [numberOf (.int 0), node "add" [variableNamed "n", numberOf (.int 1)]]).exactValue
        (fun _ _ => none) (fun _ => 2) = some 0 ∧
      (text "number" "0").exactValue (fun _ _ => none) (fun _ => 2) = some 0 := by
  have hvalue : (node "exp" [numberOf (.int 0), node "add" [variableNamed "n",
      numberOf (.int 1)]]).exactValue (fun _ _ => none) (fun _ => 2) = some 0 := by decide +kernel
  have hne : ¬ ZeroToZero (fun _ _ => none) (fun _ => 2) "exp" (numberOf (.int 0))
      (node "add" [variableNamed "n", numberOf (.int 1)]) := by
    rintro ⟨-, -, hzero⟩
    revert hzero
    decide +kernel
  refine ⟨rfl, hvalue, ?_⟩
  exact (identity_folding _ _ (.number _) (.operation _ _) rfl hvalue).1.mpr hne

/-- The power of zero to a variable that stands for zero is one, but it is folded to zero. -/
theorem fold_zero_to_variable :
    identity? "exp" (numberOf (.int 0)) (variableNamed "n") = some (text "number" "0") ∧
      (node "exp" [numberOf (.int 0), variableNamed "n"]).exactValue (fun _ _ => none)
        (fun _ => 0) = some 1 ∧
      (text "number" "0").exactValue (fun _ _ => none) (fun _ => 0) = some 0 := by
  refine ⟨rfl, ?_, rfl⟩
  decide +kernel

end Tree

end Scalarize
