import Scalarize.Proofs.IdentityFolding
import Scalarize.Proofs.ReductionFailures

/-!
# Scalarize — the trivial operations that reduction leaves

An operation such as a sum with zero or a product with one could always be folded away. The rules
for this look for numerals, and a result of folding is a text. So a zero or a one is recognised if it
comes from the source, and overlooked if it comes from folding, unless the other operand is a number
too: two numbers are always combined.

* **`StandsFor`**, **`IsTrivial`** — operations with a zero or a one in a place where it decides.
* **`HasNumbers`** — expressions with known operators over given numbers. Lowering gives numerals,
  and reduction adds the texts of decimals.
* **`IsTrivial.simplify_eq_none_iff`** — which trivial operations are overlooked.
* **`trivial_operations_left`** — these are the trivial operations that reduction leaves.
-/

namespace Scalarize

open Traced Grammar

/-- A numeral is equal to a whole number if it stands for it. -/
theorem Numeral.equalsInt_of_rational {n : Numeral} {k : ℤ} (h : n.rational? = some (k : ℚ)) :
    n.equalsInt k = true := by
  cases n with
  | int m =>
    have hm : ((m : ℤ) : ℚ) = k := Option.some.inj h
    exact beq_iff_eq.mpr (Int.cast_injective hm)
  | float x =>
    unfold rational? at h
    unfold equalsInt
    dsimp only at h ⊢
    cases hx : FloatClass.of x with
    | finite d =>
      rw [hx] at h
      have hd : d.toRat = k := Option.some.inj h
      have hwhole : d.isWhole = true := by
        rw [← Bool.not_eq_false]
        exact fun hbroken => d.toRat_ne_intCast hbroken k hd
      rw [FloatParts.toRat_of_isWhole hwhole] at hd
      exact Bool.and_eq_true_iff.mpr ⟨hwhole, beq_iff_eq.mpr (Int.cast_injective hd)⟩
    | infinite b =>
      rw [hx] at h
      cases h
    | notANumber =>
      rw [hx] at h
      cases h

namespace Tree

/-! ## Trivial operations -/

/-- The node is a number and stands for this one, as a numeral or as a text. -/
def StandsFor (n : ℤ) (t : Tree) : Prop :=
  t.isNumber = true ∧ t.value.bind Scalar.rational? = some (n : ℚ)

/-- The operators that are trivial with this number on the left. -/
def leftTrivial : List (String × ℤ) :=
  [("add", 0), ("mul", 0), ("mul", 1), ("exp", 1)]

/-- The operators that are trivial with this number on the right. -/
def rightTrivial : List (String × ℤ) :=
  [("add", 0), ("sub", 0), ("mul", 0), ("mul", 1), ("div", 1), ("exp", 1)]

/-- The operation is trivial because of the first operand given, whatever the other one is. -/
inductive IsTrivial (u : Tree) : Tree → Tree → Prop where
  | left {n : ℤ} {a b : Tree} (hchildren : u.children = [a, b]) (hk : (u.kind, n) ∈ leftTrivial)
      (ha : a.StandsFor n) : IsTrivial u a b
  | right {n : ℤ} {a b : Tree} (hchildren : u.children = [a, b]) (hk : (u.kind, n) ∈ rightTrivial)
      (hb : b.StandsFor n) : IsTrivial u b a

theorem identity_add (a b : Tree) : identity? "add" a b =
    if a.valueIs 0 then some b else if b.valueIs 0 then some a else none := rfl

theorem identity_sub (a b : Tree) : identity? "sub" a b =
    if b.valueIs 0 then some a else none := rfl

theorem identity_mul (a b : Tree) : identity? "mul" a b =
    if a.valueIs 0 || b.valueIs 0 then some (.text "number" "0")
    else if a.valueIs 1 then some b
    else if b.valueIs 1 then some a
    else none := rfl

theorem identity_div (a b : Tree) : identity? "div" a b =
    if b.valueIs 1 then some a else none := rfl

theorem identity_exp (a b : Tree) : identity? "exp" a b =
    if a.valueIs 0 && !b.valueIs 0 then some (.text "number" "0")
    else if !a.valueIs 0 && b.valueIs 0 then some (.text "number" "1")
    else if a.valueIs 1 then some (.text "number" "1")
    else if b.valueIs 1 then some a
    else none := rfl

theorem isSome_identity_left {k : String} {n : ℤ} {a : Tree} (b : Tree)
    (hk : (k, n) ∈ leftTrivial) (ha : a.valueIs n = true) : (identity? k a b).isSome = true := by
  simp only [leftTrivial, List.mem_cons, Prod.mk.injEq, List.not_mem_nil, or_false] at hk
  rcases hk with ⟨rfl, rfl⟩ | ⟨rfl, rfl⟩ | ⟨rfl, rfl⟩ | ⟨rfl, rfl⟩
  · rw [identity_add, if_pos ha]
    rfl
  · rw [identity_mul, ha, Bool.true_or]
    rfl
  · rw [identity_mul, if_pos ha]
    split_ifs <;> rfl
  · rw [identity_exp, if_pos ha]
    split_ifs <;> rfl

theorem isSome_identity_right {k : String} {n : ℤ} {b : Tree} (a : Tree)
    (hk : (k, n) ∈ rightTrivial) (hb : b.valueIs n = true) : (identity? k a b).isSome = true := by
  simp only [rightTrivial, List.mem_cons, Prod.mk.injEq, List.not_mem_nil, or_false] at hk
  rcases hk with ⟨rfl, rfl⟩ | ⟨rfl, rfl⟩ | ⟨rfl, rfl⟩ | ⟨rfl, rfl⟩ | ⟨rfl, rfl⟩ | ⟨rfl, rfl⟩
  · rw [identity_add, if_pos hb]
    split_ifs <;> rfl
  · rw [identity_sub, if_pos hb]
    rfl
  · rw [identity_mul, hb, Bool.or_true]
    rfl
  · rw [identity_mul, if_pos hb]
    split_ifs <;> rfl
  · rw [identity_div, if_pos hb]
    rfl
  · rw [identity_exp, if_pos hb]
    split_ifs <;> rfl

theorem identity_eq_none {k : String} {a b : Tree} (ha : ∀ n, a.valueIs n = false)
    (hb : ∀ n, b.valueIs n = false) : identity? k a b = none := by
  unfold identity?
  simp only [ha, hb, Bool.or_false, Bool.false_and, Bool.not_false, Bool.and_false,
    Bool.false_eq_true, if_false]
  split <;> rfl

/-- An operation stays as it is if no rule for zero and one applies and not both of its operands are
numbers. -/
theorem simplify_eq_none_iff {u a b : Tree} (hkind : u.kind ≠ "assignment")
    (hchildren : u.children = [a, b]) :
    u.simplify = .ok none ↔
      identity? u.kind a b = none ∧ ¬ (a.isNumber = true ∧ b.isNumber = true) := by
  have hassign : u.isAssignment = false := beq_eq_false_iff_ne.mpr hkind
  constructor
  · intro h
    refine ⟨?_, fun hnumbers => simplify_numbers hkind hchildren hnumbers.1 hnumbers.2 h⟩
    rw [simplify, hchildren] at h
    simp only [hassign, Bool.false_eq_true, if_false] at h
    cases hid : identity? u.kind a b with
    | none => rfl
    | some e =>
      rw [hid] at h
      cases h
  · rintro ⟨hid, hnumbers⟩
    rw [simplify, hchildren]
    simp only [hassign, hid, Bool.false_eq_true, if_false]
    rw [← Bool.and_eq_true] at hnumbers
    exact if_neg hnumbers

/-! ## The numbers of an expression -/

/-- An expression with known operators, which hold no value, over names and over numbers of some
kind. -/
inductive HasNumbers (N : Scalar → Prop) : Tree → Prop where
  | named (x : String) : HasNumbers N (variableNamed x)
  | number {s : Scalar} (hs : N s) : HasNumbers N (leaf "number" (some s))
  | operation {k : String} {cs : List Tree} (hk : (cs.length, k) ∈ knownOperators)
      (h : ∀ c ∈ cs, c.HasNumbers N) : HasNumbers N (node k cs)

/-- A numeral, as lowering makes them. -/
def IsNumeral (s : Scalar) : Prop :=
  ∃ n, s = .numeral n

/-- A numeral or the text of a decimal, as folding makes them. -/
def IsComputed (s : Scalar) : Prop :=
  IsNumeral s ∨ ∃ d : Decimal, s = .text d.render

/-- The node is a result of folding. -/
def IsFolded (t : Tree) : Prop :=
  ∃ d : Decimal, t = .text "number" d.render

namespace HasNumbers

variable {N : Scalar → Prop} {e : Tree}

theorem mono {M : Scalar → Prop} (h : e.HasNumbers N) (hNM : ∀ s, N s → M s) :
    e.HasNumbers M := by
  induction h with
  | named x => exact .named x
  | number hs => exact .number (hNM _ hs)
  | operation hk _ ih => exact .operation hk ih

theorem isExpression (h : e.HasNumbers N) : e.IsExpression := by
  induction h with
  | named x => exact .named x
  | number hs => exact .number _
  | operation hk _ ih => exact .operation (not_reserved_of_known _ hk) ih

theorem child {c : Tree} (h : e.HasNumbers N) (hc : c ∈ e.children) : c.HasNumbers N := by
  cases h with
  | named x => cases hc
  | number hs => cases hc
  | operation hk h => exact h c hc

theorem of_mem_nodes {u : Tree} (h : e.HasNumbers N) (hu : u ∈ e.nodes) : u.HasNumbers N :=
  Tree.of_mem_nodes (fun _ _ => child) h hu

theorem renameVariables (h : e.HasNumbers N) (f : String → String) :
    (e.renameVariables f).HasNumbers N := by
  induction h with
  | named x => exact .named (f x)
  | number hs => exact .number hs
  | @operation k cs hk h ih =>
    have hvalue : renamedValue f k none = none := by
      unfold renamedValue
      split_ifs <;> rfl
    rw [node, renameVariables_branch, hvalue]
    have hlength : (cs.map (Tree.renameVariables f)).length = cs.length := List.length_map _
    refine HasNumbers.operation (by rwa [hlength]) fun c hc => ?_
    obtain ⟨b, hb, rfl⟩ := List.mem_map.mp hc
    exact ih b hb

theorem eq_of_isNumber (h : e.HasNumbers N) (hnumber : e.isNumber = true) :
    ∃ s, N s ∧ e = leaf "number" (some s) := by
  cases h with
  | named x => cases hnumber
  | @number s hs => exact ⟨s, hs, rfl⟩
  | @operation k cs hk h =>
    obtain rfl : k = "number" := beq_iff_eq.mp hnumber
    exact absurd (by decide : "number" ∈ reservedKinds) (not_reserved_of_known _ hk)

/-- Names and operations hold no numeral. -/
theorem valueIs_eq_false (h : e.HasNumbers N) (hnumber : e.isNumber = false) (n : ℤ) :
    e.valueIs n = false := by
  cases h with
  | named x => rfl
  | number hs => cases hnumber
  | operation hk h => rfl

end HasNumbers

theorem replaceable_hasNumbers (N : Scalar → Prop) : Replaceable (HasNumbers N) := by
  intro k v l r c h
  cases h with
  | operation hk h =>
    refine ⟨h c (by simp), fun d hd => .operation ?_ (forall_mem_replace h fun _ => hd)⟩
    have hlength : (l ++ d :: r).length = (l ++ c :: r).length := by simp
    rwa [hlength]

theorem Simplifies.hasNumbers {t u : Tree} (h : Simplifies t u) (ht : t.HasNumbers IsComputed) :
    u.HasNumbers IsComputed := by
  obtain ⟨a, b, hchildren, hu⟩ := simplify_cases h.2
  rcases hu with rfl | rfl | ⟨d, rfl⟩
  · exact ht.child (by simp [hchildren])
  · exact ht.child (by simp [hchildren])
  · exact .number (.inr ⟨d, rfl⟩)

/-- All programs on the way of reduction have computed numbers. -/
theorem ReducesIn.hasNumbers {n : Nat} {p q : Tree} (h : ReducesIn n p q)
    (hp : p.IsChip ∧ ∀ a ∈ p.statements, a.rightSide.HasNumbers IsComputed) :
    q.IsChip ∧ ∀ a ∈ q.statements, a.rightSide.HasNumbers IsComputed := by
  induction h with
  | refl p => exact hp
  | head hstep _ ih =>
    exact ih (hstep.keeps (replaceable_hasNumbers _) (fun _ => HasNumbers.isExpression)
      (fun _ _ htu => htu.hasNumbers) hp)

/-! ## What is overlooked -/

/-- A number that is no result of folding holds a numeral, and the rules find it. -/
theorem HasNumbers.folded_or_valueIs {c : Tree} {n : ℤ} (h : c.HasNumbers IsComputed)
    (hn : c.StandsFor n) : c.IsFolded ∨ c.valueIs n = true := by
  obtain ⟨s, hs, rfl⟩ := h.eq_of_isNumber hn.1
  rcases hs with ⟨m, rfl⟩ | ⟨d, rfl⟩
  · exact .inr (Numeral.equalsInt_of_rational hn.2)
  · exact .inl ⟨d, rfl⟩

theorem IsFolded.valueIs_eq_false {c : Tree} (h : c.IsFolded) (n : ℤ) : c.valueIs n = false := by
  obtain ⟨d, rfl⟩ := h
  rfl

/-- The argument is the same for both places that the zero or one can have. -/
theorem IsTrivial.overlooked_iff {u a b c other : Tree} {n : ℤ} (hu : u.HasNumbers IsComputed)
    (hchildren : u.children = [a, b]) (hsides : (c = a ∧ other = b) ∨ (c = b ∧ other = a))
    (hn : c.StandsFor n) (hfound : c.valueIs n = true → (identity? u.kind a b).isSome = true) :
    u.simplify = .ok none ↔ c.IsFolded ∧ other.isNumber = false := by
  have hmem : c ∈ u.children ∧ other ∈ u.children := by
    rcases hsides with ⟨rfl, rfl⟩ | ⟨rfl, rfl⟩ <;> simp [hchildren]
  rw [simplify_eq_none_iff hu.isExpression.kind_ne_assignment hchildren]
  constructor
  · -- a numeral would have been found, and two numbers combined
    rintro ⟨hid, hnumbers⟩
    refine ⟨((hu.child hmem.1).folded_or_valueIs hn).resolve_right fun hvalue => ?_, ?_⟩
    · have hsome := hfound hvalue
      rw [hid] at hsome
      cases hsome
    · rw [← Bool.not_eq_true]
      intro hother
      rcases hsides with ⟨rfl, rfl⟩ | ⟨rfl, rfl⟩
      · exact hnumbers ⟨hn.1, hother⟩
      · exact hnumbers ⟨hother, hn.1⟩
  · -- neither operand holds a numeral
    rintro ⟨hfolded, hother⟩
    have hc := hfolded.valueIs_eq_false
    have hvalue := (hu.child hmem.2).valueIs_eq_false hother
    rcases hsides with ⟨rfl, rfl⟩ | ⟨rfl, rfl⟩
    · exact ⟨identity_eq_none hc hvalue, fun hnumbers => by simp [hother] at hnumbers⟩
    · exact ⟨identity_eq_none hvalue hc, fun hnumbers => by simp [hother] at hnumbers⟩

/-- Folding overlooks a trivial operation if its zero or one is a result of folding, and the other
operand no number. -/
theorem IsTrivial.simplify_eq_none_iff {u c other : Tree} (h : u.IsTrivial c other)
    (hu : u.HasNumbers IsComputed) :
    u.simplify = .ok none ↔ c.IsFolded ∧ other.isNumber = false := by
  cases h with
  | left hchildren hk hn =>
    exact overlooked_iff hu hchildren (.inl ⟨rfl, rfl⟩) hn (isSome_identity_left _ hk)
  | right hchildren hk hn =>
    exact overlooked_iff hu hchildren (.inr ⟨rfl, rfl⟩) hn (isSome_identity_right _ hk)

theorem IsTrivial.exists_number {u c other : Tree} (h : u.IsTrivial c other) :
    ∃ d ∈ u.children, d.isNumber = true := by
  cases h with
  | left hchildren _ hn => exact ⟨c, by simp [hchildren], hn.1⟩
  | right hchildren _ hn => exact ⟨c, by simp [hchildren], hn.1⟩

end Tree

/-! ## Programs of the grammar -/

theorem Num.hasNumbers_toTree {x : Num} (h : x.Operates) :
    x.toTree.HasNumbers Tree.IsNumeral := by
  induction x with
  | literal n => exact .number ⟨n, rfl⟩
  | name s => exact .named s
  | unary op x ih => exact .operation h.1 (List.forall_mem_singleton.mpr (ih h.2))
  | binary op x y ihx ihy =>
    refine .operation h.1 fun c hc => ?_
    rcases List.mem_pair.mp hc with rfl | rfl
    · exact ihx h.2.1
    · exact ihy h.2.2

/-- The trivial operations in the reduction of a program that was lowered from a source and resolved.
All numbers are numerals at first. On the way, folding overlooks the trivial operations whose zero or
one is a result of folding and whose other operand is no number, and no others. Only these are left
at the end. -/
theorem trivial_operations_left {source : List Char} {p : ParseTree} (h : IsSource source p) :
    ∃ program, p.toTree = .ok program ∧ ∀ files trace r focus,
      (lowerAndResolve files program).runFrom trace = (.ok r, focus) →
      (∀ a ∈ r.program.statements, a.rightSide.HasNumbers Tree.IsNumeral) ∧
      (∀ n q, Tree.ReducesIn n r.program q → ∀ a ∈ q.statements, ∀ u ∈ a.rightSide.nodes,
        ∀ c other, u.IsTrivial c other →
          (u.simplify = .ok none ↔ c.IsFolded ∧ other.isNumber = false)) ∧
      ∀ focus' q, (r.program.reduce.runFrom focus').1 = .ok q →
        ∀ a ∈ q.statements, ∀ u ∈ a.rightSide.nodes, ∀ c other, u.IsTrivial c other →
          c.IsFolded ∧ other.isNumber = false := by
  obtain ⟨program, hp, hoperates⟩ := operates_of_isSource h
  refine ⟨program, hp, fun files trace r focus hr => ?_⟩
  have hreturns : (lowerAndResolve files program).Returns r := ⟨trace, focus, hr⟩
  obtain ⟨hchip, hnumerals⟩ := sides_of_lowerAndResolve (fun _ => Tree.HasNumbers.isExpression)
    (fun x f hx => (Num.hasNumbers_toTree hx).renameVariables f) hoperates hreturns
  have hstart : ∀ a ∈ r.program.statements, a.rightSide.HasNumbers Tree.IsComputed :=
    fun a ha => (hnumerals a ha).mono fun _ => .inl
  have hoverlooked : ∀ n q, Tree.ReducesIn n r.program q → ∀ a ∈ q.statements,
      ∀ u ∈ a.rightSide.nodes, ∀ c other, u.IsTrivial c other →
        (u.simplify = .ok none ↔ c.IsFolded ∧ other.isNumber = false) := by
    intro n q hq a ha u hu c other htrivial
    exact htrivial.simplify_eq_none_iff (((hq.hasNumbers ⟨hchip, hstart⟩).2 a ha).of_mem_nodes hu)
  refine ⟨hnumerals, hoverlooked, fun focus' q hq a ha u hu c other htrivial => ?_⟩
  have harithmetic := assignsArithmetic_of_lowerAndResolve hoperates hreturns
  obtain ⟨n, hsteps, hfold⟩ := harithmetic.steps_of_reduce hq
  -- where folding has come to an end it has overlooked all that is left
  cases (hsteps.hasNumbers ⟨hchip, hstart⟩).1.fold_outcome hfold.ends with
  | quiet hquiet =>
    exact (hoverlooked n q hsteps a ha u hu c other htrivial).mp
      (hquiet a ha u hu htrivial.exists_number)

/-- A source in which a zero comes from folding, its parse tree and its program. -/
def foldedZeroSource : List Char :=
  "import n\nlet number X = $n + (1 - 1)\nexport X".toList

def foldedZeroParse : ParseTree :=
  .branch "program" [
    .branch "line" [.branch "import_group" [.branch "import" [.branch "external" [.token "n"]]]],
    .branch "line" [.branch "let_num" [.branch "variable" [.token "X"],
      .branch "num_binary" [.branch "external" [.token "n"], .branch "add" [],
        .branch "num_binary" [.branch "number" [.token "1"], .branch "sub" [],
          .branch "number" [.token "1"]]]]],
    .branch "line" [.branch "export" [.branch "variable" [.token "X"]]]]

def foldedZeroProgram : Tree :=
  .node "program" [
    .node "line" [.node "import_group" [.node "import" [.text "external" "n"]]],
    .node "line" [.node "let_num" [.text "variable" "X",
      .node "num_binary" [.text "external" "n", .node "add" [],
        .node "num_binary" [.text "number" "1", .node "sub" [], .text "number" "1"]]]],
    .node "line" [.node "export" [.text "variable" "X"]]]

theorem foldedZeroSource_isSource : IsSource foldedZeroSource foldedZeroParse :=
  @isSource_of_leftmost 40 [1, 1, 1, 0, 0, 0, 0, 0, 0, 2, 0, 0, 0, 1, 0, 9, 0, 0, 0, 8, 0, 1, 0, 12,
    0, 0, 1, 12, 0, 1, 0, 0] _ _ rfl

theorem foldedZeroParse_toTree : foldedZeroParse.toTree = .ok foldedZeroProgram := by
  simp only [foldedZeroParse, ParseTree.toTree, ParseTree.toTrees]
  rfl

/-- The text that a scalar is. -/
def Scalar.text? : Scalar → Option String
  | text s => some s
  | numeral _ => none

/-- The operators of the right sides of a program, with the kinds and the texts of their operands. -/
def Tree.outline (p : Tree) : List (String × List (String × Option String)) :=
  p.statements.map fun a =>
    (a.rightSide.kind, a.rightSide.children.map fun c => (c.kind, c.value.bind Scalar.text?))

theorem foldedZeroProgram_reduces : ∃ r focus q,
    (lowerAndResolve [] foldedZeroProgram).runFrom .start = (.ok r, focus) ∧
      (r.program.reduce.runFrom focus).1 = .ok q ∧
      q.outline = [("add", [("variable", some "n"), ("number", some "0")])] := by
  have houtline : ((lowerAndResolve [] foldedZeroProgram >>= fun r => r.program.reduce).runFrom
      .start).1.toOption.map Tree.outline
      = some [("add", [("variable", some "n"), ("number", some "0")])] := by
    decide +kernel
  obtain ⟨q, hq, hkinds⟩ := Option.map_eq_some_iff.mp houtline
  obtain ⟨r, focus, hr⟩ : ∃ r focus,
      (lowerAndResolve [] foldedZeroProgram).runFrom .start = (.ok r, focus) :=
    exists_runFrom (by decide +kernel)
  rw [runFrom_bind, hr] at hq
  exact ⟨r, focus, q, hr, ok_of_toOption hq, hkinds⟩

theorem trivial_operations_left_sample : IsSource foldedZeroSource foldedZeroParse ∧ ∃ r focus q,
    (lowerAndResolve [] foldedZeroProgram).runFrom .start = (.ok r, focus) ∧
      (r.program.reduce.runFrom focus).1 = .ok q ∧
      ∀ a ∈ q.statements, ∀ u ∈ a.rightSide.nodes, ∀ c other, u.IsTrivial c other →
        c.IsFolded ∧ other.isNumber = false := by
  refine ⟨foldedZeroSource_isSource, ?_⟩
  obtain ⟨program, hp, hall⟩ := trivial_operations_left foldedZeroSource_isSource
  rw [foldedZeroParse_toTree] at hp
  obtain rfl := Except.ok.inj hp
  obtain ⟨r, focus, q, hr, hq, -⟩ := foldedZeroProgram_reduces
  exact ⟨r, focus, q, hr, hq, (hall [] .start r focus hr).2.2 focus q hq⟩

/-- The sum of an external and a zero that comes from folding is left as it is. -/
theorem folded_zero_not_dropped :
    IsSource foldedZeroSource foldedZeroParse ∧
      foldedZeroParse.toTree = .ok foldedZeroProgram ∧ ∃ r focus q,
        (lowerAndResolve [] foldedZeroProgram).runFrom .start = (.ok r, focus) ∧
        (r.program.reduce.runFrom focus).1 = .ok q ∧
        ∃ a ∈ q.statements, ∃ c other, a.rightSide.IsTrivial c other := by
  refine ⟨foldedZeroSource_isSource, foldedZeroParse_toTree, ?_⟩
  obtain ⟨r, focus, q, hr, hq, houtline⟩ := foldedZeroProgram_reduces
  refine ⟨r, focus, q, hr, hq, ?_⟩
  obtain ⟨a, ts, hstatements, ha, -⟩ := List.map_eq_cons_iff.mp houtline
  rw [Prod.mk.injEq] at ha
  obtain ⟨x, cs, hchildren, -, hcs⟩ := List.map_eq_cons_iff.mp ha.2
  obtain ⟨c, ds, rfl, hc, hds⟩ := List.map_eq_cons_iff.mp hcs
  obtain rfl := List.map_eq_nil_iff.mp hds
  rw [Prod.mk.injEq] at hc
  -- the text of the second operand can only be that of a text
  obtain ⟨s, hs, htext⟩ := Option.bind_eq_some_iff.mp hc.2
  obtain rfl : s = .text "0" := by
    cases s with
    | text s => exact congrArg Scalar.text (Option.some.inj htext)
    | numeral n => cases htext
  have hzero : c.StandsFor 0 := by
    refine ⟨beq_iff_eq.mpr hc.1, ?_⟩
    rw [hs]
    rfl
  exact ⟨a, by simp [hstatements], c, x, .right hchildren (by rw [ha.1]; decide) hzero⟩

end Scalarize
