import Scalarize.Proofs.ChipSemantics
import Scalarize.Proofs.ValueParts

/-!
# Scalarize — the names in values

The names in the value of an expression are those in the values of its variables, and those of the
externals that occur in it: no operation on values brings in a name of its own.

* **`Num.Within`**, **`Value.Within`** — all names in a number or a value have a property.
* **`build_within`** — a form keeps within what its operands keep within, externals apart.
* **`Evaluates.within`** — the same for an expression with all its nodes.
-/

namespace Scalarize

variable {p : String → Prop}

/-- All names in the number have the property. -/
def Num.Within (p : String → Prop) : Num → Prop
  | literal _ => True
  | name s => p s
  | unary _ x => x.Within p
  | binary _ x y => x.Within p ∧ y.Within p

/-- All names in the vector have the property. -/
def Vec.Within (p : String → Prop) (v : Vec) : Prop :=
  ∀ x ∈ v.elems, x.Within p

/-- All names in the matrix have the property. -/
def Mat.Within (p : String → Prop) (m : Mat) : Prop :=
  ∀ v ∈ m.rows, v.Within p

/-- All names in the value have the property. -/
def Value.Within (p : String → Prop) : Value → Prop
  | number x => x.Within p
  | vector v => v.Within p
  | matrix m => m.Within p

theorem Value.each_within {v : Value} : v.Each (Num.Within p) ↔ v.Within p := by
  cases v <;> exact Iff.rfl

theorem Value.within_iff {v : Value} : v.Within p ↔ ∀ x ∈ v.parts, x.Within p :=
  each_within.symm.trans each_iff

theorem Num.Within.imp {q : String → Prop} {x : Num} (h : x.Within p) (hpq : ∀ n, p n → q n) :
    x.Within q := by
  induction x with
  | literal n => trivial
  | name s => exact hpq s h
  | unary op x ih => exact ih h
  | binary op x y ihx ihy => exact ⟨ihx h.1, ihy h.2⟩

theorem Value.Within.imp {q : String → Prop} {v : Value} (h : v.Within p)
    (hpq : ∀ n, p n → q n) : v.Within q :=
  within_iff.mpr fun x hx => (within_iff.mp h x hx).imp hpq

/-- The tree of a number reads its names and no others. -/
theorem Num.within_iff {x : Num} : x.Within p ↔ ∀ n ∈ x.toTree.readNames, p n := by
  induction x with
  | literal n => simp [Within, toTree, Tree.numberOf, Tree.readNames_leaf]
  | name s =>
    simp [Within, toTree, Tree.variableNamed, Tree.text, Tree.readNames_leaf, Tree.valueText,
      Scalar.render]
  | unary op x ih => simp [Within, toTree, Tree.node, Tree.readNames_branch, ih]
  | binary op x y ihx ihy =>
    simp [Within, toTree, Tree.node, Tree.readNames_branch, ihx, ihy, or_imp, forall_and]

/-! ## Forms -/

theorem Num.closed_within : Num.Closed (fun _ => True) (Num.Within p) :=
  ⟨fun _ => trivial, fun _ hx => hx, fun _ hx hy => ⟨hx, hy⟩⟩

/-- A form keeps within what its operands keep within; an external brings its own name. -/
theorem build_within {env : Env} {t : Tree} {vs : List Value} {s : ValueSort} {v : Value}
    (hvs : ∀ v ∈ vs, v.Within p) (hext : t.kind = "external" → p t.name)
    (h : build env s t vs = some v) : v.Within p :=
  Value.each_within.mp (build_each Num.closed_within (fun w hw => Value.each_within.mpr (hvs w hw))
    (fun _ _ => trivial) hext h)

/-- The names in the value of an expression come from its variables and its externals. -/
theorem Evaluates.within {env : Env} {s : ValueSort} {t : Tree} {v : Value}
    (h : Evaluates env s t v) (hvars : ∀ b ∈ env.bindings, b.value.Within p)
    (hext : ∀ u, Occurs env.macros t u → u.kind = "external" → p u.name) : v.Within p :=
  Value.each_within.mp (h.each Num.closed_within
    (fun b hb => Value.each_within.mpr (hvars b hb)) (fun _ _ _ _ _ => trivial) hext)

end Scalarize
