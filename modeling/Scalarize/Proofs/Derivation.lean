import Mathlib
import Scalarize.Expression

/-!
# Scalarize — expressions from the bottom up

An expression is a variable, a macro call, or a form over operands. What a form makes of the values
of its operands is left open here, and so are the values themselves: `Derives` is the bottom-up
evaluation for any of these choices. It has no limit of depth and no errors: an expression that
cannot be evaluated derives nothing.

* **`operands`** — the operands of each form, with their sorts.
* **`Occurs`** — the nodes of an expression once its macro calls are expanded.
* **`Derives.unique`** — an expression derives at most one value.
* **`Derives.map`** — a map between values that fits the choices at the nodes of an expression
  carries its derivation over.
* **`Derives.invariant`** — what all forms keep holds of every derived value.
-/

namespace Scalarize

universe u w

/-! ## Operands -/

/-- The operands of a number expression, each with its sort. -/
def NumForm.operands (f : NumForm) (children : List Tree) : Option (List (ValueSort × Tree)) :=
  match f, children with
  | .chain, first :: rest => some ((.number, first) :: (pairs rest).map fun p => (.number, p.2))
  | .unaryChain, cs => cs.getLast?.map fun e => [(.number, e)]
  | .reduce, _ :: v :: _ => some [(.vector, v)]
  | .dot, v :: w :: _ => some [(.vector, v), (.vector, w)]
  | .len, v :: _ => some [(.vector, v)]
  | .rows, m :: _ => some [(.matrix, m)]
  | .cols, m :: _ => some [(.matrix, m)]
  | .vecElem, v :: _ :: _ => some [(.vector, v)]
  | .matElem, m :: _ :: _ :: _ => some [(.matrix, m)]
  | .external, _ => some []
  | .literal, _ => some []
  | _, _ => none

/-- The operands of a vector expression. -/
def VecForm.operands (f : VecForm) (children : List Tree) : Option (List (ValueSort × Tree)) :=
  match f, children with
  | .chain, first :: rest => some ((.vector, first) :: (pairs rest).map fun p => (.vector, p.2))
  | .map, _ :: v :: _ => some [(.vector, v)]
  | .premap, _ :: x :: v :: _ => some [(.number, x), (.vector, v)]
  | .postmap, x :: _ :: v :: _ => some [(.number, x), (.vector, v)]
  | .apply, _ :: first :: rest => some ((.vector, first) :: rest.map fun v => (.vector, v))
  | .concat, first :: rest => some ((.vector, first) :: rest.map fun v => (.vector, v))
  | .reverse, v :: _ => some [(.vector, v)]
  | .row, m :: _ :: _ => some [(.matrix, m)]
  | .col, m :: _ :: _ => some [(.matrix, m)]
  | .literal, cs => some (cs.map fun x => (.number, x))
  | _, _ => none

/-- The operands of a matrix expression. -/
def MatForm.operands (f : MatForm) (children : List Tree) : Option (List (ValueSort × Tree)) :=
  match f, children with
  | .chain, first :: rest => some ((.matrix, first) :: (pairs rest).map fun p => (.matrix, p.2))
  | .map, _ :: m :: _ => some [(.matrix, m)]
  | .premap, _ :: x :: m :: _ => some [(.number, x), (.matrix, m)]
  | .postmap, x :: _ :: m :: _ => some [(.number, x), (.matrix, m)]
  | .apply, _ :: first :: rest => some ((.matrix, first) :: rest.map fun m => (.matrix, m))
  | .transpose, m :: _ => some [(.matrix, m)]
  | .product, m :: n :: _ => some [(.matrix, m), (.matrix, n)]
  | .literal, cs => some (cs.map fun v => (.vector, v))
  | _, _ => none

/-- The operands of an expression of the given sort. Variables and macro calls have none. -/
def operands (s : ValueSort) (t : Tree) : Option (List (ValueSort × Tree)) :=
  match s with
  | .number => (NumForm.ofKind? t.kind).bind (·.operands t.children)
  | .vector => (VecForm.ofKind? t.kind).bind (·.operands t.children)
  | .matrix => (MatForm.ofKind? t.kind).bind (·.operands t.children)

/-- The macros of a program, by name. -/
abbrev Macros := List (String × MacroDef)

/-- The expression that a macro call stands for. -/
def expansion? (macros : Macros) (t : Tree) : Option Tree :=
  match t.children with
  | callee :: args :: _ => (macros.lookup callee.name).bind fun m => (m.call args.children).toOption
  | _ => none

/-! ## Derivations -/

/-- Bottom-up evaluation with values in `X`: from the values of the variables, the macros, and what
each form makes of the values of its operands. -/
inductive Derives {X : Type u} (vars : ValueSort → String → Option X) (macros : Macros)
    (form : ValueSort → Tree → List X → Option X) : ValueSort → Tree → X → Prop where
  | reference {s t x} (hkind : t.kind = "variable") (hvar : vars s t.name = some x) :
      Derives vars macros form s t x
  | call {s t body x} (hkind : t.kind = "call") (hbody : expansion? macros t = some body)
      (h : Derives vars macros form s body x) : Derives vars macros form s t x
  | form {s t ops xs x} (hops : operands s t = some ops) (hlen : ops.length = xs.length)
      (h : ∀ {p y}, (p, y) ∈ ops.zip xs → Derives vars macros form p.1 p.2 y)
      (hform : form s t xs = some x) : Derives vars macros form s t x

/-! ## The nodes of an expression -/

/-- A node occurs in an expression once its macro calls are expanded. The arguments of a call occur
only where the body of the macro has them. -/
inductive Occurs (macros : Macros) : Tree → Tree → Prop where
  | here (t) : Occurs macros t t
  | child {t c u} (hkind : t.kind ≠ "call") (hc : c ∈ t.children) (h : Occurs macros c u) :
      Occurs macros t u
  | expanded {t body u} (hkind : t.kind = "call") (hbody : expansion? macros t = some body)
      (h : Occurs macros body u) : Occurs macros t u

theorem operands_variable {s : ValueSort} {t : Tree} (h : t.kind = "variable") :
    operands s t = none := by
  cases s <;> rw [operands, h] <;> rfl

theorem operands_call {s : ValueSort} {t : Tree} (h : t.kind = "call") :
    operands s t = none := by
  cases s <;> rw [operands, h] <;> rfl

theorem snd_mem_of_mem_pairs {ts : List Tree} {p : Tree × Tree} (h : p ∈ pairs ts) : p.2 ∈ ts := by
  fun_induction pairs ts with
  | case1 op x rest ih =>
    rcases List.mem_cons.mp h with rfl | h
    · exact List.mem_cons_of_mem _ List.mem_cons_self
    · exact List.mem_cons_of_mem _ (List.mem_cons_of_mem _ (ih h))
  | case2 => cases h

theorem mem_of_mem_chain {s : ValueSort} {first : Tree} {rest : List Tree} {p : ValueSort × Tree}
    (hp : p ∈ (s, first) :: (pairs rest).map fun q => (s, q.2)) : p.2 ∈ first :: rest := by
  rcases List.mem_cons.mp hp with rfl | hp
  · exact List.mem_cons_self
  · obtain ⟨q, hq, rfl⟩ := List.mem_map.mp hp
    exact List.mem_cons_of_mem _ (snd_mem_of_mem_pairs hq)

theorem NumForm.mem_of_mem_operands (f : NumForm) {cs : List Tree} {ops : List (ValueSort × Tree)}
    {p : ValueSort × Tree} (hf : f.operands cs = some ops) (hp : p ∈ ops) : p.2 ∈ cs := by
  unfold NumForm.operands at hf
  split at hf
  case h_1 => cases hf; exact mem_of_mem_chain hp
  case h_2 =>
    obtain ⟨e, he, rfl⟩ := Option.map_eq_some_iff.mp hf
    rw [List.mem_singleton.mp hp]
    exact List.mem_of_getLast? he
  all_goals cases hf <;> grind

theorem VecForm.mem_of_mem_operands (f : VecForm) {cs : List Tree} {ops : List (ValueSort × Tree)}
    {p : ValueSort × Tree} (hf : f.operands cs = some ops) (hp : p ∈ ops) : p.2 ∈ cs := by
  unfold VecForm.operands at hf
  split at hf
  case h_1 => cases hf; exact mem_of_mem_chain hp
  all_goals cases hf <;> grind

theorem MatForm.mem_of_mem_operands (f : MatForm) {cs : List Tree} {ops : List (ValueSort × Tree)}
    {p : ValueSort × Tree} (hf : f.operands cs = some ops) (hp : p ∈ ops) : p.2 ∈ cs := by
  unfold MatForm.operands at hf
  split at hf
  case h_1 => cases hf; exact mem_of_mem_chain hp
  all_goals cases hf <;> grind

/-- The operands of an expression are children of its node. -/
theorem mem_children_of_mem_operands {s : ValueSort} {t : Tree} {ops : List (ValueSort × Tree)}
    {p : ValueSort × Tree} (hops : operands s t = some ops) (hp : p ∈ ops) :
    p.2 ∈ t.children := by
  cases s with
  | number =>
    obtain ⟨f, -, hf⟩ := Option.bind_eq_some_iff.mp hops
    exact f.mem_of_mem_operands hf hp
  | vector =>
    obtain ⟨f, -, hf⟩ := Option.bind_eq_some_iff.mp hops
    exact f.mem_of_mem_operands hf hp
  | matrix =>
    obtain ⟨f, -, hf⟩ := Option.bind_eq_some_iff.mp hops
    exact f.mem_of_mem_operands hf hp

/-- An operand brings its nodes. -/
theorem Occurs.of_operand {macros : Macros} {s : ValueSort} {t u : Tree}
    {ops : List (ValueSort × Tree)} {p : ValueSort × Tree} (hops : operands s t = some ops)
    (hp : p ∈ ops) (h : Occurs macros p.2 u) : Occurs macros t u := by
  refine .child (fun hkind => ?_) (mem_children_of_mem_operands hops hp) h
  rw [operands_call hkind] at hops
  cases hops

/-- One set of macros has all macros of another, under their names. -/
def Macros.Extends (macros' macros : Macros) : Prop :=
  ∀ n m, macros.lookup n = some m → macros'.lookup n = some m

theorem Macros.Extends.expansion {macros' macros : Macros} (h : macros'.Extends macros)
    {t body : Tree} (hbody : expansion? macros t = some body) :
    expansion? macros' t = some body := by
  unfold expansion? at hbody ⊢
  split at hbody
  · obtain ⟨m, hm, hcall⟩ := Option.bind_eq_some_iff.mp hbody
    rw [h _ m hm]
    exact hcall
  · cases hbody

/-- More macros leave the nodes of an expression where they are. -/
theorem Occurs.of_extends {macros' macros : Macros} (hextends : macros'.Extends macros)
    {t u : Tree} (h : Occurs macros t u) : Occurs macros' t u := by
  induction h with
  | here => exact .here _
  | child hkind hc _ ih => exact .child hkind hc ih
  | expanded hkind hbody _ ih => exact .expanded hkind (hextends.expansion hbody) ih

/-! ## Lemmas on derivations -/

theorem getElem_mem_zip {α : Type u} {β : Type w} {xs : List α} {ys : List β} {i : Nat}
    (hi : i < xs.length) (hi' : i < ys.length) : (xs[i], ys[i]) ∈ xs.zip ys := by
  have hzip : i < (xs.zip ys).length := by
    rw [List.length_zip]
    omega
  have hmem := List.getElem_mem hzip
  rwa [List.getElem_zip] at hmem

namespace Derives

variable {X : Type u} {Y : Type w} {vars : ValueSort → String → Option X} {macros : Macros}
  {form : ValueSort → Tree → List X → Option X}

/-- A form over operands that are derived one by one. -/
theorem of_forall₂ {s : ValueSort} {t : Tree} {ops : List (ValueSort × Tree)} {xs : List X} {x : X}
    (hops : operands s t = some ops)
    (h : List.Forall₂ (fun p y => Derives vars macros form p.1 p.2 y) ops xs)
    (hform : form s t xs = some x) : Derives vars macros form s t x :=
  .form hops h.length_eq (fun hp => (List.forall₂_iff_zip.mp h).2 hp) hform

/-- An expression derives at most one value. Induction on the first derivation; the second one must
end in the same rule, since the kinds of variables and calls have no operands. -/
theorem unique {s : ValueSort} {t : Tree} {x y : X} (hx : Derives vars macros form s t x)
    (hy : Derives vars macros form s t y) : x = y := by
  induction hx generalizing y with
  | reference hkind hvar =>
    cases hy with
    | reference _ hvar' => exact Option.some.inj (hvar.symm.trans hvar')
    | call hkind' => exact absurd (hkind.symm.trans hkind') (by decide)
    | form hops => rw [operands_variable hkind] at hops; cases hops
  | call hkind hbody _ ih =>
    cases hy with
    | reference hkind' => exact absurd (hkind.symm.trans hkind') (by decide)
    | call _ hbody' h' =>
      obtain rfl := Option.some.inj (hbody.symm.trans hbody')
      exact ih h'
    | form hops => rw [operands_call hkind] at hops; cases hops
  | @form s t ops xs x hops hlen h hform ih =>
    cases hy with
    | reference hkind => rw [operands_variable hkind] at hops; cases hops
    | call hkind => rw [operands_call hkind] at hops; cases hops
    | @form _ _ ops' ys _ hops' hlen' h' hform' =>
      obtain rfl := Option.some.inj (hops.symm.trans hops')
      -- the operands derive the same values one by one
      have heq : xs = ys := by
        refine List.ext_getElem (hlen.symm.trans hlen') fun i hi hi' => ?_
        have hops : i < ops.length := by omega
        exact ih (getElem_mem_zip hops hi) (h' (getElem_mem_zip hops hi'))
      subst heq
      exact Option.some.inj (hform.symm.trans hform')

/-- A map between values carries a derivation over if it fits the variables, and if it fits the
forms at the nodes of the expression. -/
theorem map {vars' : ValueSort → String → Option Y} {macros' : Macros}
    {form' : ValueSort → Tree → List Y → Option Y} (f : X → Y)
    (hvars : ∀ s n x, vars s n = some x → vars' s n = some (f x))
    (hmacros : macros'.Extends macros) {s : ValueSort} {t : Tree} {x : X}
    (h : Derives vars macros form s t x)
    (hform : ∀ s u ops xs x, Occurs macros' t u → operands s u = some ops →
      List.Forall₂ (fun p y => Derives vars macros form p.1 p.2 y) ops xs →
      form s u xs = some x → form' s u (xs.map f) = some (f x)) :
    Derives vars' macros' form' s t (f x) := by
  induction h with
  | reference hkind hvar => exact .reference hkind (hvars _ _ _ hvar)
  | call hkind hbody _ ih =>
    have hbody' := hmacros.expansion hbody
    refine .call hkind hbody' (ih fun s u ops xs x hu => hform s u ops xs x ?_)
    exact .expanded hkind hbody' hu
  | @form s t ops xs x hops hlen h hx ih =>
    have hall : List.Forall₂ (fun p y => Derives vars macros form p.1 p.2 y) ops xs :=
      List.forall₂_iff_zip.mpr ⟨hlen, h⟩
    refine .of_forall₂ hops ?_ (hform s t ops xs x (.here t) hops hall hx)
    rw [List.forall₂_map_right_iff]
    refine List.forall₂_iff_zip.mpr ⟨hlen, fun {p y} hp => ?_⟩
    refine ih hp fun s u ops' ys y hu => hform s u ops' ys y ?_
    exact .of_operand hops (List.of_mem_zip hp).1 hu

/-- What holds of the values of the variables and is kept by the forms at the nodes of the
expression holds of its value. -/
theorem invariant {P : X → Prop} (hvars : ∀ s n x, vars s n = some x → P x) {s : ValueSort}
    {t : Tree} {x : X} (h : Derives vars macros form s t x)
    (hform : ∀ s u xs x, Occurs macros t u → (∀ y ∈ xs, P y) → form s u xs = some x → P x) :
    P x := by
  induction h with
  | reference _ hvar => exact hvars _ _ _ hvar
  | call hkind hbody _ ih =>
    exact ih fun s u xs x hu => hform s u xs x (.expanded hkind hbody hu)
  | @form s t ops xs x hops hlen h hx ih =>
    refine hform s t xs x (.here t) (fun y hy => ?_) hx
    obtain ⟨i, hi, rfl⟩ := List.getElem_of_mem hy
    have hmem : (ops[i], xs[i]) ∈ ops.zip xs := getElem_mem_zip (by omega) hi
    refine ih hmem fun s u ys y hu => hform s u ys y ?_
    exact .of_operand hops (List.of_mem_zip hmem).1 hu

end Derives

end Scalarize
