import Scalarize.Proofs.EvaluationLevels
import Scalarize.Proofs.Trees

/-!
# Scalarize — trees in the places of variables

Calling a macro puts its arguments, as they are written, in the places of the parameters. A node of
the body keeps its kind, its value and the places of its children; so it keeps its form, and its
operands are those of the body with the arguments put in.

* **`Tree.substitute_substitute`** — arguments put into arguments.
* **`operands_substitute`** — the operands after a substitution.
* **`Shaped`** — an expression as the grammar makes it: each node has what its kind promises, and
  nothing but operands and arguments can be a variable. A substitution keeps the shape.
-/

namespace Scalarize

namespace Tree

variable {σ ρ : String → Option Tree} {t : Tree}

theorem substituteAll_eq_map (σ : String → Option Tree) (ts : List Tree) :
    substituteAll σ ts = ts.map (substitute σ) := by
  induction ts with
  | nil => rfl
  | cons t ts ih => rw [substituteAll, ih, List.map_cons]

theorem substitute_leaf (k : String) (v : Option Scalar) :
    (leaf k v).substitute σ
      = if k = "variable" then (σ (valueText v)).getD (leaf k v) else leaf k v := by
  rw [substitute]
  simp only [beq_iff_eq]

theorem substitute_branch (k : String) (v : Option Scalar) (cs : List Tree) :
    (branch k v cs).substitute σ
      = if k = "variable" then (σ (valueText v)).getD (branch k v cs)
        else branch k v (cs.map (substitute σ)) := by
  rw [substitute, substituteAll_eq_map]
  simp only [beq_iff_eq]

theorem substitute_of_variable (h : t.kind = "variable") :
    t.substitute σ = (σ t.name).getD t := by
  cases t with
  | leaf k v => exact (substitute_leaf k v).trans (if_pos h)
  | branch k v cs => exact (substitute_branch k v cs).trans (if_pos h)

theorem substitute_of_not_variable (h : t.kind ≠ "variable") :
    t.substitute σ = t.substituteBelow σ := by
  cases t with
  | leaf k v => exact (substitute_leaf k v).trans (if_neg h)
  | branch k v cs =>
    rw [substitute_branch, if_neg (show k ≠ "variable" from h), ← substituteAll_eq_map]
    rfl

@[simp]
theorem kind_substituteBelow : (t.substituteBelow σ).kind = t.kind := by
  cases t <;> rfl

@[simp]
theorem value_substituteBelow : (t.substituteBelow σ).value = t.value := by
  cases t <;> rfl

@[simp]
theorem children_substituteBelow :
    (t.substituteBelow σ).children = t.children.map (substitute σ) := by
  cases t with
  | leaf k v => rfl
  | branch k v cs => exact substituteAll_eq_map σ cs

theorem substituteBelow_of_bare (h : t.children = []) : t.substituteBelow σ = t := by
  cases t with
  | leaf k v => rfl
  | branch k v cs =>
    obtain rfl : cs = [] := h
    rfl

theorem kind_substitute (h : t.kind ≠ "variable") : (t.substitute σ).kind = t.kind := by
  rw [substitute_of_not_variable h, kind_substituteBelow]

theorem value_substitute (h : t.kind ≠ "variable") : (t.substitute σ).value = t.value := by
  rw [substitute_of_not_variable h, value_substituteBelow]

theorem name_substitute (h : t.kind ≠ "variable") : (t.substitute σ).name = t.name := by
  rw [name, value_substitute h, name]

theorem children_substitute (h : t.kind ≠ "variable") :
    (t.substitute σ).children = t.children.map (substitute σ) := by
  rw [substitute_of_not_variable h, children_substituteBelow]

/-- Two substitutions that agree on the variables of a tree. -/
theorem substitute_congr (h : ∀ x ∈ t.variableNames, σ x = ρ x) :
    t.substitute σ = t.substitute ρ := by
  induction t with
  | leaf k v =>
    rw [substitute_leaf, substitute_leaf]
    split
    · next hk =>
      rw [h]
      rw [variableNames_leaf, if_pos (beq_iff_eq.mpr hk)]
      exact List.mem_singleton_self _
    · rfl
  | branch k v cs ih =>
    rw [variableNames_branch] at h
    rw [substitute_branch, substitute_branch]
    split
    · next hk =>
      rw [h]
      rw [if_pos (beq_iff_eq.mpr hk)]
      exact List.mem_append_left _ (List.mem_singleton_self _)
    · refine congrArg _ (List.map_congr_left fun c hc => ih c hc fun x hx => h x ?_)
      exact List.mem_append_right _ (List.mem_flatMap.mpr ⟨c, hc, hx⟩)

/-- Arguments put into arguments, if the first substitution leaves no variable as it is. -/
theorem substitute_substitute (h : ∀ x ∈ t.variableNames, (ρ x).isSome = true) :
    (t.substitute ρ).substitute σ = t.substitute fun x => (ρ x).map (substitute σ) := by
  induction t with
  | leaf k v =>
    rw [substitute_leaf, substitute_leaf]
    split
    · next hk =>
      obtain ⟨e, he⟩ := Option.isSome_iff_exists.mp (h (valueText v) (by
        rw [variableNames_leaf, if_pos (beq_iff_eq.mpr hk)]
        exact List.mem_singleton_self _))
      rw [he]
      rfl
    · next hk => rw [substitute_leaf, if_neg hk]
  | branch k v cs ih =>
    rw [variableNames_branch] at h
    rw [substitute_branch, substitute_branch]
    split
    · next hk =>
      obtain ⟨e, he⟩ := Option.isSome_iff_exists.mp (h (valueText v) (by
        rw [if_pos (beq_iff_eq.mpr hk)]
        exact List.mem_append_left _ (List.mem_singleton_self _)))
      rw [he]
      rfl
    · next hk =>
      rw [substitute_branch, if_neg hk, List.map_map]
      refine congrArg _ (List.map_congr_left fun c hc => ih c hc fun x hx => h x ?_)
      exact List.mem_append_right _ (List.mem_flatMap.mpr ⟨c, hc, hx⟩)

end Tree

/-! ## Operands -/

theorem pairs_map (g : Tree → Tree) (ts : List Tree) :
    pairs (ts.map g) = (pairs ts).map (Prod.map g g) := by
  fun_induction pairs ts with
  | case1 op x rest ih => rw [List.map_cons, List.map_cons, pairs, ih, List.map_cons]; rfl
  | case2 ts h =>
    rcases ts with _ | ⟨a, _ | ⟨b, rest⟩⟩
    · rfl
    · rfl
    · exact (h a b rest rfl).elim

theorem NumForm.operands_map (f : NumForm) (g : Tree → Tree) (cs : List Tree) :
    f.operands (cs.map g) = (f.operands cs).map (List.map (Prod.map id g)) := by
  cases f with
  | unaryChain =>
    show ((cs.map g).getLast?).map _ = (cs.getLast?.map _).map _
    rw [List.getLast?_map]
    cases cs.getLast? <;> rfl
  | _ =>
    rcases cs with _ | ⟨a, _ | ⟨b, _ | ⟨c, rest⟩⟩⟩ <;> simp [NumForm.operands, pairs_map, pairs]

theorem VecForm.operands_map (f : VecForm) (g : Tree → Tree) (cs : List Tree) :
    f.operands (cs.map g) = (f.operands cs).map (List.map (Prod.map id g)) := by
  cases f <;> rcases cs with _ | ⟨a, _ | ⟨b, _ | ⟨c, rest⟩⟩⟩ <;>
    simp [VecForm.operands, pairs_map, pairs]

theorem MatForm.operands_map (f : MatForm) (g : Tree → Tree) (cs : List Tree) :
    f.operands (cs.map g) = (f.operands cs).map (List.map (Prod.map id g)) := by
  cases f <;> rcases cs with _ | ⟨a, _ | ⟨b, _ | ⟨c, rest⟩⟩⟩ <;>
    simp [MatForm.operands, pairs_map, pairs]

/-- The operands after a substitution. -/
theorem operands_substitute {σ : String → Option Tree} {t : Tree} (s : ValueSort)
    (h : t.kind ≠ "variable") :
    operands s (t.substitute σ) =
      (operands s t).map (List.map (Prod.map id (Tree.substitute σ))) := by
  cases s <;> simp only [operands, Tree.kind_substitute h, Tree.children_substitute h]
  · cases NumForm.ofKind? t.kind with
    | none => rfl
    | some f => exact f.operands_map _ _
  · cases VecForm.ofKind? t.kind with
    | none => rfl
    | some f => exact f.operands_map _ _
  · cases MatForm.ofKind? t.kind with
    | none => rfl
    | some f => exact f.operands_map _ _

theorem not_variable_of_operands {s : ValueSort} {t : Tree} {ops : List (ValueSort × Tree)}
    (h : operands s t = some ops) : t.kind ≠ "variable" := by
  intro hkind
  rw [operands_variable hkind] at h
  cases h

theorem operands_substitute_eq_some {σ : String → Option Tree} {s : ValueSort} {t : Tree}
    {ops : List (ValueSort × Tree)} (h : operands s t = some ops) :
    operands s (t.substitute σ) = some (ops.map (Prod.map id (Tree.substitute σ))) := by
  rw [operands_substitute s (not_variable_of_operands h), h]
  rfl

/-! ## Sorts of kinds -/

/-- The kinds of the nodes that are expressions of a sort. -/
def ValueSort.kinds : ValueSort → List String
  | number => NumForm.table.map Prod.fst
  | vector => VecForm.table.map Prod.fst
  | matrix => MatForm.table.map Prod.fst

theorem ValueSort.mem_kinds {s : ValueSort} {k : String} (h : s.admits k = true) : k ∈ s.kinds := by
  cases s <;>
  · obtain ⟨f, hf⟩ := Option.isSome_iff_exists.mp h
    exact List.mem_map_of_mem (mem_of_lookup hf)

/-- A kind other than that of variables and macro calls belongs to one sort. -/
theorem ValueSort.eq_of_mem_kinds (s s' : ValueSort) : ∀ k ∈ s.kinds, k ∈ s'.kinds →
    k ≠ "variable" → k ≠ "call" → s = s' := by
  cases s <;> cases s' <;> decide

theorem admits_of_operands {s : ValueSort} {t : Tree} {ops : List (ValueSort × Tree)}
    (h : operands s t = some ops) : s.admits t.kind = true := by
  cases s <;>
  · obtain ⟨f, hf, -⟩ := Option.bind_eq_some_iff.mp h
    exact Option.isSome_iff_exists.mpr ⟨f, hf⟩

/-- A node has operands of one sort only. -/
theorem operands_unique {s s' : ValueSort} {t : Tree} {ops ops' : List (ValueSort × Tree)}
    (h : operands s t = some ops) (h' : operands s' t = some ops') : s = s' ∧ ops = ops' := by
  have hcall : t.kind ≠ "call" := fun hkind => by rw [operands_call hkind] at h; cases h
  obtain rfl := ValueSort.eq_of_mem_kinds s s' t.kind (ValueSort.mem_kinds (admits_of_operands h))
    (ValueSort.mem_kinds (admits_of_operands h')) (not_variable_of_operands h) hcall
  exact ⟨rfl, Option.some.inj (h.symm.trans h')⟩

/-! ## Shapes -/

/-- The children of a number expression that are no operands: operators and indices. -/
def NumForm.signs (f : NumForm) (children : List Tree) : List Tree :=
  match f, children with
  | .chain, _ :: rest => (pairs rest).map Prod.fst
  | .unaryChain, cs => cs.dropLast
  | .reduce, op :: _ => [op]
  | .vecElem, _ :: i :: _ => [i]
  | .matElem, _ :: i :: j :: _ => [i, j]
  | _, _ => []

/-- The children of a vector expression that are no operands. -/
def VecForm.signs (f : VecForm) (children : List Tree) : List Tree :=
  match f, children with
  | .chain, _ :: rest => (pairs rest).map Prod.fst
  | .map, op :: _ => [op]
  | .premap, op :: _ => [op]
  | .postmap, _ :: op :: _ => [op]
  | .apply, op :: _ => [op]
  | .row, _ :: i :: _ => [i]
  | .col, _ :: i :: _ => [i]
  | _, _ => []

/-- The children of a matrix expression that are no operands. -/
def MatForm.signs (f : MatForm) (children : List Tree) : List Tree :=
  match f, children with
  | .chain, _ :: rest => (pairs rest).map Prod.fst
  | .map, op :: _ => [op]
  | .premap, op :: _ => [op]
  | .postmap, _ :: op :: _ => [op]
  | .apply, op :: _ => [op]
  | _, _ => []

/-- The children of an expression of the given sort that are no operands. -/
def signs (s : ValueSort) (t : Tree) : List Tree :=
  match s with
  | .number => (NumForm.ofKind? t.kind).elim [] (·.signs t.children)
  | .vector => (VecForm.ofKind? t.kind).elim [] (·.signs t.children)
  | .matrix => (MatForm.ofKind? t.kind).elim [] (·.signs t.children)

theorem NumForm.signs_map (f : NumForm) (g : Tree → Tree) (cs : List Tree) :
    f.signs (cs.map g) = (f.signs cs).map g := by
  cases f with
  | unaryChain => exact List.map_dropLast.symm
  | _ =>
    rcases cs with _ | ⟨a, _ | ⟨b, _ | ⟨c, rest⟩⟩⟩ <;> simp [NumForm.signs, pairs_map, pairs]

theorem VecForm.signs_map (f : VecForm) (g : Tree → Tree) (cs : List Tree) :
    f.signs (cs.map g) = (f.signs cs).map g := by
  cases f <;> rcases cs with _ | ⟨a, _ | ⟨b, _ | ⟨c, rest⟩⟩⟩ <;>
    simp [VecForm.signs, pairs_map, pairs]

theorem MatForm.signs_map (f : MatForm) (g : Tree → Tree) (cs : List Tree) :
    f.signs (cs.map g) = (f.signs cs).map g := by
  cases f <;> rcases cs with _ | ⟨a, _ | ⟨b, _ | ⟨c, rest⟩⟩⟩ <;>
    simp [MatForm.signs, pairs_map, pairs]

theorem signs_substitute {σ : String → Option Tree} {t : Tree} (s : ValueSort)
    (h : t.kind ≠ "variable") :
    signs s (t.substitute σ) = (signs s t).map (Tree.substitute σ) := by
  cases s <;> simp only [signs, Tree.kind_substitute h, Tree.children_substitute h]
  · cases NumForm.ofKind? t.kind with
    | none => rfl
    | some f => exact f.signs_map _ _
  · cases VecForm.ofKind? t.kind with
    | none => rfl
    | some f => exact f.signs_map _ _
  · cases MatForm.ofKind? t.kind with
    | none => rfl
    | some f => exact f.signs_map _ _

/-- An expression as the grammar makes it. -/
inductive Shaped : Tree → Prop where
  | reference {t} (hkind : t.kind = "variable") (hbare : t.children = []) : Shaped t
  | call {t callee args rest} (hkind : t.kind = "call")
      (hchildren : t.children = callee :: args :: rest) (hcallee : callee.kind ≠ "variable")
      (hargs : args.kind ≠ "variable") (h : ∀ a ∈ args.children, Shaped a) : Shaped t
  | form {s t ops} (hops : operands s t = some ops)
      (hsigns : ∀ c ∈ signs s t, c.kind ≠ "variable")
      (hliteral : t.kind = "number" → (literalOf t.value).toOption.isSome = true)
      (hfull : t.kind = "vector" ∨ t.kind = "matrix" → t.children ≠ [])
      (h : ∀ p ∈ ops, Shaped p.2) : Shaped t

namespace Shaped

variable {σ : String → Option Tree} {t : Tree} {s : ValueSort}

theorem bare (h : Shaped t) (hkind : t.kind = "variable") : t.children = [] := by
  cases h with
  | reference _ hbare => exact hbare
  | call hkind' => rw [hkind] at hkind'; exact absurd hkind' (by decide)
  | form hops => rw [operands_variable hkind] at hops; cases hops

theorem of_operand {ops : List (ValueSort × Tree)} {p : ValueSort × Tree} (h : Shaped t)
    (hops : operands s t = some ops) (hp : p ∈ ops) : Shaped p.2 := by
  cases h with
  | reference hkind => rw [operands_variable hkind] at hops; cases hops
  | call hkind => rw [operands_call hkind] at hops; cases hops
  | form hops' _ _ _ h =>
    obtain ⟨-, rfl⟩ := operands_unique hops hops'
    exact h p hp

/-- No node of an expression that the grammar makes is malformed. -/
theorem not_malformed (h : Shaped t) : ¬ Malformed s t := by
  intro hm
  cases h with
  | reference hkind =>
    cases hm with
    | parts _ hvar => exact hvar hkind
    | call hkind' => rw [hkind] at hkind'; exact absurd hkind' (by decide)
    | literal hkind' => rw [hkind] at hkind'; exact absurd hkind' (by decide)
    | empty hkind' => rw [hkind] at hkind'; exact absurd hkind' (by decide)
  | call hkind hchildren =>
    cases hm with
    | parts _ _ hcall => exact hcall hkind
    | call _ hshort => rw [hchildren] at hshort; simp at hshort
    | literal hkind' => rw [hkind] at hkind'; exact absurd hkind' (by decide)
    | empty hkind' => rw [hkind] at hkind'; exact absurd hkind' (by decide)
  | form hops _ hliteral hfull =>
    cases hm with
    | parts hform hvar hcall hnone =>
      obtain rfl := ValueSort.eq_of_mem_kinds _ _ t.kind
        (ValueSort.mem_kinds (admits_of_operands hops)) (ValueSort.mem_kinds hform) hvar hcall
      rw [hnone] at hops
      cases hops
    | call hkind => rw [operands_call hkind] at hops; cases hops
    | literal hkind hvalue =>
      have hsome := hliteral hkind
      rw [hvalue] at hsome
      cases hsome
    | empty hkind hnone => exact hfull hkind hnone

/-- Shaped expressions in the places of variables keep the shape. -/
theorem substitute (h : Shaped t) (hσ : ∀ x e, σ x = some e → Shaped e) :
    Shaped (t.substitute σ) := by
  induction h with
  | @reference t hkind hbare =>
    rw [Tree.substitute_of_variable hkind]
    cases hx : σ t.name with
    | none => exact .reference hkind hbare
    | some e => exact hσ _ _ hx
  | @call t callee args rest hkind hchildren hcallee hargs _ ih =>
    have hvar : t.kind ≠ "variable" := by rw [hkind]; decide
    have hchildren' : (t.substitute σ).children =
        callee.substitute σ :: args.substitute σ :: rest.map (Tree.substitute σ) := by
      rw [Tree.children_substitute hvar, hchildren]
      rfl
    refine .call ((Tree.kind_substitute hvar).trans hkind) hchildren' ?_ ?_ ?_
    · rwa [Tree.kind_substitute hcallee]
    · rwa [Tree.kind_substitute hargs]
    · rw [Tree.children_substitute hargs]
      intro a ha
      obtain ⟨b, hb, rfl⟩ := List.mem_map.mp ha
      exact ih b hb
  | @form s t ops hops hsigns hliteral hfull _ ih =>
    have hvar := not_variable_of_operands hops
    refine .form (operands_substitute_eq_some hops) ?_ ?_ ?_ ?_
    · rw [signs_substitute s hvar]
      intro c hc
      obtain ⟨b, hb, rfl⟩ := List.mem_map.mp hc
      rw [Tree.kind_substitute (hsigns b hb)]
      exact hsigns b hb
    · rwa [Tree.kind_substitute hvar, Tree.value_substitute hvar]
    · rw [Tree.kind_substitute hvar, Tree.children_substitute hvar]
      intro hkind hnil
      exact hfull hkind (List.map_eq_nil_iff.mp hnil)
    · intro p hp
      obtain ⟨q, hq, rfl⟩ := List.mem_map.mp hp
      exact ih q hq

end Shaped

/-! ## Macro calls -/

theorem Tree.calledName_of_children {t callee : Tree} {rest : List Tree}
    (h : t.children = callee :: rest) : t.calledName = callee.name := by
  rw [Tree.calledName, h]

/-- What a definition of the source makes: the body has the shape of an expression and no variables
but the parameters, and no argument is checked. -/
structure MacroDef.Regular (m : MacroDef) : Prop where
  shaped : Shaped m.body
  closed : ∀ x ∈ m.body.variableNames, x ∈ m.paramNames
  unsorted : ∀ p ∈ m.params, p.sort = none

theorem MacroDef.checkArgs_unsorted {ps : List Param} (h : ∀ p ∈ ps, p.sort = none)
    (args : List Tree) : MacroDef.checkArgs ps args = .ok () := by
  induction ps generalizing args with
  | nil => rfl
  | cons p ps ih =>
    cases args with
    | nil => rfl
    | cons a args =>
      have hp : MacroDef.checkArg p a = .ok () := by
        rw [MacroDef.checkArg, h p List.mem_cons_self]
        rfl
      rw [MacroDef.checkArgs, hp]
      exact ih (fun p hp => h p (List.mem_cons_of_mem _ hp)) args

theorem lookup_zip_map {β γ : Type} (g : β → γ) (ks : List String) (bs : List β) (k : String) :
    (ks.zip (bs.map g)).lookup k = ((ks.zip bs).lookup k).map g := by
  induction ks generalizing bs with
  | nil => rfl
  | cons k' ks ih =>
    cases bs with
    | nil => rfl
    | cons b bs =>
      simp only [List.map_cons, List.zip_cons_cons, List.lookup_cons]
      split
      · rfl
      · exact ih bs

theorem isSome_lookup_zip {β : Type} {ks : List String} {bs : List β} (h : bs.length = ks.length)
    {k : String} (hk : k ∈ ks) : ((ks.zip bs).lookup k).isSome = true := by
  induction ks generalizing bs with
  | nil => cases hk
  | cons k' ks ih =>
    cases bs with
    | nil => cases h
    | cons b bs =>
      rw [List.zip_cons_cons, List.lookup_cons]
      split
      · rfl
      · next hne =>
        rcases List.mem_cons.mp hk with rfl | hk
        · simp at hne
        · exact ih (Nat.succ.inj h) hk

theorem MacroDef.mem_of_binding {m : MacroDef} {args : List Tree} {x : String} {a : Tree}
    (h : m.binding args x = some a) : a ∈ args :=
  (List.of_mem_zip (mem_of_lookup h)).2

namespace MacroDef.Regular

variable {m : MacroDef} {args : List Tree} {body : Tree} {σ : String → Option Tree}

/-- A call succeeds if there are as many arguments as parameters. -/
theorem call_eq_some (hm : m.Regular) : (m.call args).toOption = some body ↔
    args.length = m.arity ∧ body = m.body.substituteBelow (m.binding args) := by
  unfold MacroDef.call
  split
  · next hne =>
    refine ⟨fun h => ?_, fun h => (hne h.1).elim⟩
    cases h
  · next heq =>
    rw [MacroDef.checkArgs_unsorted hm.unsorted]
    exact ⟨fun h => ⟨not_not.mp heq, (Option.some.inj h).symm⟩, fun h => congrArg some h.2.symm⟩

theorem isSome_binding (hm : m.Regular) (hlen : args.length = m.arity) {x : String}
    (hx : x ∈ m.body.variableNames) : (m.binding args x).isSome = true := by
  refine isSome_lookup_zip ?_ (hm.closed x hx)
  rw [hlen, MacroDef.arity, MacroDef.paramNames, List.length_map]

/-- Arguments put into the arguments of a call. -/
theorem call_map_substitute (hm : m.Regular) :
    (m.call (args.map (Tree.substitute σ))).toOption =
      (m.call args).toOption.map (Tree.substituteBelow σ) := by
  cases hc : (m.call args).toOption with
  | none =>
    cases hc' : (m.call (args.map (Tree.substitute σ))).toOption with
    | none => rfl
    | some body' =>
      obtain ⟨hlen, -⟩ := hm.call_eq_some.mp hc'
      rw [List.length_map] at hlen
      rw [hm.call_eq_some.mpr ⟨hlen, rfl⟩] at hc
      cases hc
  | some body =>
    obtain ⟨hlen, rfl⟩ := hm.call_eq_some.mp hc
    refine hm.call_eq_some.mpr ⟨by rw [List.length_map, hlen], ?_⟩
    by_cases hkind : m.body.kind = "variable"
    · have hbare := hm.shaped.bare hkind
      simp only [Tree.substituteBelow_of_bare hbare]
    · have hkind' : (m.body.substituteBelow (m.binding args)).kind ≠ "variable" := by
        rwa [Tree.kind_substituteBelow]
      rw [← Tree.substitute_of_not_variable hkind', ← Tree.substitute_of_not_variable hkind,
        ← Tree.substitute_of_not_variable hkind,
        Tree.substitute_substitute fun x hx => hm.isSome_binding hlen hx]
      exact Tree.substitute_congr fun x _ => (lookup_zip_map _ _ _ _).symm

end MacroDef.Regular

section

variable {macros : Macros} {σ : String → Option Tree} {t body : Tree}

/-- The macro that a call names, and its arguments. -/
theorem expansion_eq_some (h : expansion? macros t = some body) :
    ∃ callee args rest m, t.children = callee :: args :: rest ∧
      macros.lookup callee.name = some m ∧ (m.call args.children).toOption = some body := by
  unfold expansion? at h
  split at h
  · next callee args rest hc =>
    obtain ⟨m, hm, h⟩ := Option.bind_eq_some_iff.mp h
    exact ⟨callee, args, rest, m, hc, hm, h⟩
  · cases h

/-- A call names a macro and has arguments, and a substitution reaches the arguments only. -/
theorem Shaped.parts_of_call (ht : Shaped t) (hkind : t.kind = "call") :
    ∃ callee args rest, t.children = callee :: args :: rest ∧ (∀ a ∈ args.children, Shaped a) ∧
      ∀ σ, ∃ callee' args' rest', (t.substitute σ).children = callee' :: args' :: rest' ∧
        callee'.name = callee.name ∧ args'.children = args.children.map (Tree.substitute σ) := by
  cases ht with
  | reference hkind' => rw [hkind] at hkind'; exact absurd hkind' (by decide)
  | form hops => rw [operands_call hkind] at hops; cases hops
  | @call _ callee args rest _ hchildren hcallee hargs hshaped =>
    refine ⟨callee, args, rest, hchildren, hshaped, fun σ => ?_⟩
    refine ⟨callee.substitute σ, args.substitute σ, rest.map (Tree.substitute σ), ?_,
      Tree.name_substitute hcallee, Tree.children_substitute hargs⟩
    rw [Tree.children_substitute (by rw [hkind]; decide), hchildren]
    rfl

variable (hmacros : ∀ p ∈ macros, p.2.Regular)

include hmacros

theorem sortedExpansion_substitute (s : ValueSort) (ht : Shaped t) (hkind : t.kind = "call") :
    sortedExpansion? macros s (t.substitute σ) =
      (sortedExpansion? macros s t).map (Tree.substituteBelow σ) := by
  obtain ⟨callee, args, rest, hchildren, -, hparts⟩ := ht.parts_of_call hkind
  obtain ⟨callee', args', rest', hchildren', hname, hargs⟩ := hparts σ
  unfold sortedExpansion?
  rw [hchildren, hchildren']
  dsimp only
  rw [hname, hargs]
  cases hl : macros.lookup callee.name with
  | none => rfl
  | some m =>
    simp only [Option.bind_some]
    split
    · exact (hmacros _ (mem_of_lookup hl)).call_map_substitute
    · rfl

theorem expansion_substitute (ht : Shaped t) (hkind : t.kind = "call") :
    expansion? macros (t.substitute σ) = (expansion? macros t).map (Tree.substituteBelow σ) := by
  obtain ⟨callee, args, rest, hchildren, -, hparts⟩ := ht.parts_of_call hkind
  obtain ⟨callee', args', rest', hchildren', hname, hargs⟩ := hparts σ
  unfold expansion?
  rw [hchildren, hchildren']
  dsimp only
  rw [hname, hargs]
  cases hl : macros.lookup callee.name with
  | none => rfl
  | some m => exact (hmacros _ (mem_of_lookup hl)).call_map_substitute

/-- The expression that a call stands for has the shape of one. -/
theorem Shaped.expansion (ht : Shaped t) (hkind : t.kind = "call")
    (h : expansion? macros t = some body) : Shaped body := by
  obtain ⟨callee, args, rest, m, hchildren, hm, hcall⟩ := expansion_eq_some h
  have hregular := hmacros _ (mem_of_lookup hm)
  obtain ⟨-, rfl⟩ := hregular.call_eq_some.mp hcall
  have hargs : ∀ a ∈ args.children, Shaped a := by
    obtain ⟨_, _, _, hchildren', hshaped, -⟩ := ht.parts_of_call hkind
    rw [hchildren] at hchildren'
    cases hchildren'
    exact hshaped
  by_cases hbody : m.body.kind = "variable"
  · rw [Tree.substituteBelow_of_bare (hregular.shaped.bare hbody)]
    exact hregular.shaped
  · rw [← Tree.substitute_of_not_variable hbody]
    exact hregular.shaped.substitute fun x e he => hargs e (MacroDef.mem_of_binding he)

end

end Scalarize
