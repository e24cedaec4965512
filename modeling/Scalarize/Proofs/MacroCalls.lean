import Scalarize.Proofs.SourceMacros
import Scalarize.Proofs.Unfolding

/-!
# Scalarize — what a macro call means

A macro call is expanded as text: the arguments are put in the places of the parameters, and the
body is evaluated in the environment of the call. This is the same as evaluating the body with the
parameters bound to the values of the arguments, at whatever depth a parameter is handed on to other
macros. The exception is a body that is nothing but a parameter; it is left as it is.

* **`build_substitute`** — what a form makes of the values of its operands does not depend on them.
* **`Rebinds`** — an environment in which variables have the values of the trees that a substitution
  puts in their places.
* **`Rebinds.yields_substitute`** — the substitution lemma: an expression after the substitution has
  the values of the expression in such an environment.
* **`evaluate_call_iff`** — the meaning of a macro call.
-/

namespace Scalarize

open Traced Grammar

/-! ## One sort for each expression -/

theorem ValueSort.word_injective : Function.Injective ValueSort.word := by
  intro s s'
  cases s <;> cases s' <;> decide

theorem returns_of_sortedExpansion {macros : Macros} {s : ValueSort} {t body : Tree}
    (h : sortedExpansion? macros s t = some body) :
    ∃ callee args rest m, t.children = callee :: args :: rest ∧
      macros.lookup callee.name = some m ∧ m.returns = s.word := by
  unfold sortedExpansion? at h
  split at h
  · next callee args rest hc =>
    obtain ⟨m, hm, h⟩ := Option.bind_eq_some_iff.mp h
    split at h
    · next hs => exact ⟨callee, args, rest, m, hc, hm, hs⟩
    · cases h
  · cases h

theorem binding_of_valueOf {env : Env} {s : ValueSort} {x : String} {v : Value}
    (h : env.valueOf s x = some v) : ∃ b, env.binding? x = some b ∧ b.value = v ∧ v.sort = s := by
  obtain ⟨b, hb, h⟩ := Option.bind_eq_some_iff.mp h
  split at h
  · next hs =>
    obtain rfl := Option.some.inj h
    exact ⟨b, hb, rfl, hs⟩
  · cases h

/-- No expression has values of two sorts. -/
theorem Yields.sort_unique {env : Env} {s s' : ValueSort} {t : Tree} {v w : Value}
    (h : Yields env s t v) (h' : Yields env s' t w) : s = s' := by
  cases h with
  | reference hkind hvar =>
    cases h' with
    | reference _ hvar' =>
      obtain ⟨b, hb, rfl, hs⟩ := binding_of_valueOf hvar
      obtain ⟨b', hb', rfl, hs'⟩ := binding_of_valueOf hvar'
      cases hb.symm.trans hb'
      exact hs.symm.trans hs'
    | call hkind' => rw [hkind] at hkind'; exact absurd hkind' (by decide)
    | form hops => rw [operands_variable hkind] at hops; cases hops
  | call hkind hbody =>
    cases h' with
    | reference hkind' => rw [hkind] at hkind'; exact absurd hkind' (by decide)
    | call _ hbody' =>
      obtain ⟨callee, args, rest, m, hchildren, hm, hs⟩ := returns_of_sortedExpansion hbody
      obtain ⟨callee', args', rest', m', hchildren', hm', hs'⟩ :=
        returns_of_sortedExpansion hbody'
      cases hchildren.symm.trans hchildren'
      obtain rfl := Option.some.inj (hm.symm.trans hm')
      exact ValueSort.word_injective (hs.symm.trans hs')
    | form hops => rw [operands_call hkind] at hops; cases hops
  | form hops =>
    cases h' with
    | reference hkind => rw [operands_variable hkind] at hops; cases hops
    | call hkind => rw [operands_call hkind] at hops; cases hops
    | form hops' => exact (operands_unique hops hops').1

/-! ## Forms after a substitution -/

/-- The operators of a chain, next to the values of its operands. -/
theorem map_kind_zip_pairs {β : Type} {g : Tree → Tree} {ts : List Tree} (ys : List β)
    (h : ∀ c ∈ (pairs ts).map Prod.fst, (g c).kind = c.kind) :
    ((pairs (ts.map g)).zip ys).map (fun p => (p.1.1.kind, p.2)) =
      ((pairs ts).zip ys).map fun p => (p.1.1.kind, p.2) := by
  rw [pairs_map, List.zip_map_left, List.map_map]
  refine List.map_congr_left fun p hp => ?_
  have hp' := (List.of_mem_zip hp).1
  simp [h p.1.1 (List.mem_map_of_mem hp')]

section

variable {env env' : Env} {g : Tree → Tree} {t u : Tree}
  (hchildren : u.children = t.children.map g)

include hchildren

/-- Only the operators and indices among the children matter. -/
theorem NumForm.build_congr (f : NumForm) (hvalue : u.value = t.value)
    (htarget : ∀ x, env'.target x = env.target x)
    (hsigns : ∀ c ∈ f.signs t.children, (g c).kind = c.kind ∧ (g c).value = c.value)
    (vs : List Value) : f.build env u vs = f.build env' t vs := by
  have hname : u.name = t.name := by rw [Tree.name, hvalue, Tree.name]
  unfold NumForm.build
  simp only [hchildren, hname, hvalue, htarget]
  generalize t.children = cs at hsigns
  -- the values decide which forms make something of them
  cases f with
  | chain =>
    cases cs with
    | nil => rfl
    | cons a rest =>
      rcases vs with _ | ⟨x | _ | _, vs⟩
      case cons.number =>
        refine congrArg (Option.map · _) (funext fun ys => ?_)
        have hzip := map_kind_zip_pairs ys fun c hc => (hsigns c hc).1
        have hfold := congrArg (List.foldl (fun x p => Num.binary p.1 x p.2) x) hzip
        simpa only [List.foldl_map] using hfold
      all_goals rfl
  | unaryChain =>
    rcases vs with _ | ⟨x | _ | _, _ | ⟨w, vs⟩⟩
    case cons.number.nil =>
      refine congrArg some ?_
      rw [← List.map_dropLast, List.foldr_map]
      exact List.foldr_ext _ _ _ fun c hc y => by rw [(hsigns c hc).1]
    all_goals rfl
  | reduce =>
    cases cs with
    | nil => rfl
    | cons op rest =>
      obtain ⟨hk, -⟩ := hsigns op (List.mem_singleton_self _)
      rcases vs with _ | ⟨_ | _ | _, _ | ⟨_, _⟩⟩ <;> simp only [List.map_cons, hk]
  | vecElem =>
    rcases cs with _ | ⟨a, _ | ⟨i, rest⟩⟩
    · rfl
    · rfl
    · obtain ⟨-, hi⟩ := hsigns i (List.mem_singleton_self _)
      rcases vs with _ | ⟨_ | _ | _, _ | ⟨_, _⟩⟩ <;> simp only [List.map_cons, hi]
  | matElem =>
    rcases cs with _ | ⟨a, _ | ⟨i, _ | ⟨j, rest⟩⟩⟩
    · rfl
    · rfl
    · rfl
    · obtain ⟨-, hi⟩ := hsigns i List.mem_cons_self
      obtain ⟨-, hj⟩ := hsigns j (List.mem_cons_of_mem _ (List.mem_singleton_self _))
      rcases vs with _ | ⟨_ | _ | _, _ | ⟨_, _⟩⟩ <;> simp only [List.map_cons, hi, hj]
  | _ => rcases vs with _ | ⟨_ | _ | _, _ | ⟨_ | _ | _, _ | ⟨_, _⟩⟩⟩ <;> rfl

theorem VecForm.build_congr (f : VecForm)
    (hsigns : ∀ c ∈ f.signs t.children, (g c).kind = c.kind ∧ (g c).value = c.value)
    (vs : List Value) : f.build u vs = f.build t vs := by
  unfold VecForm.build
  rw [hchildren]
  generalize t.children = cs at hsigns
  cases f with
  | chain =>
    cases cs with
    | nil => rfl
    | cons a rest =>
      rcases vs with _ | ⟨_ | v | _, vs⟩
      case cons.vector =>
        refine congrArg (Option.bind _) (funext fun ws => congrArg Except.toOption ?_)
        have hzip := map_kind_zip_pairs ws fun c hc => (hsigns c hc).1
        have hfold := congrArg (List.foldlM (fun v p => Vec.chainStep p.1 v p.2) v) hzip
        simpa only [List.foldlM_map] using hfold
      all_goals rfl
  | map | premap | apply =>
    cases cs with
    | nil => rfl
    | cons op rest =>
      obtain ⟨hk, -⟩ := hsigns op (List.mem_singleton_self _)
      rcases vs with _ | ⟨_ | _ | _, _ | ⟨_ | _ | _, _ | ⟨_, _⟩⟩⟩ <;> simp only [List.map_cons, hk]
  | postmap =>
    rcases cs with _ | ⟨a, _ | ⟨op, rest⟩⟩
    · rfl
    · rfl
    · obtain ⟨hk, -⟩ := hsigns op (List.mem_singleton_self _)
      rcases vs with _ | ⟨_ | _ | _, _ | ⟨_ | _ | _, _ | ⟨_, _⟩⟩⟩ <;> simp only [List.map_cons, hk]
  | row | col =>
    rcases cs with _ | ⟨a, _ | ⟨i, rest⟩⟩
    · rfl
    · rfl
    · obtain ⟨-, hi⟩ := hsigns i (List.mem_singleton_self _)
      rcases vs with _ | ⟨_ | _ | _, _ | ⟨_, _⟩⟩ <;> simp only [List.map_cons, hi]
  | _ => rcases vs with _ | ⟨_ | _ | _, _ | ⟨_, _⟩⟩ <;> rfl

theorem MatForm.build_congr (f : MatForm)
    (hsigns : ∀ c ∈ f.signs t.children, (g c).kind = c.kind ∧ (g c).value = c.value)
    (vs : List Value) : f.build u vs = f.build t vs := by
  unfold MatForm.build
  rw [hchildren]
  generalize t.children = cs at hsigns
  cases f with
  | chain =>
    cases cs with
    | nil => rfl
    | cons a rest =>
      rcases vs with _ | ⟨_ | _ | m, vs⟩
      case cons.matrix =>
        refine congrArg (Option.bind _) (funext fun ns => congrArg Except.toOption ?_)
        have hzip := map_kind_zip_pairs ns fun c hc => (hsigns c hc).1
        have hfold := congrArg (List.foldlM (fun m p => Mat.chainStep p.1 m p.2) m) hzip
        simpa only [List.foldlM_map] using hfold
      all_goals rfl
  | map | premap | apply =>
    cases cs with
    | nil => rfl
    | cons op rest =>
      obtain ⟨hk, -⟩ := hsigns op (List.mem_singleton_self _)
      rcases vs with _ | ⟨_ | _ | _, _ | ⟨_ | _ | _, _ | ⟨_, _⟩⟩⟩ <;> simp only [List.map_cons, hk]
  | postmap =>
    rcases cs with _ | ⟨a, _ | ⟨op, rest⟩⟩
    · rfl
    · rfl
    · obtain ⟨hk, -⟩ := hsigns op (List.mem_singleton_self _)
      rcases vs with _ | ⟨_ | _ | _, _ | ⟨_ | _ | _, _ | ⟨_, _⟩⟩⟩ <;> simp only [List.map_cons, hk]
  | _ => rcases vs with _ | ⟨_ | _ | _, _ | ⟨_ | _ | _, _ | ⟨_, _⟩⟩⟩ <;> rfl

end

/-- A form makes the same of the values of its operands when arguments are put into them. -/
theorem build_substitute {env env' : Env} {σ : String → Option Tree} {s : ValueSort} {t : Tree}
    (htarget : ∀ x, env'.target x = env.target x) (hkind : t.kind ≠ "variable")
    (hsigns : ∀ c ∈ signs s t, c.kind ≠ "variable") (vs : List Value) :
    build env s (t.substitute σ) vs = build env' s t vs := by
  have hsame : ∀ c ∈ signs s t,
      (c.substitute σ).kind = c.kind ∧ (c.substitute σ).value = c.value := fun c hc =>
    ⟨Tree.kind_substitute (hsigns c hc), Tree.value_substitute (hsigns c hc)⟩
  have hchildren := Tree.children_substitute (σ := σ) hkind
  unfold build
  rw [Tree.kind_substitute hkind]
  cases s with
  | number =>
    cases hf : NumForm.ofKind? t.kind with
    | none => rfl
    | some f =>
      rw [signs, hf] at hsame
      dsimp only [Option.bind_some]
      rw [f.build_congr hchildren (Tree.value_substitute hkind) htarget hsame]
  | vector =>
    cases hf : VecForm.ofKind? t.kind with
    | none => rfl
    | some f =>
      rw [signs, hf] at hsame
      dsimp only [Option.bind_some]
      rw [f.build_congr hchildren hsame]
  | matrix =>
    cases hf : MatForm.ofKind? t.kind with
    | none => rfl
    | some f =>
      rw [signs, hf] at hsame
      dsimp only [Option.bind_some]
      rw [f.build_congr hchildren hsame]

/-! ## The substitution lemma -/

/-- The second environment has, for each variable that the substitution replaces, the value of the
tree in its place; for all else it is the first. -/
structure Rebinds (env env' : Env) (σ : String → Option Tree) : Prop where
  macros_eq : env'.macros = env.macros
  target_eq : ∀ x, env'.target x = env.target x
  kept : ∀ x, σ x = none → ∀ s, env'.valueOf s x = env.valueOf s x
  bound : ∀ x a, σ x = some a → ∃ s v, Yields env s a v ∧ ∀ s', env'.valueOf s' x =
    if s = s' then some v else none

theorem Yields.variable_iff {env : Env} {s : ValueSort} {t : Tree} {v : Value}
    (hkind : t.kind = "variable") : Yields env s t v ↔ env.valueOf s t.name = some v := by
  refine ⟨fun h => ?_, .reference hkind⟩
  cases h with
  | reference _ hvar => exact hvar
  | call hkind' => rw [hkind] at hkind'; exact absurd hkind' (by decide)
  | form hops => rw [operands_variable hkind] at hops; cases hops

theorem Yields.call_iff {env : Env} {s : ValueSort} {t body : Tree} {v : Value}
    (hkind : t.kind = "call") (hbody : sortedExpansion? env.macros s t = some body) :
    Yields env s t v ↔ Yields env s body v :=
  ⟨.of_body hkind hbody, .call hkind hbody⟩

/-- The children of an expression that are no operands are no variables. -/
theorem Shaped.not_variable_of_sign {s : ValueSort} {t : Tree} {ops : List (ValueSort × Tree)} (h : Shaped t)
    (hops : operands s t = some ops) : ∀ c ∈ signs s t, c.kind ≠ "variable" := by
  cases h with
  | reference hkind => rw [operands_variable hkind] at hops; cases hops
  | call hkind => rw [operands_call hkind] at hops; cases hops
  | form hops' hsigns =>
    obtain ⟨rfl, -⟩ := operands_unique hops hops'
    exact hsigns

theorem kind_of_expansion {macros : Macros} (hmacros : ∀ d ∈ macros, d.2.Regular)
    (hbare : ∀ d ∈ macros, d.2.body.kind ≠ "variable") {t body : Tree}
    (h : expansion? macros t = some body) : body.kind ≠ "variable" := by
  obtain ⟨callee, args, rest, m, -, hm, hcall⟩ := expansion_eq_some h
  obtain ⟨-, rfl⟩ := (hmacros _ (mem_of_lookup hm)).call_eq_some.mp hcall
  rw [Tree.kind_substituteBelow]
  exact hbare _ (mem_of_lookup hm)

namespace Rebinds

variable {env env' : Env} {σ : String → Option Tree} {s : ValueSort} {t : Tree} {v : Value}

theorem yields_variable (h : Rebinds env env' σ) (hkind : t.kind = "variable") :
    Yields env s (t.substitute σ) v ↔ Yields env' s t v := by
  rw [Tree.substitute_of_variable hkind, Yields.variable_iff hkind]
  cases hx : σ t.name with
  | none => rw [Option.getD_none, h.kept _ hx, Yields.variable_iff hkind]
  | some a =>
    obtain ⟨s₀, v₀, hv₀, hvalue⟩ := h.bound _ _ hx
    rw [Option.getD_some, hvalue]
    constructor
    · intro hv
      obtain rfl := hv₀.sort_unique hv
      rw [if_pos rfl, hv₀.unique hv]
    · intro hv
      split at hv
      · next hs =>
        rw [← hs, ← Option.some.inj hv]
        exact hv₀
      · cases hv

variable (h : Rebinds env env' σ) (hmacros : ∀ d ∈ env.macros, d.2.Regular)
  (hbare : ∀ d ∈ env.macros, d.2.body.kind ≠ "variable")

include h hmacros hbare

/-- What an expression yields with the values bound, it yields after the substitution. -/
theorem yields_of_bound (ht : Shaped t) (hv : Yields env' s t v) :
    Yields env s (t.substitute σ) v := by
  induction hv with
  | reference hkind hvar => exact (h.yields_variable hkind).mpr (.reference hkind hvar)
  | @call s t body v hkind hbody _ ih =>
    have hvar : t.kind ≠ "variable" := by rw [hkind]; decide
    rw [h.macros_eq] at hbody
    have hexpansion := expansion_of_sorted hbody
    refine .call ((Tree.kind_substitute hvar).trans hkind) ?_
      (ih (ht.expansion hmacros hkind hexpansion))
    rw [sortedExpansion_substitute hmacros s ht hkind, hbody,
      Tree.substitute_of_not_variable (kind_of_expansion hmacros hbare hexpansion)]
    rfl
  | @form s t ops vs v hops hlen _ hbuild ih =>
    have hbuild' := build_substitute (σ := σ) h.target_eq (not_variable_of_operands hops)
      (ht.not_variable_of_sign hops) vs
    refine .form (operands_substitute_eq_some hops) (by rw [List.length_map, hlen])
      (fun {p w} hpw => ?_) (hbuild'.trans hbuild)
    rw [List.zip_map_left] at hpw
    obtain ⟨⟨q, w'⟩, hq, heq⟩ := List.mem_map.mp hpw
    cases heq
    exact ih hq (ht.of_operand hops (List.of_mem_zip hq).1)

/-- What an expression yields after the substitution, it yields with the values bound. -/
theorem yields_of_substitute (ht : Shaped t) (hv : Yields env s (t.substitute σ) v) :
    Yields env' s t v := by
  by_cases hvar : t.kind = "variable"
  · exact (h.yields_variable hvar).mp hv
  -- the induction is on the derivation; its nodes that are not below an argument come from the tree
  generalize hu : t.substitute σ = u at hv
  induction hv generalizing t with
  | reference hkind =>
    rw [← hu, Tree.kind_substitute hvar] at hkind
    exact absurd hkind hvar
  | @call s u body v hkind hbody _ ih =>
    rw [← hu, Tree.kind_substitute hvar] at hkind
    rw [← hu, sortedExpansion_substitute hmacros s ht hkind] at hbody
    obtain ⟨body', hbody', rfl⟩ := Option.map_eq_some_iff.mp hbody
    have hexpansion := expansion_of_sorted hbody'
    have hvar' := kind_of_expansion hmacros hbare hexpansion
    refine .call hkind (by rw [h.macros_eq, hbody']) ?_
    exact ih (ht.expansion hmacros hkind hexpansion) hvar'
      (Tree.substitute_of_not_variable hvar')
  | @form s u ops vs v hops hlen hvs hbuild ih =>
    subst hu
    rw [operands_substitute s hvar] at hops
    obtain ⟨ops', hops', rfl⟩ := Option.map_eq_some_iff.mp hops
    rw [List.length_map] at hlen
    rw [build_substitute h.target_eq hvar (ht.not_variable_of_sign hops')] at hbuild
    refine .form hops' hlen (fun {p w} hpw => ?_) hbuild
    have hpw' : (Prod.map id (Tree.substitute σ) p, w) ∈
        (ops'.map (Prod.map id (Tree.substitute σ))).zip vs := by
      rw [List.zip_map_left]
      exact List.mem_map_of_mem (f := Prod.map (Prod.map id (Tree.substitute σ)) id) hpw
    by_cases hp : p.2.kind = "variable"
    · exact (h.yields_variable hp).mp (hvs hpw')
    · exact ih hpw' (ht.of_operand hops' (List.of_mem_zip hpw).1) hp rfl

/-- The substitution lemma. -/
theorem yields_substitute (ht : Shaped t) :
    Yields env s (t.substitute σ) v ↔ Yields env' s t v :=
  ⟨h.yields_of_substitute hmacros hbare ht, h.yields_of_bound hmacros hbare ht⟩

end Rebinds

/-! ## Parameters bound to values -/

/-- Bind names to values. This hides what the names are bound to already. -/
def Env.rebind (env : Env) (names : List String) (vs : List Value) : Env :=
  { env with bindings := (names.zip vs).map (fun p => ⟨p.1, p.2, 0⟩) ++ env.bindings }

theorem find?_bindings (ps : List (String × Value)) (x : String) :
    (ps.map fun p => (⟨p.1, p.2, 0⟩ : Binding)).find? (·.name == x) =
      (ps.lookup x).map fun v => ⟨x, v, 0⟩ := by
  induction ps with
  | nil => rfl
  | cons p ps ih =>
    rw [List.map_cons, List.find?_cons, List.lookup_cons]
    by_cases hx : p.1 = x
    · simp [hx]
    · rw [beq_false_of_ne hx, beq_false_of_ne (Ne.symm hx)]
      exact ih

theorem Env.valueOf_rebind (env : Env) (names : List String) (vs : List Value) (s : ValueSort)
    (x : String) : (env.rebind names vs).valueOf s x =
      ((names.zip vs).lookup x).elim (env.valueOf s x) fun v =>
        if v.sort = s then some v else none := by
  unfold Env.valueOf Env.binding? Env.rebind
  rw [List.find?_append, find?_bindings]
  cases (names.zip vs).lookup x <;> rfl

theorem lookup_zip_forall₂ {α β : Type} {R : α → β → Prop} {as : List α} {bs : List β}
    (h : List.Forall₂ R as bs) (ks : List String) (k : String) :
    Option.Rel R ((ks.zip as).lookup k) ((ks.zip bs).lookup k) := by
  induction h generalizing ks with
  | nil => rw [List.zip_nil_right, List.zip_nil_right]; exact .none
  | cons hab _ ih =>
    cases ks with
    | nil => exact .none
    | cons k' ks =>
      rw [List.zip_cons_cons, List.zip_cons_cons, List.lookup_cons, List.lookup_cons]
      split
      · exact .some hab
      · exact ih ks

/-- The parameters bound to values of the arguments, and the arguments put in their places. -/
theorem rebinds_params {env : Env} {args : List Tree} {vs : List Value} (m : MacroDef)
    (hargs : List.Forall₂ (fun a v => ∃ s, Yields env s a v) args vs) :
    Rebinds env (env.rebind m.paramNames vs) (m.binding args) := by
  refine ⟨rfl, fun _ => rfl, fun x hx s => ?_, fun x a hx => ?_⟩
  · have hrel := lookup_zip_forall₂ hargs m.paramNames x
    rw [show (m.paramNames.zip args).lookup x = none from hx] at hrel
    rw [Env.valueOf_rebind]
    cases hv : (m.paramNames.zip vs).lookup x with
    | none => rfl
    | some v =>
      rw [hv] at hrel
      cases hrel
  · have hrel := lookup_zip_forall₂ hargs m.paramNames x
    rw [show (m.paramNames.zip args).lookup x = some a from hx] at hrel
    cases hv : (m.paramNames.zip vs).lookup x with
    | none =>
      rw [hv] at hrel
      cases hrel
    | some v =>
      rw [hv] at hrel
      cases hrel with
      | some hyields =>
        obtain ⟨s, hs⟩ := hyields
        refine ⟨s, v, hs, fun s' => ?_⟩
        rw [Env.valueOf_rebind, hv, ← hs.sort_eq]
        rfl

/-! ## Macro calls -/

/-- A definition in a source text has defined the macro. -/
def MacroDef.FromSource (name : String) (m : MacroDef) : Prop :=
  ∃ source p program t env env', IsSource source p ∧ p.toTree = .ok program ∧
    t ∈ sourceStatements program ∧ (lowerDefine env t).Returns env' ∧
    env'.macros = env.macros ++ [(name, m)]

theorem MacroDef.FromSource.accepted {name : String} {m : MacroDef} (h : m.FromSource name) :
    m.Accepted name := by
  obtain ⟨source, p, program, t, env, env', hsource, hp, ht, hdefine, hmacros⟩ := h
  obtain ⟨program', hp', hprogram⟩ := shapedProgram_of_isSource hsource
  obtain rfl := Except.ok.inj (hp.symm.trans hp')
  obtain ⟨d, hd, hcheck, henv⟩ := define_of_lowerDefine hdefine
  rw [(Env.define_eq_ok.mp henv).2.2] at hmacros
  obtain rfl : d = (name, m) := List.singleton_inj.mp (List.append_cancel_left hmacros)
  exact .of_definition ((statements_of_shapedProgram hprogram).2 t ht) hd hcheck

theorem MacroDef.Regular.sortedExpansion_macroCall {macros : Macros} {name : String} {m : MacroDef}
    {s : ValueSort} {args : List Tree} (h : m.Regular) (hm : macros.lookup name = some m)
    (hs : m.returns = s.word) (harity : args.length = m.arity) :
    sortedExpansion? macros s (Tree.macroCall name args) =
      some (m.body.substituteBelow (m.binding args)) := by
  show (macros.lookup name).bind _ = _
  rw [hm, Option.bind_some, if_pos hs]
  exact h.call_eq_some.mpr ⟨harity, rfl⟩

/-- A macro call has a value exactly if the body has one with the parameters bound to the values of
the arguments, and it is the same value. -/
theorem evaluate_macroCall_iff {env : Env} (hmacros : ∀ d ∈ env.macros, d.2.FromSource d.1)
    (hbare : ∀ d ∈ env.macros, d.2.body.kind ≠ "variable") {name : String} {m : MacroDef}
    (hm : env.findMacro? name = some m) {args : List Tree} {vs : List Value}
    (harity : args.length = m.arity)
    (hargs : List.Forall₂ (fun a v => ∃ s, (evaluate env s a).Returns v) args vs) :
    ∃ s, m.returns = ValueSort.word s ∧ ∀ v trace trace',
      ((evaluate env s (Tree.macroCall name args)).runFrom trace).1 = .ok v ↔
        ((evaluate (env.rebind m.paramNames vs) s m.body).runFrom trace').1 = .ok v := by
  have hregular : ∀ d ∈ env.macros, d.2.Regular := fun d hd => (hmacros d hd).accepted.toRegular
  have hrebound : ∀ d ∈ (env.rebind m.paramNames vs).macros, d.2.Regular := hregular
  have hmem : (name, m) ∈ env.macros := mem_of_lookup hm
  have haccepted : m.Accepted name := (hmacros _ hmem).accepted
  obtain ⟨s, hs⟩ := haccepted.sorted
  refine ⟨s, hs, fun v trace trace' => ?_⟩
  have hyields : List.Forall₂ (fun a v => ∃ s, Yields env s a v) args vs :=
    hargs.imp fun a v ⟨s, hv⟩ => ⟨s, yields_of_evaluateAt (evaluate_eq_evaluateAt ▸ hv)⟩
  -- the call stands for the body with the arguments put in, which is not a bare parameter
  rw [evaluate_eq_ok_iff hregular, evaluate_eq_ok_iff hrebound,
    Yields.call_iff rfl (haccepted.sortedExpansion_macroCall hm hs harity),
    ← Tree.substitute_of_not_variable (hbare _ hmem)]
  exact (rebinds_params m hyields).yields_substitute hregular hbare haccepted.shaped

/-- The macros of `macroSource`, and two variables. -/
def macroEnv : Env :=
  { Env.empty with
    bindings := [⟨"X", .number (.name "n0"), 0⟩, ⟨"Z", .number (.name "n1"), 1⟩]
    macros := [
      ("f", ⟨[⟨none, "X"⟩], "number", .node "num_unary" [.node "neg" [], .text "variable" "X"]⟩),
      ("g", ⟨[⟨none, "Y"⟩, ⟨none, "X"⟩], "number", .macroCall "f" [.text "variable" "Y"]⟩)] }

theorem macroEnv_fromSource : ∀ d ∈ macroEnv.macros, d.2.FromSource d.1 := by
  have hdefined : ∀ t ∈ sourceStatements macroProgram, ∀ d env',
      (lowerDefine .empty t).Returns env' → env'.macros = [d] → d.2.FromSource d.1 :=
    fun t ht d env' hdefine hmacros => ⟨_, _, _, t, _, env', macroSource_isSource,
      macroParse_toTree, ht, hdefine, hmacros⟩
  refine List.forall_mem_cons.mpr ⟨?_, List.forall_mem_singleton.mpr ?_⟩
  · exact hdefined _ List.mem_cons_self _ _ ⟨.start, _, rfl⟩ rfl
  · exact hdefined _ (List.mem_cons_of_mem _ List.mem_cons_self) _ _ ⟨.start, _, rfl⟩ rfl

theorem evaluate_macroCall_handedOn :
    (∀ d ∈ macroEnv.macros, d.2.FromSource d.1) ∧
    (∀ v trace trace',
      ((evaluate macroEnv .number
          (.macroCall "g" [.text "variable" "X", .text "variable" "Z"])).runFrom trace).1 = .ok v ↔
        ((evaluate (macroEnv.rebind ["Y", "X"] [.number (.name "n0"), .number (.name "n1")]) .number
          (.macroCall "f" [.text "variable" "Y"])).runFrom trace').1 = .ok v) ∧
    ((evaluate macroEnv .number
        (.macroCall "g" [.text "variable" "X", .text "variable" "Z"])).runFrom .start).1 =
      .ok (.number (.unary "neg" (.name "n0"))) := by
  have hargs : List.Forall₂ (fun a v => ∃ s, (evaluate macroEnv s a).Returns v)
      [.text "variable" "X", .text "variable" "Z"] [.number (.name "n0"), .number (.name "n1")] :=
    .cons ⟨.number, .start, _, rfl⟩ (.cons ⟨.number, .start, _, rfl⟩ .nil)
  have hfind : macroEnv.findMacro? "g" =
      some ⟨[⟨none, "Y"⟩, ⟨none, "X"⟩], "number", .macroCall "f" [.text "variable" "Y"]⟩ := rfl
  obtain ⟨s, hs, hiff⟩ := evaluate_macroCall_iff macroEnv_fromSource (by decide) hfind rfl hargs
  obtain rfl : s = .number := ValueSort.word_injective hs.symm
  exact ⟨macroEnv_fromSource, hiff, (hiff _ .start .start).mpr rfl⟩

end Scalarize
