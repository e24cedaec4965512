import Scalarize.Proofs.EvaluationDepth
import Scalarize.Proofs.FlatChains
import Scalarize.Proofs.ValueParts

/-!
# Scalarize — one value for all groupings of a chain

The operands and operators of a chain can be written as one node or as nodes in one another, with any
number of operators in each. Chains of two-operand operators nest on the left, operators before an
operand on the right. A grouping has the value that the flat chain makes of the values of its
operands, so all groupings of a chain have the same value, or none has one.

* **`LeftNested`**, **`RightNested`** — the groupings of a chain.
* **`LeftNested.yields_iff`**, **`RightNested.yields_iff`** — what a grouping yields, in terms of the
  flat chain.
* **`grouping_irrelevant`** — two groupings of one chain evaluate alike.
-/

namespace Scalarize

/-! ## Groupings -/

/-- The operators and operands of a chain after its first operand, in a row. -/
def unpairs (ps : List (Tree × Tree)) : List Tree :=
  ps.flatMap fun p => [p.1, p.2]

@[simp]
theorem pairs_unpairs (ps : List (Tree × Tree)) : pairs (unpairs ps) = ps := by
  induction ps with
  | nil => rfl
  | cons p ps ih => exact congrArg (p :: ·) ih

theorem unpairs_append (ps qs : List (Tree × Tree)) : unpairs (ps ++ qs) = unpairs ps ++ unpairs qs :=
  List.flatMap_append

theorem length_unpairs (ps : List (Tree × Tree)) : (unpairs ps).length % 2 = 0 := by
  induction ps with
  | nil => rfl
  | cons p ps ih =>
    have hlength : (unpairs (p :: ps)).length = (unpairs ps).length + 2 := rfl
    omega

/-- The tree is the chain of the first operand with these operators and operands, grouped from the
left in some way. The flat chain is the grouping in one step. -/
inductive LeftNested (s : ValueSort) (first : Tree) : List (Tree × Tree) → Tree → Prop where
  | operand : LeftNested s first [] first
  | nest {ps : List (Tree × Tree)} {t : Tree} (h : LeftNested s first ps t)
      (qs : List (Tree × Tree)) :
      LeftNested s first (ps ++ qs) (.node s.chainKind (t :: unpairs qs))

/-- The tree is the operand with these operators before it, grouped from the right in some way. -/
inductive RightNested (operand : Tree) : List Tree → Tree → Prop where
  | operand : RightNested operand [] operand
  | nest (ops : List Tree) {us : List Tree} {t : Tree} (h : RightNested operand us t) :
      RightNested operand (ops ++ us) (.node "num_unary" (ops ++ [t]))

/-- Two groupings of one chain. -/
inductive SameChain : ValueSort → Tree → Tree → Prop where
  | binary {s : ValueSort} {first t u : Tree} {ps : List (Tree × Tree)}
      (ht : LeftNested s first ps t) (hu : LeftNested s first ps u) : SameChain s t u
  | unary {operand t u : Tree} {ops : List Tree} (ht : RightNested operand ops t)
      (hu : RightNested operand ops u) : SameChain .number t u

/-! ## Values -/

section

variable {env : Env} {s : ValueSort} {t u : Tree} {v : Value}

/-- A form has what it makes of the values of its operands. -/
theorem yields_form_iff {ops : List (ValueSort × Tree)} (hops : operands s t = some ops) :
    Yields env s t v ↔ ∃ vs, List.Forall₂ (fun p w => Yields env p.1 p.2 w) ops vs ∧
      build env s t vs = some v := by
  constructor
  · exact fun h => h.of_operands hops
  · rintro ⟨vs, hvs, hbuild⟩
    exact .of_forall₂ hops hvs hbuild

theorem yields_chain_iff {first : Tree} {ps : List (Tree × Tree)} :
    Yields env s (.node s.chainKind (first :: unpairs ps)) v ↔
      ∃ x xs, Yields env s first x ∧ List.Forall₂ (fun p w => Yields env s p.2 w) ps xs ∧
        build env s (.node s.chainKind (first :: unpairs ps)) (x :: xs) = some v := by
  rw [yields_form_iff (operands_chain s first (unpairs ps)), pairs_unpairs]
  constructor
  · rintro ⟨vs, hvs, hbuild⟩
    obtain ⟨x, xs, hx, hxs, rfl⟩ := List.forall₂_cons_left_iff.mp hvs
    rw [List.forall₂_map_left_iff] at hxs
    exact ⟨x, xs, hx, hxs, hbuild⟩
  · rintro ⟨x, xs, hx, hxs, hbuild⟩
    exact ⟨x :: xs, .cons hx (List.forall₂_map_left_iff.mpr hxs), hbuild⟩

/-- A chain of one operand has its value. -/
theorem build_chain_singleton (env : Env) (first : Tree) {x : Value} (hx : x.sort = s) :
    build env s (.node s.chainKind [first]) [x] = some x := by
  cases x <;> subst hx <;> rfl

theorem build_unary_singleton (env : Env) (operand : Tree) {x : Value} (hx : x.sort = .number) :
    build env .number (.node "num_unary" [operand]) [x] = some x := by
  cases x with
  | number x => rfl
  | vector x => cases hx
  | matrix x => cases hx

/-- A grouping from the left yields what the flat chain makes of the values of the operands. -/
theorem LeftNested.yields_iff {first : Tree} {ps : List (Tree × Tree)}
    (h : LeftNested s first ps t) :
    Yields env s t v ↔
      ∃ x xs, Yields env s first x ∧ List.Forall₂ (fun p w => Yields env s p.2 w) ps xs ∧
        build env s (.node s.chainKind (first :: unpairs ps)) (x :: xs) = some v := by
  induction h generalizing v with
  | operand =>
    constructor
    · intro hv
      exact ⟨v, [], hv, .nil, build_chain_singleton env first hv.sort_eq⟩
    · rintro ⟨x, xs, hx, hxs, hbuild⟩
      cases hxs
      obtain rfl := Option.some.inj ((build_chain_singleton env first hx.sort_eq).symm.trans hbuild)
      exact hx
  | @nest ps t _ qs ih =>
    -- the steps of the flat chain are taken in two turns, with the value of `t` in between
    have hsteps : ∀ x {xs : List Value}, ps.length = xs.length → ∀ ys,
        build env s (.node s.chainKind (first :: unpairs (ps ++ qs))) (x :: (xs ++ ys)) =
          (build env s (.node s.chainKind (first :: unpairs ps)) (x :: xs)).bind fun z =>
            build env s (.node s.chainKind (t :: unpairs qs)) (z :: ys) := by
      intro x xs hlength ys
      rw [unpairs_append]
      refine build_chain_append env s first t (length_unpairs ps) x ys ?_
      rwa [pairs_unpairs]
    rw [yields_chain_iff]
    constructor
    · rintro ⟨z, ys, hz, hys, hbuild⟩
      obtain ⟨x, xs, hx, hxs, hinner⟩ := ih.mp hz
      refine ⟨x, xs ++ ys, hx, List.rel_append hxs hys, ?_⟩
      rw [hsteps x hxs.length_eq, hinner]
      exact hbuild
    · rintro ⟨x, zs, hx, hzs, hbuild⟩
      obtain ⟨xs, ys, hxs, hys, rfl⟩ := exists_append_of_forall₂ hzs
      rw [hsteps x hxs.length_eq] at hbuild
      obtain ⟨z, hinner, houter⟩ := Option.bind_eq_some_iff.mp hbuild
      exact ⟨z, ys, ih.mpr ⟨x, xs, hx, hxs, hinner⟩, hys, houter⟩

theorem yields_unary_iff {ops : List Tree} {operand : Tree} :
    Yields env .number (.node "num_unary" (ops ++ [operand])) v ↔
      ∃ x, Yields env .number operand x ∧
        build env .number (.node "num_unary" (ops ++ [operand])) [x] = some v := by
  rw [yields_form_iff (operands_unary List.getLast?_singleton ops)]
  constructor
  · rintro ⟨vs, hvs, hbuild⟩
    obtain ⟨x, xs, hx, hxs, rfl⟩ := List.forall₂_cons_left_iff.mp hvs
    cases hxs
    exact ⟨x, hx, hbuild⟩
  · rintro ⟨x, hx, hbuild⟩
    exact ⟨[x], .cons hx .nil, hbuild⟩

/-- A grouping from the right yields what all operators together make of the value of the operand. -/
theorem RightNested.yields_iff {operand : Tree} {ops : List Tree} (h : RightNested operand ops t) :
    Yields env .number t v ↔
      ∃ x, Yields env .number operand x ∧
        build env .number (.node "num_unary" (ops ++ [operand])) [x] = some v := by
  induction h generalizing v with
  | operand =>
    constructor
    · intro hv
      exact ⟨v, hv, build_unary_singleton env operand hv.sort_eq⟩
    · rintro ⟨x, hx, hbuild⟩
      obtain rfl :=
        Option.some.inj ((build_unary_singleton env operand hx.sort_eq).symm.trans hbuild)
      exact hx
  | @nest ops us t _ ih =>
    have hsteps : ∀ x, build env .number (.node "num_unary" (ops ++ us ++ [operand])) [x] =
        (build env .number (.node "num_unary" (us ++ [operand])) [x]).bind fun z =>
          build env .number (.node "num_unary" (ops ++ [t])) [z] := by
      intro x
      rw [List.append_assoc]
      exact build_unary_append env ops t (by simp) x
    rw [yields_unary_iff]
    simp only [hsteps, ih, Option.bind_eq_some_iff]
    constructor
    · rintro ⟨z, ⟨x, hx, hinner⟩, houter⟩
      exact ⟨x, hx, z, hinner, houter⟩
    · rintro ⟨x, hx, z, hinner, houter⟩
      exact ⟨z, ⟨x, hx, hinner⟩, houter⟩

theorem SameChain.yields_iff (h : SameChain s t u) : Yields env s t v ↔ Yields env s u v := by
  cases h with
  | binary ht hu => rw [ht.yields_iff, hu.yields_iff]
  | unary ht hu => rw [ht.yields_iff, hu.yields_iff]

/-- An evaluator finds what an expression yields, if it may go deep enough. -/
theorem exists_returns_iff : (∃ n, (evaluateAt env s n t).Returns v) ↔ Yields env s t v := by
  constructor
  · rintro ⟨n, hn⟩
    exact yields_of_evaluateAt hn
  · intro hv
    obtain ⟨n, hn⟩ := hv.unfolds
    have hok := hv.ok_of_ends hn (Traced.ends_runFrom _ .start)
    exact ⟨n, .start, _, Prod.ext hok rfl⟩

/-- The way a chain is grouped makes no difference. In every environment an evaluator that may go
deep enough finds the same value for two groupings, or finds none for both; and with macros that were
defined in a source the depth that it has is enough, so the values are the same or both evaluations
fail. -/
theorem grouping_irrelevant (h : SameChain s t u) (env : Env) :
    (∀ v, (∃ n, (evaluateAt env s n t).Returns v) ↔ ∃ n, (evaluateAt env s n u).Returns v) ∧
    ((∀ p ∈ env.macros, p.2.Regular) → ∀ trace trace',
      ((evaluate env s t).runFrom trace).1.toOption =
        ((evaluate env s u).runFrom trace').1.toOption) := by
  refine ⟨fun v => ?_, fun hmacros trace trace' => ?_⟩
  · rw [exists_returns_iff, exists_returns_iff, h.yields_iff]
  · refine Option.ext fun v => ?_
    have hok : ∀ (t : Tree) (trace : Trace), ((evaluate env s t).runFrom trace).1.toOption = some v ↔
        Yields env s t v := by
      intro t trace
      rw [← evaluate_eq_ok_iff hmacros trace]
      exact ⟨ok_of_toOption, fun hv => by rw [hv]; rfl⟩
    rw [hok, hok, h.yields_iff]

/-- A row of operators and operands with a macro call: `- f(Z) * 4`. -/
def chainOfCall : List (Tree × Tree) :=
  [(.node "sub" [], .macroCall "f" [.text "variable" "Z"]), (.node "mul" [], .text "number" "4")]

/-- The chain `X - f(Z) * 4` as one node and as two nodes. The operators have no precedence. -/
theorem grouping_irrelevant_with_call :
    ((evaluate macroEnv .number (.node "num_binary" [.node "num_binary" [.text "variable" "X",
        .node "sub" [], .macroCall "f" [.text "variable" "Z"]], .node "mul" [],
        .text "number" "4"])).runFrom .start).1.toOption =
      ((evaluate macroEnv .number (.node "num_binary" [.text "variable" "X", .node "sub" [],
        .macroCall "f" [.text "variable" "Z"], .node "mul" [], .text "number" "4"])).runFrom
        .start).1.toOption ∧
    ((evaluate macroEnv .number (.node "num_binary" [.text "variable" "X", .node "sub" [],
        .macroCall "f" [.text "variable" "Z"], .node "mul" [], .text "number" "4"])).runFrom
        .start).1 = .ok (.number (.binary "mul" (.binary "sub" (.name "n0")
          (.unary "neg" (.name "n1"))) (.literal (.int 4)))) := by
  have hflat : LeftNested .number (.text "variable" "X") chainOfCall _ :=
    .nest .operand chainOfCall
  have hnested : LeftNested .number (.text "variable" "X") chainOfCall _ :=
    .nest (.nest .operand (chainOfCall.take 1)) (chainOfCall.drop 1)
  have hregular : ∀ p ∈ macroEnv.macros, p.2.Regular :=
    fun p hp => (macroEnv_fromSource p hp).accepted.toRegular
  exact ⟨(grouping_irrelevant (.binary hnested hflat) macroEnv).2 hregular .start .start, rfl⟩

end

end Scalarize
