import Scalarize.Proofs.Evaluators
import Scalarize.Proofs.Substitution

/-!
# Scalarize — how deep macro calls unfold

The evaluators work with a limit of depth. Macros may call each other in a circle, and then some
expression unfolds without end and no limit is enough. This module shows that the limit is enough
for every expression that unfolds to some finite depth at all.

* **`Unfolds`** — an expression with its macro calls expanded is a tree of at most this depth.
* **`Visits`** — a node of the unfolded expression.
* **`depthInside`** — how deep the body of a macro unfolds with arguments in it. A body that unfolds
  at all never comes back to its own macro, so the induction is on the set of macros that can still
  be entered, and inside on the size of the expression.
* **`unfolds_depthBound`** — an expression that unfolds does so within the limit.
* **`evaluate_eq_ok_iff`** — so the evaluators return a value for every expression that has one.
-/

namespace Scalarize

open Traced

/-- The expression with its macro calls expanded is a tree of at most the given depth. -/
def Unfolds (macros : Macros) : Nat → Tree → Prop
  | 0, _ => False
  | n + 1, t =>
    (∀ s ops, operands s t = some ops → ∀ p ∈ ops, Unfolds macros n p.2) ∧
    (t.kind = "call" → ∀ body, expansion? macros t = some body → Unfolds macros n body)

/-- A node is met when an expression is unfolded. The body of a macro that is nothing but a
parameter is not counted: it stays as it is whatever the argument. -/
inductive Visits (macros : Macros) : Tree → Tree → Prop where
  | here (t) : Visits macros t t
  | operand {s t ops p u} (hops : operands s t = some ops) (hp : p ∈ ops)
      (h : Visits macros p.2 u) : Visits macros t u
  | body {t body u} (hkind : t.kind = "call") (hbody : expansion? macros t = some body)
      (hbare : body.kind ≠ "variable") (h : Visits macros body u) : Visits macros t u

/-- The node is a call of the macro, and it can be expanded. -/
def Enters (macros : Macros) (u : Tree) (g : String) : Prop :=
  u.kind = "call" ∧ u.calledName = g ∧ ∃ body, expansion? macros u = some body

section

variable {macros : Macros} {n m : Nat} {t u : Tree} {σ : String → Option Tree}

theorem Unfolds.mono (h : Unfolds macros n t) (hnm : n ≤ m) : Unfolds macros m t := by
  induction n generalizing m t with
  | zero => exact h.elim
  | succ n ih =>
    obtain ⟨m, rfl⟩ : ∃ k, m = k + 1 := ⟨m - 1, by omega⟩
    have hle := Nat.le_of_succ_le_succ hnm
    exact ⟨fun s ops hops p hp => ih (h.1 s ops hops p hp) hle,
      fun hkind body hbody => ih (h.2 hkind body hbody) hle⟩

theorem Unfolds.of_variable (h : t.kind = "variable") (hn : 0 < n) : Unfolds macros n t := by
  obtain ⟨n, rfl⟩ : ∃ k, n = k + 1 := ⟨n - 1, by omega⟩
  refine ⟨fun s ops hops => ?_, fun hkind => ?_⟩
  · rw [operands_variable h] at hops
    cases hops
  · rw [h] at hkind
    exact absurd hkind (by decide)

/-- A form unfolds if its operands do. -/
theorem Unfolds.of_operands {s : ValueSort} {ops : List (ValueSort × Tree)}
    (hops : operands s t = some ops) (h : ∀ p ∈ ops, Unfolds macros n p.2) :
    Unfolds macros (n + 1) t := by
  refine ⟨fun s' ops' hops' => ?_, fun hkind => ?_⟩
  · obtain ⟨-, rfl⟩ := operands_unique hops hops'
    exact h
  · rw [operands_call hkind] at hops
    cases hops

/-- A call unfolds if its body does. -/
theorem Unfolds.of_call (hkind : t.kind = "call")
    (h : ∀ body, expansion? macros t = some body → Unfolds macros n body) :
    Unfolds macros (n + 1) t := by
  refine ⟨fun s ops hops => ?_, fun _ => h⟩
  rw [operands_call hkind] at hops
  cases hops

theorem Visits.trans {v : Tree} (h : Visits macros t u) (h' : Visits macros u v) :
    Visits macros t v := by
  induction h with
  | here => exact h'
  | operand hops hp _ ih => exact .operand hops hp (ih h')
  | body hkind hbody hbare _ ih => exact .body hkind hbody hbare (ih h')

theorem Unfolds.of_visits (h : Unfolds macros n t) (hu : Visits macros t u) :
    ∃ m ≤ n, Unfolds macros m u := by
  induction hu generalizing n with
  | here => exact ⟨n, le_rfl, h⟩
  | operand hops hp _ ih =>
    cases n with
    | zero => exact h.elim
    | succ n =>
      obtain ⟨m, hm, hu⟩ := ih (h.1 _ _ hops _ hp)
      exact ⟨m, by omega, hu⟩
  | body hkind hbody _ _ ih =>
    cases n with
    | zero => exact h.elim
    | succ n =>
      obtain ⟨m, hm, hu⟩ := ih (h.2 hkind _ hbody)
      exact ⟨m, by omega, hu⟩

/-! ## Unfolding the bodies of macros -/

variable (hmacros : ∀ p ∈ macros, p.2.Regular)

include hmacros

theorem Visits.shaped (hu : Visits macros t u) (ht : Shaped t) : Shaped u := by
  induction hu with
  | here => exact ht
  | operand hops hp _ ih => exact ih (ht.of_operand hops hp)
  | body hkind hbody _ _ ih => exact ih (ht.expansion hmacros hkind hbody)

/-- What is met in an expression is met with arguments in it. -/
theorem Visits.substitute (hu : Visits macros t u) (ht : Shaped t) :
    Visits macros (t.substitute σ) (u.substitute σ) := by
  induction hu with
  | here => exact .here _
  | operand hops hp _ ih =>
    exact .operand (operands_substitute_eq_some hops) (List.mem_map_of_mem hp)
      (ih (ht.of_operand hops hp))
  | @body t body u hkind hbody hbare _ ih =>
    have hbody' : expansion? macros (t.substitute σ) = some (body.substitute σ) := by
      rw [expansion_substitute hmacros ht hkind, hbody, Tree.substitute_of_not_variable hbare]
      rfl
    refine .body ?_ hbody' ?_ (ih (ht.expansion hmacros hkind hbody))
    · rw [Tree.kind_substitute (by rw [hkind]; decide), hkind]
    · rwa [Tree.kind_substitute hbare]

/-- An expression unfolds if it does with arguments in it. -/
theorem Unfolds.of_substitute (ht : Shaped t) (h : Unfolds macros n (t.substitute σ)) :
    Unfolds macros n t := by
  induction n generalizing t with
  | zero => exact h.elim
  | succ n ih =>
    by_cases hvar : t.kind = "variable"
    · exact .of_variable hvar n.succ_pos
    refine ⟨fun s ops hops p hp => ?_, fun hkind body hbody => ?_⟩
    · exact ih (ht.of_operand hops hp)
        (h.1 s _ (operands_substitute_eq_some hops) _ (List.mem_map_of_mem hp))
    · have hbody' := expansion_substitute (σ := σ) hmacros ht hkind
      rw [hbody] at hbody'
      have hunfolds := h.2 ((Tree.kind_substitute hvar).trans hkind) _ hbody'
      have hshaped := ht.expansion hmacros hkind hbody
      by_cases hbare : body.kind = "variable"
      · rwa [Tree.substituteBelow_of_bare (hshaped.bare hbare)] at hunfolds
      · rw [← Tree.substitute_of_not_variable hbare] at hunfolds
        exact ih hshaped hunfolds

omit hmacros in
theorem Visits.eq_of_variable (hu : Visits macros t u) (h : t.kind = "variable") : u = t := by
  cases hu with
  | here => rfl
  | operand hops => rw [operands_variable h] at hops; cases hops
  | body hkind => rw [h] at hkind; exact absurd hkind (by decide)

/-- A body that unfolds never comes back to its own macro: the second time it would need a smaller
depth for the same body. -/
theorem not_enters_own {g : String} {m : MacroDef} (hm : macros.lookup g = some m)
    (h : Unfolds macros n m.body) (hu : Visits macros m.body u) : ¬ Enters macros u g := by
  induction n using Nat.strong_induction_on generalizing u with
  | _ n ih =>
    rintro ⟨hkind, hname, body, hbody⟩
    obtain ⟨k, hk, hunfolds⟩ := h.of_visits hu
    cases k with
    | zero => exact hunfolds
    | succ k =>
      obtain ⟨callee, args, rest, m', hchildren, hm', hcall⟩ := expansion_eq_some hbody
      obtain rfl : m' = m := by
        rw [← Tree.calledName_of_children hchildren, hname, hm] at hm'
        exact (Option.some.inj hm').symm
      have hregular := hmacros _ (mem_of_lookup hm)
      obtain ⟨-, rfl⟩ := hregular.call_eq_some.mp hcall
      have hbare : m'.body.kind ≠ "variable" := by
        intro hvar
        rw [hu.eq_of_variable hvar, hvar] at hkind
        exact absurd hkind (by decide)
      have hagain := hunfolds.2 hkind _ hbody
      rw [← Tree.substitute_of_not_variable hbare] at hagain
      exact ih k (by omega) (hagain.of_substitute hmacros hregular.shaped) hu
        ⟨hkind, hname, _, hbody⟩

theorem Enters.substitute {g : String} (h : Enters macros u g) (hu : Shaped u) :
    Enters macros (u.substitute σ) g := by
  obtain ⟨hkind, hname, body, hbody⟩ := h
  have hvar : u.kind ≠ "variable" := by rw [hkind]; decide
  refine ⟨(Tree.kind_substitute hvar).trans hkind, ?_, body.substituteBelow σ, ?_⟩
  · cases hu with
    | reference hkind' => exact absurd hkind' hvar
    | form hops => rw [operands_call hkind] at hops; cases hops
    | call _ hchildren hcallee =>
      have hchildren' := Tree.children_substitute (σ := σ) hvar
      rw [hchildren, List.map_cons] at hchildren'
      rw [Tree.calledName_of_children hchildren', Tree.name_substitute hcallee,
        ← Tree.calledName_of_children hchildren, hname]
  · rw [expansion_substitute hmacros hu hkind, hbody]
    rfl

/-- What the body of a macro enters when it unfolds with arguments, it enters without them, the
macro itself apart. -/
theorem enters_erase {g : String} {m : MacroDef} {A : Finset String} {ρ : String → Option Tree}
    (hm : macros.lookup g = some m) (h : Unfolds macros n (m.body.substitute ρ))
    (hA : ∀ u g', Visits macros (m.body.substitute ρ) u → Enters macros u g' → g' ∈ A) :
    ∀ u g', Visits macros m.body u → Enters macros u g' → g' ∈ A.erase g := by
  intro u g' hu hg'
  have hshaped := (hmacros _ (mem_of_lookup hm)).shaped
  refine Finset.mem_erase.mpr ⟨?_, ?_⟩
  · rintro rfl
    exact not_enters_own hmacros hm (h.of_substitute hmacros hshaped) hu hg'
  · exact hA _ g' (hu.substitute hmacros hshaped)
      (hg'.substitute hmacros (hu.shaped hmacros hshaped))

end

/-! ## The depth of an unfolded expression -/

/-- A depth for the bodies of macros of size at most `T` that enter at most `j` other macros. -/
def bodyDepth (T : Nat) : Nat → Nat
  | 0 => 0
  | j + 1 => T * (bodyDepth T j + 2)


/-- How deep an expression of the shape that the grammar makes unfolds with arguments in it, if it
unfolds without them and enters at most `j` macros: the arguments that it meets unfold to the depth
`d`. -/
def DepthInside (macros : Macros) (T j : Nat) : Prop :=
  ∀ (A : Finset String), A.card ≤ j → ∀ (n d : Nat) (t : Tree) (σ : String → Option Tree),
    Shaped t → Unfolds macros n t →
    (∀ u g, Visits macros t u → Enters macros u g → g ∈ A) →
    (∀ x e, Visits macros t x → x.kind = "variable" → σ x.name = some e → Unfolds macros d e) →
    Unfolds macros (t.size * (bodyDepth T j + 2) + d) (t.substitute σ)

theorem exists_unfolds_forall {macros : Macros} {ts : List Tree}
    (h : ∀ t ∈ ts, ∃ n, Unfolds macros n t) : ∃ n, ∀ t ∈ ts, Unfolds macros n t := by
  induction ts with
  | nil => exact ⟨0, fun t ht => by cases ht⟩
  | cons t ts ih =>
    obtain ⟨n, hn⟩ := h t List.mem_cons_self
    obtain ⟨m, hm⟩ := ih fun t ht => h t (List.mem_cons_of_mem _ ht)
    refine ⟨max n m, fun u hu => ?_⟩
    rcases List.mem_cons.mp hu with rfl | hu
    · exact hn.mono (le_max_left ..)
    · exact (hm u hu).mono (le_max_right ..)

theorem le_total_of_mem {n : Nat} {ns : List Nat} (h : n ∈ ns) : n ≤ total ns := by
  induction ns with
  | nil => cases h
  | cons k ns ih =>
    rw [total_cons]
    rcases List.mem_cons.mp h with rfl | h
    · exact Nat.le_add_right ..
    · exact (ih h).trans (Nat.le_add_left ..)

theorem body_size_le_total {macros : Macros} {p : String × MacroDef} (hp : p ∈ macros) :
    p.2.body.size ≤ total (macros.map (·.2.body.size)) :=
  le_total_of_mem (List.mem_map_of_mem (f := fun p => p.2.body.size) hp)

section

variable {macros : Macros} {T : Nat} (hmacros : ∀ p ∈ macros, p.2.Regular)
  (hT : ∀ p ∈ macros, p.2.body.size ≤ T)

include hmacros hT

/-- How deep the body of a macro unfolds with the arguments `ρ` put in and these changed to `τ`, if
it does so with `ρ`. -/
theorem Unfolds.body {n d j : Nat} {g : String} {m : MacroDef} {A : Finset String}
    {ρ τ : String → Option Tree} (hj : DepthInside macros T j) (hm : macros.lookup g = some m)
    (hA : A.card ≤ j + 1) (hg : g ∈ A) (h : Unfolds macros n (m.body.substitute ρ))
    (henters : ∀ u g', Visits macros (m.body.substitute ρ) u → Enters macros u g' → g' ∈ A)
    (hτ : ∀ x e, τ x = some e →
      ∃ a, ρ x = some a ∧ (Visits macros (m.body.substitute ρ) a → Unfolds macros d e)) :
    Unfolds macros (bodyDepth T (j + 1) + d) (m.body.substitute τ) := by
  have hshaped := (hmacros _ (mem_of_lookup hm)).shaped
  have hcard : (A.erase g).card ≤ j := by
    rw [Finset.card_erase_of_mem hg]
    omega
  have hsize : m.body.size ≤ T := hT _ (mem_of_lookup hm)
  have hle : m.body.size * (bodyDepth T j + 2) ≤ bodyDepth T (j + 1) :=
    Nat.mul_le_mul_right _ hsize
  refine (hj (A.erase g) hcard n d m.body τ hshaped (h.of_substitute hmacros hshaped)
    (enters_erase hmacros hm h henters) ?_).mono (Nat.add_le_add_right hle d)
  intro x e hx hkind he
  obtain ⟨a, ha, hunfolds⟩ := hτ _ e he
  have hvisits := hx.substitute (σ := ρ) hmacros hshaped
  rw [Tree.substitute_of_variable hkind, ha] at hvisits
  exact hunfolds hvisits

omit hmacros hT in
/-- How deep a form unfolds, by its operands. -/
theorem Unfolds.form_substitute {j d : Nat} {s : ValueSort} {t : Tree}
    {ops : List (ValueSort × Tree)} {σ : String → Option Tree} (hvar : t.kind ≠ "variable")
    (hops : operands s t = some ops)
    (h : ∀ q ∈ ops, Unfolds macros (q.2.size * (bodyDepth T j + 2) + d) (q.2.substitute σ)) :
    Unfolds macros (t.size * (bodyDepth T j + 2) + d) (t.substitute σ) := by
  have hops' : operands s (t.substitute σ) =
      some (ops.map (Prod.map id (Tree.substitute σ))) := by
    rw [operands_substitute s hvar, hops]
    rfl
  have hpos := t.size_pos
  refine (Unfolds.of_operands (n := (t.size - 1) * (bodyDepth T j + 2) + d) hops' ?_).mono ?_
  · intro p hp
    obtain ⟨q, hq, rfl⟩ := List.mem_map.mp hp
    have hlt := Tree.size_lt_of_mem_children (mem_children_of_mem_operands hops hq)
    refine (h q hq).mono ?_
    gcongr
    omega
  · obtain ⟨k, hk⟩ : ∃ k, t.size = k + 1 := ⟨t.size - 1, by omega⟩
    rw [hk, Nat.add_sub_cancel]
    nlinarith

/-- How deep a call unfolds, by its arguments and by the bodies that enter fewer macros. The call
enters its macro, and no expression below enters it again. -/
theorem Unfolds.call_substitute {n j d : Nat} {t callee args : Tree} {rest : List Tree}
    {A : Finset String} {σ : String → Option Tree} (hj : ∀ i < j, DepthInside macros T i)
    (hA : A.card ≤ j) (ht : Shaped t) (hkind : t.kind = "call")
    (hchildren : t.children = callee :: args :: rest) (h : Unfolds macros (n + 1) t)
    (henters : ∀ u g, Visits macros t u → Enters macros u g → g ∈ A)
    (hargs : ∀ a ∈ args.children, Visits macros t a →
      Unfolds macros (a.size * (bodyDepth T j + 2) + d) (a.substitute σ)) :
    Unfolds macros (t.size * (bodyDepth T j + 2) + d) (t.substitute σ) := by
  have hvar : t.kind ≠ "variable" := by
    rw [hkind]
    decide
  have hlt : args.size < t.size := Tree.size_lt_of_mem_children (by rw [hchildren]; simp)
  have hargspos := args.size_pos
  refine (Unfolds.of_call (n := bodyDepth T j + ((t.size - 2) * (bodyDepth T j + 2) + d) + 1)
    ((Tree.kind_substitute hvar).trans hkind) ?_).mono ?_
  · intro body' hbody'
    rw [expansion_substitute hmacros ht hkind] at hbody'
    obtain ⟨body, hbody, rfl⟩ := Option.map_eq_some_iff.mp hbody'
    obtain ⟨_, _, _, m, hchildren', hm, hcall⟩ := expansion_eq_some hbody
    rw [hchildren] at hchildren'
    cases hchildren'
    have hregular := hmacros _ (mem_of_lookup hm)
    obtain ⟨hlen, rfl⟩ := hregular.call_eq_some.mp hcall
    -- a body that is a parameter is left as it is
    by_cases hbare : m.body.kind = "variable"
    · exact .of_variable (by simpa using hbare) (Nat.succ_pos _)
    rw [← Tree.substitute_of_not_variable hbare] at hbody ⊢
    have hkind' : (m.body.substitute (m.binding args.children)).kind ≠ "variable" := by
      rwa [Tree.kind_substitute hbare]
    have hvisits : ∀ u, Visits macros (m.body.substitute (m.binding args.children)) u →
        Visits macros t u := fun u hu => .body hkind hbody hkind' hu
    have hname : callee.name ∈ A := henters t callee.name (.here t)
      ⟨hkind, Tree.calledName_of_children hchildren, _, hbody⟩
    obtain ⟨j, rfl⟩ : ∃ k, j = k + 1 := by
      have := Finset.card_pos.mpr ⟨_, hname⟩
      exact ⟨j - 1, by omega⟩
    -- the arguments are put in and then changed, which is putting in the changed arguments
    rw [← Tree.substitute_of_not_variable hkind',
      Tree.substitute_substitute fun x hx => hregular.isSome_binding hlen hx]
    refine (Unfolds.body hmacros hT (hj j (Nat.lt_succ_self j)) hm hA hname
      (h.2 hkind _ hbody) (fun u g hu => henters u g (hvisits u hu)) ?_).mono (Nat.le_succ _)
    intro x e he
    obtain ⟨a, ha, rfl⟩ := Option.map_eq_some_iff.mp he
    refine ⟨a, ha, fun hva => ?_⟩
    have hmem := MacroDef.mem_of_binding ha
    have hsize := Tree.size_lt_of_mem_children hmem
    refine (hargs a hmem (hvisits a hva)).mono ?_
    gcongr
    omega
  · obtain ⟨k, hk⟩ : ∃ k, t.size = k + 2 := ⟨t.size - 2, by omega⟩
    rw [hk, Nat.add_sub_cancel]
    nlinarith

theorem depthInside (j : Nat) : DepthInside macros T j := by
  -- a call goes on with fewer macros to enter, all other steps go on with a smaller expression
  induction j using Nat.strong_induction_on with
  | _ j ihj =>
    intro A hA n d t σ ht h henters hσ
    induction hsize : t.size using Nat.strong_induction_on generalizing n t with
    | _ size ih =>
      subst hsize
      have hpos := t.size_pos
      by_cases hvar : t.kind = "variable"
      · rw [Tree.substitute_of_variable hvar]
        cases hx : σ t.name with
        | none => exact .of_variable hvar (by positivity)
        | some e => exact (hσ t e (.here t) hvar hx).mono (Nat.le_add_left ..)
      obtain ⟨n, rfl⟩ : ∃ k, n = k + 1 := by
        cases n with
        | zero => exact h.elim
        | succ n => exact ⟨n, rfl⟩
      have hshape := ht
      cases ht with
      | reference hkind => exact absurd hkind hvar
      | @form s _ ops hops _ _ _ hshaped =>
        refine .form_substitute hvar hops fun q hq => ?_
        have hlt := Tree.size_lt_of_mem_children (mem_children_of_mem_operands hops hq)
        exact ih _ hlt n q.2 (hshaped q hq) (h.1 s ops hops q hq)
          (fun u g hu => henters u g (.operand hops hq hu))
          (fun x e hx => hσ x e (.operand hops hq hx)) rfl
      | @call _ callee args rest hkind hchildren hcallee hargs hshaped =>
        refine .call_substitute hmacros hT ihj hA hshape hkind hchildren h henters fun a ha hva => ?_
        have hlt : args.size < t.size := Tree.size_lt_of_mem_children (by rw [hchildren]; simp)
        have hsize := Tree.size_lt_of_mem_children ha
        obtain ⟨k, -, hk⟩ := h.of_visits hva
        exact ih a.size (by omega) k a (hshaped a ha) hk
          (fun u g hu => henters u g (hva.trans hu)) (fun x e hx => hσ x e (hva.trans hx)) rfl

omit hmacros hT in
theorem Enters.mem_names {u : Tree} {g : String} (h : Enters macros u g) :
    g ∈ (macros.map Prod.fst).toFinset := by
  obtain ⟨_, rfl, body, hbody⟩ := h
  obtain ⟨callee, args, rest, m, hchildren, hm, -⟩ := expansion_eq_some hbody
  rw [Tree.calledName_of_children hchildren, List.mem_toFinset]
  exact List.mem_map_of_mem (mem_of_lookup hm)

omit hmacros hT in
theorem card_names_le : (macros.map Prod.fst).toFinset.card ≤ macros.length := by
  have h := List.toFinset_card_le (macros.map Prod.fst)
  rwa [List.length_map] at h

/-- An expression that unfolds does so to a depth that depends on its size and on the macros. -/
theorem Unfolds.bounded {n : Nat} {t : Tree} (h : Unfolds macros n t) :
    Unfolds macros (t.size * (bodyDepth T macros.length + 2)) t := by
  induction hsize : t.size using Nat.strong_induction_on generalizing n t with
  | _ size ih =>
    subst hsize
    cases n with
    | zero => exact h.elim
    | succ n =>
      have hpos := t.size_pos
      -- a call enters one macro more than its body does, and its arguments are smaller
      by_cases hkind : t.kind = "call"
      · refine (Unfolds.of_call
          (n := bodyDepth T macros.length + (t.size - 2) * (bodyDepth T macros.length + 2) + 1)
          hkind ?_).mono ?_
        · intro body hbody
          obtain ⟨callee, args, rest, m, hchildren, hm, hcall⟩ := expansion_eq_some hbody
          obtain ⟨-, rfl⟩ := (hmacros _ (mem_of_lookup hm)).call_eq_some.mp hcall
          have hname := Enters.mem_names
            ⟨hkind, Tree.calledName_of_children hchildren, _, hbody⟩
          by_cases hbare : m.body.kind = "variable"
          · exact .of_variable (by simpa using hbare) (Nat.succ_pos _)
          have hunfolds := h.2 hkind _ hbody
          rw [← Tree.substitute_of_not_variable hbare] at hunfolds ⊢
          obtain ⟨j, hj⟩ : ∃ k, macros.length = k + 1 := by
            have := List.length_pos_of_mem (mem_of_lookup hm)
            exact ⟨macros.length - 1, by omega⟩
          rw [hj]
          refine (Unfolds.body hmacros hT (depthInside hmacros hT j) hm (hj ▸ card_names_le) hname
            hunfolds (fun u g _ hu => hu.mem_names) ?_).mono (Nat.le_succ _)
          intro x a ha
          refine ⟨a, ha, fun hva => ?_⟩
          obtain ⟨k, -, hk⟩ := hunfolds.of_visits hva
          have hsize := Tree.size_lt_of_mem_children (MacroDef.mem_of_binding ha)
          have hargs : args.size < t.size :=
            Tree.size_lt_of_mem_children (by rw [hchildren]; simp)
          refine (hj ▸ ih a.size (by omega) hk rfl).mono ?_
          gcongr
          omega
        · obtain ⟨k, hk⟩ : ∃ k, t.size = k + 1 := ⟨t.size - 1, by omega⟩
          have hle : (k - 1) * (bodyDepth T macros.length + 2) ≤
              k * (bodyDepth T macros.length + 2) := Nat.mul_le_mul_right _ (Nat.sub_le ..)
          rw [hk, Nat.succ_mul, show k + 1 - 2 = k - 1 by omega]
          omega
      · refine (?_ : Unfolds macros ((t.size - 1) * (bodyDepth T macros.length + 2) + 1) t).mono ?_
        · refine ⟨fun s ops hops p hp => ?_, fun hkind' => absurd hkind' hkind⟩
          have hlt := Tree.size_lt_of_mem_children (mem_children_of_mem_operands hops hp)
          refine (ih _ hlt (h.1 s ops hops p hp) rfl).mono ?_
          gcongr
          omega
        · obtain ⟨k, hk⟩ : ∃ k, t.size = k + 1 := ⟨t.size - 1, by omega⟩
          rw [hk, Nat.add_sub_cancel]
          nlinarith

omit hT in
/-- If the bodies of the macros that an expression calls unfold, then so does the expression. -/
theorem exists_unfolds {t : Tree}
    (h : ∀ c ∈ t.calls, ∀ m, macros.lookup c.calledName = some m → ∃ n, Unfolds macros n m.body) :
    ∃ n, Unfolds macros n t := by
  induction hsize : t.size using Nat.strong_induction_on generalizing t with
  | _ size ih =>
    subst hsize
    by_cases hkind : t.kind = "call"
    · cases hbody : expansion? macros t with
      | none => exact ⟨1, .of_call hkind fun body hbody' => by rw [hbody] at hbody'; cases hbody'⟩
      | some body =>
        -- the body unfolds by itself and so do the arguments; hence also the body with them put in
        suffices hunfolds : ∃ n, Unfolds macros n body by
          obtain ⟨n, hn⟩ := hunfolds
          exact ⟨n + 1, .of_call hkind fun body' hbody' => by
            rw [hbody] at hbody'; rwa [← Option.some.inj hbody']⟩
        obtain ⟨callee, args, rest, m, hchildren, hm, hcall⟩ := expansion_eq_some hbody
        have hregular := hmacros _ (mem_of_lookup hm)
        obtain ⟨-, rfl⟩ := hregular.call_eq_some.mp hcall
        by_cases hbare : m.body.kind = "variable"
        · exact ⟨1, .of_variable (by simpa using hbare) Nat.one_pos⟩
        have hargs : args ∈ t.children := by rw [hchildren]; simp
        have hunfolds : ∀ a ∈ args.children, ∃ n, Unfolds macros n a := by
          intro a ha
          have hlt := Tree.size_lt_of_mem_children ha
          have hlt' := Tree.size_lt_of_mem_children hargs
          exact ih a.size (by omega)
            (fun c hc => h c (Tree.mem_find_of_child hargs (Tree.mem_find_of_child ha hc))) rfl
        obtain ⟨d, hd⟩ := exists_unfolds_forall hunfolds
        obtain ⟨n, hn⟩ := h t (Tree.self_mem_find (beq_iff_eq.mpr hkind)) m
          (by rwa [Tree.calledName_of_children hchildren])
        rw [← Tree.substitute_of_not_variable hbare]
        exact ⟨_, depthInside hmacros (fun p hp => body_size_le_total hp) macros.length _
          card_names_le n d m.body _ hregular.shaped hn (fun u g _ hu => hu.mem_names)
          fun x e _ _ he => hd e (MacroDef.mem_of_binding he)⟩
    · by_cases hops : ∃ s ops, operands s t = some ops
      · obtain ⟨s, ops, hops⟩ := hops
        have hunfolds : ∀ e ∈ ops.map Prod.snd, ∃ n, Unfolds macros n e := by
          intro e he
          obtain ⟨p, hp, rfl⟩ := List.mem_map.mp he
          have hchild := mem_children_of_mem_operands hops hp
          exact ih p.2.size (Tree.size_lt_of_mem_children hchild)
            (fun c hc => h c (Tree.mem_find_of_child hchild hc)) rfl
        obtain ⟨n, hn⟩ := exists_unfolds_forall hunfolds
        exact ⟨n + 1, .of_operands hops fun p hp => hn p.2 (List.mem_map_of_mem hp)⟩
      · exact ⟨1, fun s ops hops' => absurd ⟨s, ops, hops'⟩ hops, fun hk => absurd hk hkind⟩

end

theorem bodyDepth_le (T j : Nat) : bodyDepth T j + 2 ≤ 2 * (T + 1) ^ j := by
  induction j with
  | zero => exact le_rfl
  | succ j ih =>
    calc bodyDepth T (j + 1) + 2 = T * (bodyDepth T j + 2) + 2 := rfl
      _ ≤ (T + 1) * (bodyDepth T j + 2) := by nlinarith
      _ ≤ (T + 1) * (2 * (T + 1) ^ j) := Nat.mul_le_mul_left _ ih
      _ = 2 * (T + 1) ^ (j + 1) := by ring

/-- An expression that unfolds does so within the limit of the evaluators. -/
theorem unfolds_depthBound {env : Env} (hmacros : ∀ p ∈ env.macros, p.2.Regular) {n : Nat}
    {t : Tree} (h : Unfolds env.macros n t) : Unfolds env.macros (depthBound env t) t := by
  refine (h.bounded hmacros fun p hp => body_size_le_total hp).mono ?_
  have hpos := t.size_pos
  unfold depthBound
  generalize total (env.macros.map (·.2.body.size)) = T
  have hbase : T + 1 ≤ t.size + T + 1 := by omega
  calc t.size * (bodyDepth T env.macros.length + 2)
      ≤ (t.size + T + 1) * (2 * (T + 1) ^ env.macros.length) :=
        Nat.mul_le_mul (by omega) (bodyDepth_le T _)
    _ ≤ (t.size + T + 1) * ((t.size + T + 1) * (t.size + T + 1) ^ env.macros.length) :=
        Nat.mul_le_mul_left _ (Nat.mul_le_mul (by omega) (Nat.pow_le_pow_left hbase _))
    _ = (t.size + T + 1) ^ (env.macros.length + 2) := by ring

/-! ## The evaluators reach every value -/

section

variable {env : Env} {s : ValueSort} {n : Nat} {t : Tree} {v : Value}

/-- The limit of depth is not met by an expression that unfolds within it. -/
theorem Unfolds.not_endless (h : Unfolds env.macros n t) :
    ¬ (evaluateAt env s n t).Ends (.error (.fault .endlessExpansion)) := by
  induction n generalizing s t with
  | zero => exact h.elim
  | succ n ih =>
    intro hends
    cases levelEnds_of_ends hends with
    | operand hops hp hfail => exact ih (h.1 _ _ hops _ hp) hfail
    | body hkind hbody hfail => exact ih (h.2 hkind _ (expansion_of_sorted hbody)) hfail
    | malformed _ hf => exact hf rfl

/-- An expression that has a value unfolds. -/
theorem Yields.unfolds (h : Yields env s t v) : ∃ n, Unfolds env.macros n t := by
  induction h with
  | reference hkind => exact ⟨1, .of_variable hkind Nat.one_pos⟩
  | @call s t body v hkind hbody _ ih =>
    obtain ⟨n, hn⟩ := ih
    refine ⟨n + 1, .of_call hkind fun body' hbody' => ?_⟩
    rw [expansion_of_sorted hbody] at hbody'
    rwa [← Option.some.inj hbody']
  | @form s t ops vs v hops hlen _ _ ih =>
    have hexists : ∀ e ∈ ops.map Prod.snd, ∃ n, Unfolds env.macros n e := by
      intro e he
      obtain ⟨p, hp, rfl⟩ := List.mem_map.mp he
      obtain ⟨w, -, hw⟩ := exists_of_forall₂
        (List.forall₂_iff_zip.mpr ⟨hlen, fun {p w} hpw => ih hpw⟩) hp
      exact hw
    obtain ⟨n, hn⟩ := exists_unfolds_forall hexists
    exact ⟨n + 1, .of_operands hops fun p hp => hn p.2 (List.mem_map_of_mem hp)⟩

/-- A node that has a value is not malformed. -/
theorem Yields.not_malformed (h : Yields env s t v) : ¬ Malformed s t := by
  intro hm
  cases hm with
  | parts _ hvar hcall hnone => exact Yields.not_of_kind hvar hcall hnone v h
  | call hkind hshort =>
    refine Yields.not_of_call hkind ?_ v h
    unfold sortedExpansion?
    split
    · next hc =>
      rw [hc] at hshort
      simp at hshort
    · rfl
  | literal hkind hvalue =>
    have hf : NumForm.ofKind? t.kind = some .literal := by rw [hkind]; rfl
    refine Yields.not_of_build (NumForm.operands_eq hf rfl) .nil ?_ v h
    rw [build, hf]
    show ((literalOf t.value).toOption.map _).map _ = none
    rw [hvalue]
    rfl
  | empty hkind hnone =>
    rcases hkind with hkind | hkind
    · have hf : VecForm.ofKind? t.kind = some .literal := by rw [hkind]; rfl
      cases s with
      | vector =>
        have hops := VecForm.operands_eq hf rfl
        rw [hnone] at hops
        exact Yields.not_of_build hops .nil (by rw [build, hf]; rfl) v h
      | _ =>
        exact Yields.not_of_kind (by rw [hkind]; decide) (by rw [hkind]; decide)
          (by rw [operands, hkind]; rfl) v h
    · have hf : MatForm.ofKind? t.kind = some .literal := by rw [hkind]; rfl
      cases s with
      | matrix =>
        have hops := MatForm.operands_eq hf rfl
        rw [hnone] at hops
        exact Yields.not_of_build hops .nil (by rw [build, hf]; rfl) v h
      | _ =>
        exact Yields.not_of_kind (by rw [hkind]; decide) (by rw [hkind]; decide)
          (by rw [operands, hkind]; rfl) v h

/-- An evaluator with enough depth ends with the value of its expression. -/
theorem Yields.ok_of_ends (h : Yields env s t v) (hn : Unfolds env.macros n t)
    {r : Except Failure Value} (hends : (evaluateAt env s n t).Ends r) : r = .ok v := by
  induction n generalizing s t v r with
  | zero => exact hn.elim
  | succ n ih =>
    cases levelEnds_of_ends hends with
    | value hv => rw [h.unique hv]
    | operand hops hp hfail =>
      obtain ⟨vs, hvs, -⟩ := h.of_operands hops
      obtain ⟨w, -, hw⟩ := exists_of_forall₂ hvs hp
      cases ih hw (hn.1 _ _ hops _ hp) hfail
    | body hkind hbody hfail =>
      cases ih (h.of_body hkind hbody) (hn.2 hkind _ (expansion_of_sorted hbody)) hfail
    | rejected hno => exact (hno v h).elim
    | malformed hm => exact (h.not_malformed hm).elim

/-- The value of an expression of the given sort. -/
def evaluate (env : Env) (s : ValueSort) (t : Tree) : Traced Value :=
  match s with
  | .number => Value.number <$> evalNumber env t
  | .vector => Value.vector <$> evalVector env t
  | .matrix => Value.matrix <$> evalMatrix env t

theorem evaluate_eq_evaluateAt : evaluate env s t = evaluateAt env s (depthBound env t) t := by
  cases s <;> rfl

/-- A result of an evaluator is what its expression yields, whatever the limit of depth. -/
theorem yields_of_evaluateAt (h : (evaluateAt env s n t).Returns v) : Yields env s t v := by
  cases n with
  | zero => cases evaluateAt_zero_ends h.ends
  | succ n => cases levelEnds_of_ends h.ends with | value h => exact h

/-- The evaluators return exactly the values that expressions yield, from every trace. -/
theorem evaluate_eq_ok_iff (hmacros : ∀ p ∈ env.macros, p.2.Regular) (trace : Trace) :
    ((evaluate env s t).runFrom trace).1 = .ok v ↔ Yields env s t v := by
  rw [evaluate_eq_evaluateAt]
  constructor
  · intro h
    exact yields_of_evaluateAt (h ▸ ends_runFrom _ trace)
  · intro h
    obtain ⟨n, hn⟩ := h.unfolds
    exact h.ok_of_ends (unfolds_depthBound hmacros hn) (ends_runFrom _ trace)

end

end Scalarize
