import Scalarize.Proofs.EnvironmentInvariant

/-!
# Scalarize — the order of imports and exports

Imports and exports are tested one after the other against the aliases and targets that are there.
Almost all of these tests say the same of two operations in either order. One does not: an export
asks that its target is not the alias of an import, but an import does not ask that its alias is not
the target of an export. So an import bars some exports if it comes before them, and does not if it
comes after them; nothing else depends on the order.

* **`AliasOp.Conflicts`**, **`AliasOp.Bars`** — the tests between two operations, with and without
  symmetry.
* **`Env.addAliases_eq_ok`** — a row of operations succeeds if and only if the environment takes
  each of them, and no operation conflicts with a later one or bars it.
* **`Env.addAliases_perm`** — what becomes of a row that succeeds when its order is changed.
-/

namespace Scalarize

/-- An operation on the aliases of an environment. -/
inductive AliasOp where
  | importing (name target : String)
  | exporting (name target : String)
deriving DecidableEq

namespace AliasOp

/-- The name in the surroundings. -/
def target : AliasOp → String
  | importing _ target => target
  | exporting _ target => target

/-- What an operation adds to the imports. -/
def imports : AliasOp → List (String × String)
  | importing name target => [(name, target)]
  | exporting _ _ => []

/-- What an operation adds to the exports. -/
def exports : AliasOp → List (String × String)
  | importing _ _ => []
  | exporting name target => [(name, target)]

/-- No environment takes both operations, in whatever order: they have one target, or they are two
imports under one alias or two exports of one variable. -/
def Conflicts : AliasOp → AliasOp → Prop
  | importing name target, importing name' target' => name = name' ∨ target = target'
  | exporting name target, exporting name' target' => name = name' ∨ target = target'
  | p, q => p.target = q.target

/-- The first operation is an import, and its alias is the target of the second, an export. -/
def Bars : AliasOp → AliasOp → Prop
  | importing name _, exporting _ target => name = target
  | _, _ => False

instance : DecidableRel Conflicts
  | importing _ _, importing _ _ => inferInstanceAs (Decidable (_ ∨ _))
  | exporting _ _, exporting _ _ => inferInstanceAs (Decidable (_ ∨ _))
  | importing _ _, exporting _ _ => inferInstanceAs (Decidable (_ = _))
  | exporting _ _, importing _ _ => inferInstanceAs (Decidable (_ = _))

instance : DecidableRel Bars
  | importing _ _, exporting _ _ => inferInstanceAs (Decidable (_ = _))
  | importing _ _, importing _ _ => .isFalse id
  | exporting _ _, importing _ _ => .isFalse id
  | exporting _ _, exporting _ _ => .isFalse id

theorem Conflicts.symm {p q : AliasOp} (h : p.Conflicts q) : q.Conflicts p := by
  cases p <;> cases q <;> simp only [Conflicts, target, eq_comm] at h ⊢ <;> exact h

theorem Bars.ne {p q : AliasOp} (h : p.Bars q) : p ≠ q := by
  rintro rfl
  cases p <;> exact h

end AliasOp

namespace Env

/-- Carry out an operation. -/
def addAlias (env : Env) : AliasOp → Except Diagnostic Env
  | .importing name target => env.addImport name target
  | .exporting name target => env.addExport name target

/-- Carry out operations in a row, up to the first that fails. -/
def addAliases (env : Env) (ops : List AliasOp) : Except Diagnostic Env :=
  ops.foldlM addAlias env

/-- The environment with what the operations add, whether it takes them or not. -/
def withAliases (env : Env) (ops : List AliasOp) : Env :=
  { env with
    imports := env.imports ++ ops.flatMap AliasOp.imports
    exports := env.exports ++ ops.flatMap AliasOp.exports }

/-- The environment takes the operation. -/
def Admits (env : Env) : AliasOp → Prop
  | .importing name target =>
    env.imports.lookup name = none ∧ target ∉ env.importTargets ∧ target ∉ env.exportTargets
  | .exporting name target =>
    (∃ b, env.binding? name = some b) ∧ env.exports.lookup name = none ∧
      target ∉ env.exportTargets ∧ env.imports.lookup target = none ∧ target ∉ env.importTargets

variable {env env' env₁ : Env} {ops ops' : List AliasOp}

/-! ## One operation -/

theorem addAlias_eq_ok {op : AliasOp} :
    env.addAlias op = .ok env' ↔ env.Admits op ∧ env' = env.withAliases [op] := by
  cases op with
  | importing name target =>
    rw [addAlias, addImport_eq_ok, Admits, and_assoc, and_assoc]
    simp [withAliases, AliasOp.imports, AliasOp.exports]
  | exporting name target =>
    rw [addAlias, addExport_eq_ok, Admits, and_assoc, and_assoc, and_assoc, and_assoc]
    simp [withAliases, AliasOp.imports, AliasOp.exports]

theorem lookup_append_singleton {l : List (String × String)} {k name target : String} :
    (l ++ [(name, target)]).lookup k = none ↔ l.lookup k = none ∧ name ≠ k := by
  rw [List.lookup_append, Option.or_eq_none_iff, List.lookup_singleton]
  refine and_congr_right fun _ => ?_
  by_cases h : k = name
  · simp [h]
  · simp [h, Ne.symm h]

/-- What the environment takes after an operation: all that it took before, less what conflicts with
the operation or is barred by it. -/
theorem admits_withAliases_singleton {p q : AliasOp} :
    (env.withAliases [p]).Admits q ↔ env.Admits q ∧ ¬ p.Conflicts q ∧ ¬ p.Bars q := by
  cases p <;> cases q <;>
    simp only [Admits, withAliases, AliasOp.imports, AliasOp.exports, AliasOp.Conflicts,
      AliasOp.Bars, AliasOp.target, importTargets, exportTargets, List.flatMap_cons,
      List.flatMap_nil, List.append_nil, List.map_append, List.map_cons, List.map_nil,
      List.mem_append, List.mem_singleton, lookup_append_singleton, not_or, not_false_eq_true,
      and_true, ne_eq, @eq_comm String] <;>
    tauto

theorem withAliases_cons (p : AliasOp) (ops : List AliasOp) :
    (env.withAliases [p]).withAliases ops = env.withAliases (p :: ops) := by
  simp [withAliases]

/-! ## Operations in a row -/

/-- A row of operations succeeds if and only if the environment takes each of them, and none
conflicts with a later one or bars it. -/
theorem addAliases_eq_ok :
    env.addAliases ops = .ok env' ↔ (∀ op ∈ ops, env.Admits op) ∧
      ops.Pairwise (fun p q => ¬ p.Conflicts q ∧ ¬ p.Bars q) ∧ env' = env.withAliases ops := by
  induction ops generalizing env with
  | nil => simp [addAliases, withAliases, pure, Except.pure, eq_comm]
  | cons p ops ih =>
    have hstep : env.addAliases (p :: ops) = .ok env' ↔
        env.Admits p ∧ (env.withAliases [p]).addAliases ops = .ok env' := by
      rw [addAliases, List.foldlM_cons]
      cases hp : env.addAlias p with
      | ok env₁ =>
        obtain ⟨hadmits, rfl⟩ := addAlias_eq_ok.mp hp
        exact ⟨fun h => ⟨hadmits, h⟩, fun h => h.2⟩
      | error d =>
        refine ⟨fun h => (by cases h), fun h => ?_⟩
        rw [addAlias_eq_ok.mpr ⟨h.1, rfl⟩] at hp
        cases hp
    rw [hstep, ih, withAliases_cons, List.forall_mem_cons, List.pairwise_cons]
    simp only [admits_withAliases_singleton, forall_and]
    tauto

/-- A row that fails does so at one operation, after a row that succeeds. -/
theorem addAliases_eq_error {d : Diagnostic} (h : env.addAliases ops = .error d) :
    ∃ before op after env₁, ops = before ++ op :: after ∧ env.addAliases before = .ok env₁ ∧
      env₁.addAlias op = .error d := by
  induction ops generalizing env with
  | nil => cases h
  | cons p ops ih =>
    rw [addAliases, List.foldlM_cons] at h
    cases hp : env.addAlias p with
    | error d' =>
      rw [hp] at h
      cases h
      exact ⟨[], p, ops, env, rfl, rfl, hp⟩
    | ok env₁ =>
      rw [hp] at h
      obtain ⟨before, op, after, env₂, rfl, hbefore, hop⟩ := ih h
      refine ⟨p :: before, op, after, env₂, rfl, ?_, hop⟩
      rw [addAliases, List.foldlM_cons, hp]
      exact hbefore

theorem addExport_eq_error {name target : String} {d : Diagnostic}
    (h : env.addExport name target = .error d) (hb : ∃ b, env.binding? name = some b)
    (hname : env.exports.lookup name = none) : d = .exportTargetTaken target := by
  obtain ⟨b, hb⟩ := hb
  rw [addExport, hb, hname, if_neg (by simp), if_neg (by simp)] at h
  split at h
  · exact (Except.error.inj h).symm
  · cases h

/-- Operations without conflicts that the environment takes one by one can fail together only at an
export, and only because an import before it bars it. -/
theorem barred_of_addAliases {d : Diagnostic} (hadmits : ∀ op ∈ ops, env.Admits op)
    (hpairs : ops.Pairwise fun p q => ¬ p.Conflicts q) (h : env.addAliases ops = .error d) :
    ∃ p q, [p, q].Sublist ops ∧ p.Bars q ∧ d = .exportTargetTaken q.target := by
  obtain ⟨before, q, after, env₁, rfl, hbefore, hq⟩ := addAliases_eq_error h
  obtain ⟨-, hpairs_before, rfl⟩ := addAliases_eq_ok.mp hbefore
  rw [List.pairwise_append] at hpairs
  have hclear : ∀ p ∈ before, ¬ p.Conflicts q := fun p hp =>
    hpairs.2.2 p hp q List.mem_cons_self
  have hadmits_q : env.Admits q := hadmits q (by simp)
  -- with nothing in its way the operation would have been carried out
  obtain ⟨p, hp, hbars⟩ : ∃ p ∈ before, p.Bars q := by
    by_contra hnone
    push Not at hnone
    have hok : env.addAliases (before ++ [q]) = .ok (env.withAliases (before ++ [q])) := by
      refine addAliases_eq_ok.mpr ⟨fun op hop => hadmits op ?_, ?_, rfl⟩
      · rcases List.mem_append.mp hop with hop | hop
        · exact List.mem_append_left _ hop
        · rw [List.mem_singleton.mp hop]
          simp
      · refine List.pairwise_append.mpr ⟨hpairs_before, List.pairwise_singleton _ _, ?_⟩
        exact fun p hp r hr => List.mem_singleton.mp hr ▸ ⟨hclear p hp, hnone p hp⟩
    rw [addAliases, List.foldlM_append, ← addAliases, hbefore] at hok
    change (env.withAliases before).addAliases [q] = _ at hok
    rw [addAliases, List.foldlM_cons, hq] at hok
    cases hok
  refine ⟨p, q, ?_, hbars, ?_⟩
  · exact List.cons_sublist_iff.mpr ⟨before, q :: after, rfl, hp, by simp⟩
  · cases q with
    | importing name target => cases p <;> exact hbars.elim
    | exporting name target =>
      obtain ⟨hb, hname, -⟩ := hadmits_q
      refine addExport_eq_error hq hb ?_
      show (env.exports ++ before.flatMap AliasOp.exports).lookup name = none
      rw [List.lookup_append, hname, Option.none_or, List.lookup_eq_none_iff]
      intro e he
      obtain ⟨r, hr, he⟩ := List.mem_flatMap.mp he
      cases r with
      | importing name' target' => cases he
      | exporting name' target' =>
        rw [List.mem_singleton.mp he]
        exact bne_iff_ne.mpr fun heq => hclear _ hr (.inl heq.symm)

/-! ## Other orders -/

/-- Keys that occur once have the same entries in every order. -/
theorem lookup_of_perm {l l' : List (String × String)} (hperm : l.Perm l')
    (hkeys : l.Pairwise fun p q => p.1 ≠ q.1) (k : String) : l.lookup k = l'.lookup k := by
  induction hperm with
  | nil => rfl
  | cons p _ ih =>
    rw [List.lookup_cons, List.lookup_cons, ih (List.pairwise_cons.mp hkeys).2]
  | swap p q l =>
    have hne : q.1 ≠ p.1 := (List.pairwise_cons.mp hkeys).1 p List.mem_cons_self
    rw [List.lookup_cons, List.lookup_cons, List.lookup_cons, List.lookup_cons]
    by_cases hq : k = q.1
    · rw [hq, beq_self_eq_true, beq_false_of_ne hne]
    · rw [beq_false_of_ne hq]
  | trans h₁ _ ih₁ ih₂ =>
    exact (ih₁ hkeys).trans (ih₂ (h₁.pairwise hkeys fun h => h.symm))

/-- The environments have the same imports and exports in perhaps another order, and all else is
equal. -/
structure SameAliases (env₁ env₂ : Env) : Prop where
  imports : env₁.imports.Perm env₂.imports
  exports : env₁.exports.Perm env₂.exports
  lookup_imports : ∀ name, env₁.imports.lookup name = env₂.imports.lookup name
  lookup_exports : ∀ name, env₁.exports.lookup name = env₂.exports.lookup name
  others : { env₁ with imports := env₂.imports, exports := env₂.exports } = env₂

/-- Operations in another order add the same, if they do not conflict. -/
theorem sameAliases_of_perm (hperm : ops.Perm ops')
    (hpairs : ops.Pairwise fun p q => ¬ p.Conflicts q) :
    (env.withAliases ops').SameAliases (env.withAliases ops) := by
  have himports := hperm.flatMap_right AliasOp.imports
  have hexports := hperm.flatMap_right AliasOp.exports
  have hkeys : (ops.flatMap AliasOp.imports).Pairwise (fun p q => p.1 ≠ q.1) ∧
      (ops.flatMap AliasOp.exports).Pairwise fun p q => p.1 ≠ q.1 := by
    constructor <;>
    · refine List.pairwise_flatMap.mpr ⟨fun op _ => ?_, ?_⟩
      · cases op <;> simp [AliasOp.imports, AliasOp.exports]
      · refine hpairs.imp fun {p q} hpq x hx y hy heq => hpq ?_
        cases p <;> cases q <;>
          simp only [AliasOp.imports, AliasOp.exports, List.mem_singleton, List.not_mem_nil]
            at hx hy
        subst hx hy
        exact .inl heq
  refine ⟨himports.symm.append_left _, hexports.symm.append_left _, fun name => ?_, fun name => ?_,
    rfl⟩
  · show (env.imports ++ _).lookup name = (env.imports ++ _).lookup name
    rw [List.lookup_append, List.lookup_append, lookup_of_perm himports hkeys.1]
  · show (env.exports ++ _).lookup name = (env.exports ++ _).lookup name
    rw [List.lookup_append, List.lookup_append, lookup_of_perm hexports hkeys.2]

/-- Operations that succeed in one order succeed in another if and only if there no import comes
before an export that it bars. All orders that succeed lead to the same aliases, and those that do
not fail at an export that an import before it bars. So all orders succeed if and only if no export
is barred by an import. -/
theorem addAliases_perm (h : env.addAliases ops = .ok env₁) :
    (∀ ops', ops.Perm ops' →
      ((∃ env₂, env.addAliases ops' = .ok env₂) ↔ ops'.Pairwise fun p q => ¬ p.Bars q) ∧
      (∀ env₂, env.addAliases ops' = .ok env₂ → env₂.SameAliases env₁) ∧
      ∀ d, env.addAliases ops' = .error d →
        ∃ p q, [p, q].Sublist ops' ∧ p.Bars q ∧ d = .exportTargetTaken q.target) ∧
    ((∀ ops', ops.Perm ops' → ∃ env₂, env.addAliases ops' = .ok env₂) ↔
      ∀ p ∈ ops, ∀ q ∈ ops, ¬ p.Bars q) := by
  obtain ⟨hadmits, hpairs, rfl⟩ := addAliases_eq_ok.mp h
  have hclear : ops.Pairwise fun p q => ¬ p.Conflicts q := hpairs.imp fun hpq => hpq.1
  have hperm_clear : ∀ ops', ops.Perm ops' → ops'.Pairwise fun p q => ¬ p.Conflicts q :=
    fun ops' hperm => hperm.pairwise hclear fun hpq hqp => hpq hqp.symm
  have hok : ∀ ops', ops.Perm ops' →
      ((∃ env₂, env.addAliases ops' = .ok env₂) ↔ ops'.Pairwise fun p q => ¬ p.Bars q) := by
    refine fun ops' hperm => ⟨fun hok => ?_, fun hbars => ⟨env.withAliases ops', ?_⟩⟩
    · obtain ⟨env₂, h₂⟩ := hok
      exact (addAliases_eq_ok.mp h₂).2.1.imp fun hpq => hpq.2
    · refine addAliases_eq_ok.mpr ⟨fun op hop => hadmits op (hperm.mem_iff.mpr hop), ?_, rfl⟩
      exact (hperm_clear ops' hperm).and hbars
  refine ⟨fun ops' hperm => ⟨hok ops' hperm, fun env₂ h₂ => ?_, fun d hd => ?_⟩, ?_, ?_⟩
  · rw [(addAliases_eq_ok.mp h₂).2.2]
    exact sameAliases_of_perm hperm hclear
  · exact barred_of_addAliases (fun op hop => hadmits op (hperm.mem_iff.mpr hop))
      (hperm_clear ops' hperm) hd
  · intro hall p hp q hq hbars
    -- the order in which the two come first
    have hperm : ops.Perm (p :: q :: (ops.erase p).erase q) := by
      refine (List.perm_cons_erase hp).trans (.cons p (List.perm_cons_erase ?_))
      exact (List.mem_erase_of_ne hbars.ne.symm).mpr hq
    have hpairwise := (hok _ hperm).mp (hall _ hperm)
    exact (List.pairwise_cons.mp hpairwise).1 q List.mem_cons_self hbars
  · intro hnone ops' hperm
    refine (hok ops' hperm).mpr (List.pairwise_of_forall_mem_list ?_)
    exact fun p hp q hq => hnone p (hperm.mem_iff.mpr hp) q (hperm.mem_iff.mpr hq)

/-- An environment with one variable. -/
def withVariable : Env :=
  { empty with numNext := 1, bindings := [⟨"A", .number (.name (numName 0)), 0⟩] }

theorem withVariable_reachable : withVariable.Reachable :=
  .bind .empty (rfl : bind .empty "A" (.number (.ofInt 1)) = .ok (withVariable, _))

/-- An export under the alias of a later import, and another import. -/
theorem addAliases_perm_shared :
    ∃ env₁, withVariable.addAliases
        [.exporting "A" "b", .importing "b" "x", .importing "c" "y"] = .ok env₁ ∧
      (∃ env₂, withVariable.addAliases
        [.importing "c" "y", .exporting "A" "b", .importing "b" "x"] = .ok env₂ ∧
          env₂.SameAliases env₁) ∧
      ¬ ∃ env₂, withVariable.addAliases
        [.importing "b" "x", .importing "c" "y", .exporting "A" "b"] = .ok env₂ := by
  have h : withVariable.addAliases
      [.exporting "A" "b", .importing "b" "x", .importing "c" "y"] = .ok _ := rfl
  have horders := (addAliases_perm h).1
  refine ⟨_, h, ?_, ?_⟩
  · obtain ⟨hok, hsame, -⟩ := horders [.importing "c" "y", .exporting "A" "b", .importing "b" "x"]
      (by decide)
    obtain ⟨env₂, h₂⟩ := hok.mpr (by decide)
    exact ⟨env₂, h₂, hsame env₂ h₂⟩
  · obtain ⟨hok, -⟩ := horders [.importing "b" "x", .importing "c" "y", .exporting "A" "b"]
      (by decide)
    exact fun h => absurd (hok.mp h) (by decide)

/-- An import may follow an export whose target is its alias, but not come before it. -/
theorem addAliases_depends_on_order :
    withVariable.Reachable ∧ (∃ b, withVariable.binding? "A" = some b) ∧
      (∃ env₁, withVariable.addAliases [.exporting "A" "b", .importing "b" "x"] = .ok env₁) ∧
      withVariable.addAliases [.importing "b" "x", .exporting "A" "b"]
        = .error (.exportTargetTaken "b") :=
  ⟨withVariable_reachable, ⟨_, rfl⟩, ⟨_, rfl⟩, rfl⟩

end Env

end Scalarize
