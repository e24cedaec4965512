import Scalarize.Proofs.EnvironmentInvariant
import Scalarize.Proofs.EvaluationDepth
import Scalarize.Proofs.ExternalNames

/-!
# Scalarize — what a reference to an import becomes

A reference to an import is lowered to a variable that is named by the alias. The imports are then
resolved in turn, in the order of the program, and each sees what the earlier ones have made of the
names. So a reference gets the target of its import, unless a later import has this target for its
alias; then it is passed on to the target of that one.

* **`imports_of_lowerProgram`** — the imports of a program in the order in which they are resolved.
* **`Env.importsName_eq_iff`** — a reference gets the target of its import if and only if that
  target is not the alias of a later import.
* **`resolveAliases_imports_in_turn`** — this for whole programs, and for programs with the imports
  in another order.
-/

namespace Scalarize

open Traced

/-! ## The imports of a program -/

/-- The alias and the target of an import. Without an alias, the target is the alias. -/
def Tree.asImport? (t : Tree) : Option (String × String) :=
  match t.children with
  | target :: rest =>
    let target := Text.lower target.name
    match rest with
    | [a] => some (Text.lower a.name, target)
    | _ => some (target, target)
  | [] => none

/-- The imports of a statement. -/
def statementImports (t : Tree) : List (String × String) :=
  if t.kind == "import_group" then t.children.filterMap Tree.asImport? else []

/-- The imports of a program. -/
def sourceImports (program : Tree) : List (String × String) :=
  (sourceStatements program).flatMap statementImports

section

variable {files : FileStore} {env env' : Env} {t : Tree}

theorem imports_of_lowerImport (h : (lowerImport env t).Returns env') :
    env'.imports = env.imports ++ [t].filterMap Tree.asImport? := by
  replace h := h.of_enterStatement
  split at h
  · exact absurd h not_returns_give
  · split at h
    · next target rest hc =>
      obtain ⟨env₁, hadd, h⟩ := h.of_bind
      obtain ⟨_, -, h⟩ := h.of_bind
      rw [h.of_pure, (Env.addImport_eq_ok.mp hadd.of_check).2.2.2, List.filterMap_cons,
        Tree.asImport?, hc]
      rcases rest with _ | ⟨a, _ | ⟨b, rest⟩⟩ <;> rfl
    · exact absurd h not_returns_give

theorem imports_of_lowerImports {ts : List Tree} (h : (ts.foldlM lowerImport env).Returns env') :
    env'.imports = env.imports ++ ts.filterMap Tree.asImport? := by
  induction ts generalizing env with
  | nil =>
    rw [List.foldlM_nil] at h
    rw [h.of_pure, List.filterMap_nil, List.append_nil]
  | cons t ts ih =>
    rw [List.foldlM_cons] at h
    obtain ⟨env₁, ht, h⟩ := h.of_bind
    rw [ih h, imports_of_lowerImport ht, List.append_assoc, ← List.filterMap_append]
    rfl

theorem imports_of_lowerExport (h : (lowerExport env t).Returns env') :
    env'.imports = env.imports := by
  replace h := h.of_enterStatement
  split at h
  · obtain ⟨env₁, hadd, h⟩ := h.of_bind
    obtain ⟨_, -, h⟩ := h.of_bind
    rw [h.of_pure, (Env.addExport_eq_ok.mp hadd.of_check).2.2.2.2.2]
  · exact absurd h not_returns_give

theorem imports_of_lowerDefine (h : (lowerDefine env t).Returns env') :
    env'.imports = env.imports := by
  obtain ⟨d, -, -, hdefine⟩ := define_of_lowerDefine h
  rw [(Env.define_eq_ok.mp hdefine).2.2]

theorem imports_of_lowerUsing (h : (lowerUsing files env t).Returns env') :
    env'.imports = env.imports := by
  rw [lowerUsing] at h
  replace h := h.of_enterStatement
  split at h
  · obtain ⟨definitions, -, hdefines⟩ := h.of_bind
    have hloop := hdefines.reflTransGen_of_foldlM (r := fun a b => b.imports = a.imports)
      fun _ _ _ hstep => imports_of_lowerDefine hstep
    clear h hdefines
    induction hloop with
    | refl => rfl
    | tail _ hstep ih => exact hstep.trans ih
  · exact absurd h not_returns_give

theorem imports_of_lowerLet {line : Tree} (h : (lowerLet env t).Returns (env', line)) :
    env'.imports = env.imports := by
  obtain ⟨l, v, statements, -, -, -, hbind, -⟩ := bind_of_lowerLet h
  rw [(Env.bind_eq_ok.mp hbind).2.2.1]
  cases v.sort <;> rfl

/-- Only a group of imports adds to the imports. -/
theorem imports_of_lowerStatement {line? : Option Tree}
    (h : (lowerStatement files env t).Returns (env', line?)) :
    env'.imports = env.imports ++ statementImports t := by
  by_cases hk : (t.kind == "import_group") = true
  · rw [lowerStatement, if_pos hk] at h
    obtain ⟨env₁, h₁, h⟩ := h.of_bind
    obtain ⟨rfl, -⟩ := Prod.mk.inj h.of_pure
    rw [lowerImportGroup] at h₁
    rw [statementImports, if_pos hk]
    exact imports_of_lowerImports h₁.of_enterStatement
  · rw [lowerStatement, if_neg hk] at h
    rw [statementImports, if_neg hk, List.append_nil]
    -- the other kinds of statements are tried one after the other
    split at h
    · obtain ⟨env₁, h₁, h⟩ := h.of_bind
      obtain ⟨rfl, -⟩ := Prod.mk.inj h.of_pure
      exact imports_of_lowerExport h₁
    split at h
    · obtain ⟨⟨env₁, line⟩, h₁, h⟩ := h.of_bind
      obtain ⟨rfl, -⟩ := Prod.mk.inj h.of_pure
      exact imports_of_lowerLet h₁
    split at h
    · obtain ⟨env₁, h₁, h⟩ := h.of_bind
      obtain ⟨rfl, -⟩ := Prod.mk.inj h.of_pure
      exact imports_of_lowerDefine h₁
    split at h
    · obtain ⟨env₁, h₁, h⟩ := h.of_bind
      obtain ⟨rfl, -⟩ := Prod.mk.inj h.of_pure
      exact imports_of_lowerUsing h₁
    split at h
    · rw [(Prod.mk.inj h.of_pure).1]
    · exact absurd h not_returns_give

theorem imports_of_lowerStatements {ts lines : List Tree}
    (h : (lowerStatements files env ts).Returns (env', lines)) :
    env'.imports = env.imports ++ ts.flatMap statementImports := by
  induction ts generalizing env lines with
  | nil =>
    rw [lowerStatements] at h
    rw [(Prod.mk.inj h.of_pure).1, List.flatMap_nil, List.append_nil]
  | cons t ts ih =>
    rw [lowerStatements] at h
    obtain ⟨⟨env₁, line?⟩, ht, h⟩ := h.of_bind
    obtain ⟨⟨env₂, lines'⟩, hts, h⟩ := h.of_bind
    obtain ⟨rfl, -⟩ := Prod.mk.inj h.of_pure
    rw [ih hts, imports_of_lowerStatement ht, List.append_assoc, List.flatMap_cons]

/-- The environment keeps the imports in the order of the program. -/
theorem imports_of_lowerProgram {program chip : Tree}
    (h : (lowerProgram files .empty program).Returns (env, chip)) :
    env.imports = sourceImports program := by
  unfold lowerProgram at h
  split at h
  · exact absurd h not_returns_give
  · split at h
    · exact absurd h not_returns_give
    · next ts hts =>
      obtain ⟨⟨env₁, lines⟩, hlines, h⟩ := h.of_bind
      obtain ⟨rfl, -⟩ := Prod.mk.inj h.of_pure
      rw [imports_of_lowerStatements hlines, statements_eq hts]
      rfl

/-- A reference is lowered to a variable that is named by the alias. -/
theorem evalNumber_external {name target : String} (h : env.target name = .ok target)
    (trace : Trace) :
    ((evalNumber env (.text "external" name)).runFrom trace).1 = .ok (.name name) := by
  have hbuild : NumForm.external.build env (.text "external" name) [] = some (.name name) := by
    show (env.target name).toOption.map _ = _
    rw [h]
    rfl
  have hrun := evaluate_of_operands (t := .text "external" name) rfl .nil
    (NumForm.build_eq rfl hbuild) trace
  exact ok_of_runFrom_map (fun _ _ => Value.number.inj) hrun

end

/-! ## Names after the imports -/

namespace Renaming

/-- An alias ends up as the target of some import. -/
theorem applyAll_whole_mem {imports : List (String × String)} {x : String}
    (h : x ∈ imports.map Prod.fst) :
    applyAll (imports.map fun p => .whole p.1 p.2) x ∈ imports.map Prod.snd := by
  induction imports generalizing x with
  | nil => cases h
  | cons p imports ih =>
    show applyAll _ ((whole p.1 p.2).apply x) ∈ p.2 :: imports.map Prod.snd
    rw [apply]
    by_cases hx : x = p.1
    · rw [if_pos (beq_iff_eq.mpr hx)]
      -- the target may be an alias again
      by_cases hnext : p.2 ∈ imports.map Prod.fst
      · exact List.mem_cons_of_mem _ (ih hnext)
      · rw [applyAll_whole_of_notMem hnext]
        exact List.mem_cons_self
    · rw [if_neg (mt beq_iff_eq.mp hx)]
      exact List.mem_cons_of_mem _ (ih ((List.mem_cons.mp h).resolve_left hx))

end Renaming

namespace Env

variable {env : Env}

theorem applyAll_exportSteps_of_not_taken {x : String} {exports : List (String × String)}
    (h : ∀ p ∈ exports, ∀ b, env.binding? p.1 = some b →
      Text.startsWith (stem b.value.sort b.index) x = false) :
    Renaming.applyAll (env.exportSteps exports) x = x := by
  induction exports with
  | nil => rfl
  | cons p exports ih =>
    obtain ⟨hp, hrest⟩ := List.forall_mem_cons.mp h
    cases hb : env.binding? p.1 with
    | none => rw [exportSteps_cons_none hb, ih hrest]
    | some b =>
      rw [exportSteps_cons_some hb, Renaming.applyAll_cons, Renaming.apply,
        Resolution.exportedName?, hp b hb]
      exact ih hrest

/-- A name that no exported stem begins is left alone by the exports. -/
theorem exportsName_of_not_captures {x : String} (h : ¬ env.Captures x) :
    env.exportsName x = x :=
  applyAll_exportSteps_of_not_taken fun p hp b hb =>
    Bool.eq_false_iff.mpr fun hstart => h ⟨p, hp, b, hb, hstart⟩

section

variable {before after : List (String × String)} {a t : String}

theorem notMem_of_split {l : List (String × String)} {p : String × String}
    {f : String × String → String} (h : (l.map f).Nodup) (hsplit : l = before ++ p :: after) :
    f p ∉ before.map f ++ after.map f := by
  rw [hsplit, List.map_append, List.map_cons, List.nodup_middle] at h
  exact (List.nodup_cons.mp h).1

/-- A reference is passed on by the imports after its own. -/
theorem importsName_of_split (hnames : (env.imports.map Prod.fst).Nodup)
    (hsplit : env.imports = before ++ (a, t) :: after) :
    env.importsName a = Renaming.applyAll (after.map fun p => .whole p.1 p.2) t := by
  have hbefore : a ∉ before.map Prod.fst := fun h =>
    notMem_of_split hnames hsplit (List.mem_append_left _ h)
  rw [importsName, hsplit, List.map_append, Renaming.applyAll_append,
    Renaming.applyAll_whole_of_notMem hbefore, List.map_cons, Renaming.applyAll_cons,
    Renaming.apply, if_pos (beq_self_eq_true a)]

/-- A reference gets the target of its import if and only if no later import has that target for its
alias: the imports have different targets, so what is passed on does not come back. -/
theorem importsName_eq_iff (hnames : (env.imports.map Prod.fst).Nodup)
    (htargets : env.importTargets.Nodup) (hsplit : env.imports = before ++ (a, t) :: after) :
    env.importsName a = t ↔ t ∉ after.map Prod.fst := by
  rw [importsName_of_split hnames hsplit]
  refine ⟨fun h hmem => ?_, Renaming.applyAll_whole_of_notMem⟩
  -- if the name came back to `t`, a later import would have the target `t` too
  have htarget : t ∈ after.map Prod.snd := by
    have hpassed := Renaming.applyAll_whole_mem hmem
    rwa [h] at hpassed
  exact notMem_of_split htargets hsplit (List.mem_append_right _ htarget)

/-- If no other import has the target of an import for its alias, references to the import get this
target, whatever the order. -/
theorem finalName_of_apart (hnames : (env.imports.map Prod.fst).Nodup)
    (htargets : env.importTargets.Nodup) (hmem : (a, t) ∈ env.imports)
    (hapart : ∀ q ∈ env.imports, q.1 = t → q.1 = a) (hfree : ¬ env.Captures t) :
    env.finalName a = t := by
  obtain ⟨before, after, hsplit⟩ := List.append_of_mem hmem
  have hlater : t ∉ after.map Prod.fst := by
    intro h
    obtain ⟨q, hq, hqt⟩ := List.mem_map.mp h
    have hqa := hapart q (hsplit ▸ List.mem_append_right _ (List.mem_cons_of_mem _ hq)) hqt
    -- that import would have the alias a second time
    exact notMem_of_split hnames hsplit
      (List.mem_append_right _ (List.mem_map.mpr ⟨q, hq, hqa⟩))
  rw [finalName_eq, (importsName_eq_iff hnames htargets hsplit).mpr hlater,
    exportsName_of_not_captures hfree]

end

end Env

/-! ## Programs -/

/-- Aliases and targets of a lowered program are used once. -/
theorem nodup_of_lowerProgram {files : FileStore} {program chip : Tree} {env : Env}
    (h : (lowerProgram files .empty program).Returns (env, chip)) :
    (env.imports.map Prod.fst).Nodup ∧ (env.exports.map Prod.fst).Nodup ∧
      env.importTargets.Nodup := by
  obtain ⟨lines, -, hlowers, -⟩ := lowers_of_lowerProgram h
  obtain ⟨himports, hexports⟩ := (hlowers.reachable .empty).nodup_aliases
  exact ⟨himports, hexports, (List.nodup_append.mp (hlowers.preserves_consistent .empty).targets).1⟩

/-- References to imports are resolved in turn. A reference is lowered to a variable that is named
by the alias, and this becomes the target of the import if and only if no later import has that
target for its alias; the exports leave it alone if no exported stem begins it. So if the target is
not the alias of another import, the order of the imports does not matter. -/
theorem resolveAliases_imports_in_turn {files : FileStore} {program chip : Tree} {env : Env}
    (h : (lowerProgram files .empty program).Returns (env, chip)) :
    (∃ r, resolveAliases env chip = .ok r ∧ r.program = chip.renameVariables env.finalName) ∧
    env.imports = sourceImports program ∧
    (∀ before a t after, sourceImports program = before ++ (a, t) :: after →
      (∀ trace, ((evalNumber env (.text "external" a)).runFrom trace).1 = .ok (.name a)) ∧
      (env.importsName a = t ↔ t ∉ after.map Prod.fst) ∧
      (¬ env.Captures (env.importsName a) → env.finalName a = env.importsName a)) ∧
    ∀ files' program' chip' env',
      (lowerProgram files' .empty program').Returns (env', chip') →
      (sourceImports program').Perm (sourceImports program) →
      ∀ p ∈ sourceImports program, (∀ q ∈ sourceImports program, q.1 = p.2 → q.1 = p.1) →
        ¬ env.Captures p.2 → ¬ env'.Captures p.2 →
        env.finalName p.1 = p.2 ∧ env'.finalName p.1 = p.2 := by
  have himports := imports_of_lowerProgram h
  obtain ⟨hnames, -, htargets⟩ := nodup_of_lowerProgram h
  refine ⟨?_, himports, fun before a t after hsplit => ⟨fun trace => ?_, ?_, fun hfree => ?_⟩, ?_⟩
  · obtain ⟨lines, rfl, hlowers, -⟩ := lowers_of_lowerProgram h
    exact program_of_resolveAliases (by cases lines <;> rfl)
      (hlowers.exports_bound fun p hp => by cases hp)
  · obtain ⟨target, htarget⟩ : ∃ target, env.imports.lookup a = some target := by
      have hmem : (a, t) ∈ env.imports := by rw [himports, hsplit]; simp
      refine Option.ne_none_iff_exists'.mp fun hnone => ?_
      exact absurd (List.lookup_eq_none_iff.mp hnone _ hmem) (by simp)
    exact evalNumber_external (by rw [Env.target, htarget]) trace
  · exact Env.importsName_eq_iff hnames htargets (himports.trans hsplit)
  · rw [Env.finalName_eq, Env.exportsName_of_not_captures hfree]
  · intro files' program' chip' env' h' hperm p hp hapart hfree hfree'
    have himports' := imports_of_lowerProgram h'
    obtain ⟨hnames', -, htargets'⟩ := nodup_of_lowerProgram h'
    constructor
    · exact Env.finalName_of_apart hnames htargets (himports ▸ hp) (himports ▸ hapart) hfree
    · refine Env.finalName_of_apart hnames' htargets' ?_ (fun q hq => hapart q ?_) hfree'
      · rw [himports']
        exact hperm.mem_iff.mpr hp
      · exact hperm.mem_iff.mp (himports' ▸ hq)

theorem resolveAliases_imports_swapped :
    ∃ env chip env' chip',
      (lowerProgram [] .empty (differenceProgram [("c", "a"), ("d", "b")])).Returns (env, chip) ∧
      (lowerProgram [] .empty (differenceProgram [("d", "b"), ("c", "a")])).Returns
        (env', chip') ∧
      env.imports = [("a", "c"), ("b", "d")] ∧ env.importsName "a" = "c" ∧
      env.finalName "a" = "c" ∧ env'.finalName "a" = "c" := by
  have h : (lowerProgram [] .empty (differenceProgram [("c", "a"), ("d", "b")])).Returns _ :=
    ⟨.start, _, rfl⟩
  have h' : (lowerProgram [] .empty (differenceProgram [("d", "b"), ("c", "a")])).Returns _ :=
    ⟨.start, _, rfl⟩
  obtain ⟨-, himports, hturn, horder⟩ := resolveAliases_imports_in_turn h
  have hfree : ∀ env : Env, env.bindings = [⟨"X", .number (.name "_yovec_num0"), 0⟩] →
      ¬ env.Captures "c" := by
    rintro env hbindings ⟨p, -, b, hb, hstart⟩
    have hmem := List.mem_of_find?_eq_some hb
    rw [hbindings, List.mem_singleton] at hmem
    rw [hmem] at hstart
    exact absurd hstart (by decide)
  have hswapped := horder _ _ _ _ h' (by decide) ("a", "c") (by decide) (by decide)
    (hfree _ rfl) (hfree _ rfl)
  exact ⟨_, _, _, _, h, h', himports.trans (by decide),
    (hturn [] "a" "c" [("b", "d")] (by decide)).2.1.mpr (by decide), hswapped⟩

/-- Where the target of an import is the alias of a later one, a reference to the first gets the
target of the second. In the other order it does not. -/
theorem resolveAliases_passes_on :
    ∃ env chip env' chip',
      (lowerProgram [] .empty (differenceProgram [("b", "a"), ("c", "b")])).Returns (env, chip) ∧
      (lowerProgram [] .empty (differenceProgram [("c", "b"), ("b", "a")])).Returns
        (env', chip') ∧
      env.imports.lookup "a" = some "b" ∧ env'.imports.lookup "a" = some "b" ∧
      env.finalName "a" = "c" ∧ env'.finalName "a" = "b" :=
  ⟨_, _, _, _, ⟨.start, _, rfl⟩, ⟨.start, _, rfl⟩, by decide, by decide, by decide, by decide⟩

end Scalarize
