import Mathlib
import Scalarize.Env

/-!
# Scalarize — operations on the environment

Each operation on the environment succeeds exactly under a few conditions on what is there already,
and then adds one entry at the end of one list. Later proofs use these four equivalences and never
look into the operations.
-/

namespace Scalarize.Env

variable {env env' : Env}

theorem addImport_eq_ok {name target : String} :
    env.addImport name target = .ok env' ↔
      env.imports.lookup name = none ∧ target ∉ env.importTargets ∧ target ∉ env.exportTargets ∧
        env' = { env with imports := env.imports ++ [(name, target)] } := by
  rw [addImport]
  cases hi : env.imports.lookup name with
  | some t => simp
  | none =>
    simp only [Option.isSome_none, Bool.false_eq_true, if_false, Bool.or_eq_true,
      List.contains_iff_mem, true_and]
    split
    case isTrue h => grind
    case isFalse h => simp only [not_or] at h; simp [h, eq_comm]

theorem addExport_eq_ok {name target : String} :
    env.addExport name target = .ok env' ↔
      (∃ b, env.binding? name = some b) ∧ env.exports.lookup name = none ∧
        target ∉ env.exportTargets ∧ env.imports.lookup target = none ∧
        target ∉ env.importTargets ∧
        env' = { env with exports := env.exports ++ [(name, target)] } := by
  rw [addExport]
  cases hb : env.binding? name with
  | none => simp
  | some b =>
    cases he : env.exports.lookup name with
    | some t => simp
    | none =>
      cases hi : env.imports.lookup target with
      | some t => simp
      | none =>
        simp only [Option.isNone_some, Bool.false_eq_true, if_false, Option.isSome_none,
          Bool.or_false, Bool.or_eq_true, List.contains_iff_mem, true_and]
        split
        case isTrue h => grind
        case isFalse h => simp only [not_or] at h; simp [h, eq_comm]

theorem define_eq_ok {name : String} {m : MacroDef} :
    env.define name m = .ok env' ↔
      env.findMacro? name = none ∧ env.binding? name = none ∧
        env' = { env with macros := env.macros ++ [(name, m)] } := by
  rw [define]
  cases hm : env.findMacro? name with
  | some m => simp
  | none =>
    cases hb : env.binding? name with
    | some b => simp
    | none => simp [eq_comm]

theorem bind_eq_ok {name : String} {v : Value} {statements : List Tree} :
    env.bind name v = .ok (env', statements) ↔
      env.binding? name = none ∧ env.findMacro? name = none ∧
        env' = { env.skipIndex v.sort with
          bindings := env.bindings ++
            [⟨name, (v.assign (env.nextIndex v.sort)).2, env.nextIndex v.sort⟩] } ∧
        statements = (v.assign (env.nextIndex v.sort)).1 := by
  rw [bind]
  have hskip : (env.skipIndex v.sort).bindings = env.bindings := by cases v.sort <;> rfl
  cases hb : env.binding? name with
  | some b => simp
  | none =>
    cases hm : env.findMacro? name with
    | some m => simp
    | none => simp [eq_comm, hskip]

end Scalarize.Env
