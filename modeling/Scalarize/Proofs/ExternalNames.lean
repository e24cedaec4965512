import Scalarize.Proofs.AliasResolution
import Scalarize.Proofs.Preservation
import Scalarize.Proofs.ShortNames

/-!
# Scalarize — names whose values come from outside

A name that a chip program reads and never assigns gets its value from the surroundings. In a
lowered program these are the names of externals, and an external may be the alias of an import or,
just as well, the name of an exported variable. Resolution reports the first kind: as an imported
name, or as an exported one if an export has taken the name for one of its own. It does not look for
the second kind.

* **`Tree.outsideNames`** — the names that are read and never assigned.
* **`Lowers.external_of_reads`** — in a lowered program they are externals of the source, whose names
  are aliases that the environment knows.
* **`importsName_cases`**, **`exportsName_cases`** — what the imports and the exports report of a
  name.
* **`resolveAliases_reports_imports`** — names that come from an import are reported, so they keep
  their names when the others are shortened.
-/

namespace Scalarize

/-- The names that a chip program reads and never assigns. -/
def Tree.outsideNames (program : Tree) : List String :=
  (program.statements.flatMap Tree.reads).filter fun x =>
    !(program.statements.map Tree.targetName).contains x

theorem Tree.mem_outsideNames {program : Tree} {x : String} :
    x ∈ program.outsideNames ↔ (∃ a ∈ program.statements, x ∈ a.reads) ∧
      ∀ a ∈ program.statements, a.targetName ≠ x := by
  simp [outsideNames]

/-! ## Lowered programs -/

/-- An external has a value only if its name is an alias. -/
theorem target_of_build {env : Env} {s : ValueSort} {t : Tree} {vs : List Value} {v : Value}
    (h : build env s t vs = some v) (hkind : t.kind = "external") :
    (env.target t.name).toOption.isSome = true := by
  cases s with
  | number =>
    rw [build, hkind] at h
    obtain ⟨x, hx, -⟩ := Option.map_eq_some_iff.mp h
    cases NumForm.makes_of_build hx with
    | external htarget =>
      rw [htarget]
      rfl
  | vector => rw [build, hkind] at h; cases h
  | matrix => rw [build, hkind] at h; cases h

/-- The names in the value of an expression come from its variables, and from externals whose names
are aliases. -/
theorem Evaluates.within_targets {p : String → Prop} {env : Env} {s : ValueSort} {t : Tree}
    {v : Value} (h : Evaluates env s t v) (hvars : ∀ b ∈ env.bindings, b.value.Within p)
    (hext : ∀ u, Occurs env.macros t u → u.kind = "external" →
      (env.target u.name).toOption.isSome = true → p u.name) : v.Within p := by
  refine Derives.invariant (P := Value.Within p) (fun s n v hv => ?_) h
    fun s u vs v hu hvs hv => build_within hvs (fun hkind => ?_) hv
  · obtain ⟨b, hb, hvalue⟩ := Option.bind_eq_some_iff.mp hv
    split at hvalue
    · rw [← Option.some.inj hvalue]
      exact hvars b (List.mem_of_find?_eq_some hb)
    · cases hvalue
  · exact hext u hu hkind (target_of_build hv hkind)

/-- The name of an external in a `let`, which is an alias in the environment. -/
structure IsExternal (env : Env) (ls : List SourceLet) (x : String) : Prop where
  occurs : ∃ l ∈ ls, ∃ u, Occurs env.macros l.expr u ∧ u.kind = "external" ∧ u.name = x
  target : (env.target x).toOption.isSome = true

/-- What a run reads was known before, is assigned in the run, or is the name of an external. The
induction adds the names of the first line to those known before. -/
theorem Lowers.external_of_reads {env env' : Env} {ls : List SourceLet} {lines : List Tree}
    (h : Lowers env ls env' lines) {known : String → Prop}
    (hknown : ∀ b ∈ env.bindings, b.value.Within known) {a : Tree} {x : String}
    (ha : a ∈ lines.flatMap Tree.children) (hx : x ∈ a.reads) :
    known x ∨ x ∈ (lines.flatMap Tree.children).map Tree.targetName ∨ IsExternal env' ls x := by
  induction h generalizing known with
  | done => cases ha
  | declare hd _ ih =>
    rw [← hd.bindings_eq] at hknown
    exact ih hknown ha
  | @bind env env₁ env' v statements ls lines l hsort hv hbind rest ih =>
    have hlowers := Lowers.bind hsort hv hbind rest
    obtain rfl := Env.statements_of_bind hbind
    rw [List.flatMap_cons, List.mem_append] at ha
    rcases ha with ha | ha
    · have hwithin : v.Within fun n => known n ∨ IsExternal env' (l :: ls) n := by
        refine hv.within_targets (fun b hb => (hknown b hb).imp fun n hn => .inl hn)
          fun u hu hkind htarget => .inr ⟨⟨l, List.mem_cons_self, u, ?_, hkind, rfl⟩, ?_⟩
        · exact hu.of_extends hlowers.extends_macros
        · exact hlowers.target_isSome htarget
      exact (hwithin.of_reads ha hx).imp_right .inr
    · -- the rest of the run knows the names of this line too
      have hknown₁ : ∀ b ∈ env₁.bindings, b.value.Within fun n =>
          known n ∨ n ∈ (v.assign (env.nextIndex v.sort)).1.map Tree.targetName := by
        rw [Env.bindings_of_bind hbind, Value.targets_assign]
        intro b hb
        rcases List.mem_append.mp hb with hb | hb
        · exact (hknown b hb).imp fun n hn => .inl hn
        · rw [List.mem_singleton.mp hb]
          exact Value.within_assign fun c hc => .inr (List.mem_map_of_mem hc)
      rw [List.flatMap_cons, List.map_append, List.mem_append]
      rcases ih hknown₁ ha with (hk | htarget) | htarget | ⟨⟨l', hl', hu⟩, htarget⟩
      · exact .inl hk
      · exact .inr (.inl (.inl htarget))
      · exact .inr (.inl (.inr htarget))
      · exact .inr (.inr ⟨⟨l', List.mem_cons_of_mem _ hl', hu⟩, htarget⟩)

/-! ## What is reported of a name -/

theorem Tree.HasNames.renameVariables {t : Tree} (h : t.HasNames) (f : String → String) :
    (t.renameVariables f).HasNames := by
  induction t with
  | leaf k v =>
    by_cases hk : (k == "variable") = true
    · obtain rfl := beq_iff_eq.mp hk
      obtain ⟨x, rfl⟩ := h.value_eq
      intro u hu
      rw [List.mem_singleton.mp hu]
      exact ⟨f x, rfl⟩
    · have hkeep : renamedValue f k v = v := if_neg hk
      rw [renameVariables_leaf, hkeep]
      exact h
  | branch k v cs ih =>
    rw [renameVariables_branch]
    refine .of_children fun c hc => ?_
    obtain ⟨d, hd, rfl⟩ := List.mem_map.mp hc
    exact ih d hd (h.child hd)

theorem Tree.mem_readNames_renameVariables {t : Tree} (h : t.HasNames) (f : String → String)
    {x : String} (hx : x ∈ t.readNames) : f x ∈ (t.renameVariables f).readNames := by
  rw [readNames_renameVariables h]
  exact List.mem_map_of_mem hx

theorem mem_insertNew {xs : List String} {x y : String} :
    y ∈ insertNew xs x ↔ y ∈ xs ∨ y = x := by
  unfold insertNew
  split
  · next hmem =>
    refine ⟨.inl, fun h => h.elim id ?_⟩
    rintro rfl
    exact List.contains_iff_mem.mp hmem
  · simp

theorem mem_foldl_insertNew {xs ys : List String} {y : String} :
    y ∈ ys.foldl insertNew xs ↔ y ∈ xs ∨ y ∈ ys := by
  induction ys generalizing xs with
  | nil => simp
  | cons z ys ih => rw [List.foldl_cons, ih, mem_insertNew, List.mem_cons, or_assoc]

theorem Renaming.applyAll_cons (r : Renaming) (rs : List Renaming) (x : String) :
    applyAll (r :: rs) x = applyAll rs (r.apply x) :=
  rfl

/-- The name that the imports give to a variable of the chip program. -/
def Env.importsName (env : Env) : String → String :=
  Renaming.applyAll (env.imports.map fun p => .whole p.1 p.2)

/-- The name that the exports give to a variable, after the imports. -/
def Env.exportsName (env : Env) : String → String :=
  Renaming.applyAll (env.exportSteps env.exports)

theorem Env.finalName_eq (env : Env) (x : String) :
    env.finalName x = env.exportsName (env.importsName x) :=
  Renaming.applyAll_append _ _ x

/-- An export takes the name for one of its own: the name begins with the stem of an exported
variable. -/
def Env.Captures (env : Env) (x : String) : Prop :=
  ∃ p ∈ env.exports, ∃ b, env.binding? p.1 = some b ∧
    Text.startsWith (stem b.value.sort b.index) x = true

/-- A name that occurs is left alone by the imports, or it ends up as an imported name. -/
theorem importsName_cases (imports : List (String × String)) (r : Resolution)
    (hnames : r.program.HasNames) :
    let r' := imports.foldl (fun r p => r.resolveImport p.1 p.2) r
    (∀ y ∈ r.imported, y ∈ r'.imported) ∧ ∀ x ∈ r.program.readNames,
      let y := Renaming.applyAll (imports.map fun p => .whole p.1 p.2) x
      y ∈ r'.imported ∨ y = x ∧ x ∉ imports.map Prod.fst := by
  induction imports generalizing r with
  | nil => exact ⟨fun y hy => hy, fun x hx => .inr ⟨rfl, List.not_mem_nil⟩⟩
  | cons p imports ih =>
    obtain ⟨hkeeps, hcases⟩ := ih (r.resolveImport p.1 p.2) (hnames.renameVariables _)
    have hadds : ∀ y ∈ r.imported, y ∈ (r.resolveImport p.1 p.2).imported := by
      intro y hy
      unfold Resolution.resolveImport
      dsimp only
      split
      · exact mem_insertNew.mpr (.inl hy)
      · exact hy
    refine ⟨fun y hy => hkeeps y (hadds y hy), fun x hx => ?_⟩
    have hnext := hcases _ (Tree.mem_readNames_renameVariables hnames
      (fun s => if s == p.1 then p.2 else s) hx)
    dsimp only at hnext ⊢
    rw [List.map_cons, Renaming.applyAll_cons, Renaming.apply]
    by_cases hxp : x = p.1
    · -- the import is used, and its target may be renamed again
      subst hxp
      have hused : p.2 ∈ (r.resolveImport p.1 p.2).imported := by
        have hmem : r.program.variableNames.contains p.1 = true :=
          List.contains_iff_mem.mpr (Tree.readNames_subset_variableNames _ hx)
        rw [Resolution.resolveImport, hmem]
        exact mem_insertNew.mpr (.inr rfl)
      rw [if_pos (beq_self_eq_true _)] at hnext ⊢
      rcases hnext with hnext | ⟨hsame, -⟩
      · exact .inl hnext
      · refine .inl ?_
        rw [hsame]
        exact hkeeps _ hused
    · have hne : ¬ (x == p.1) = true := by simpa using hxp
      rw [if_neg hne] at hnext ⊢
      rw [List.map_cons, List.mem_cons, not_or]
      exact hnext.imp_right fun h => ⟨h.1, hxp, h.2⟩

/-- A name that occurs is left alone by the exports, or it ends up as an exported name. -/
theorem exportsName_cases (env : Env) (exports : List (String × String)) (r : Resolution)
    (hnames : r.program.HasNames) :
    let r' := env.resolveExports exports r
    r'.imported = r.imported ∧ (∀ y ∈ r.exported, y ∈ r'.exported) ∧
      ∀ x ∈ r.program.readNames,
        let y := Renaming.applyAll (env.exportSteps exports) x
        y ∈ r'.exported ∧ (∃ p ∈ exports, ∃ b, env.binding? p.1 = some b ∧
          Text.startsWith (stem b.value.sort b.index) x = true) ∨ y = x := by
  induction exports generalizing r with
  | nil => exact ⟨rfl, fun y hy => hy, fun x hx => .inr rfl⟩
  | cons p exports ih =>
    cases hb : env.binding? p.1 with
    | none =>
      rw [Env.resolveExports_cons_none hb, Env.exportSteps_cons_none hb]
      obtain ⟨himported, hkeeps, hcases⟩ := ih r hnames
      refine ⟨himported, hkeeps, fun x hx => (hcases x hx).imp_left ?_⟩
      rintro ⟨hy, q, hq, hcaptures⟩
      exact ⟨hy, q, List.mem_cons_of_mem _ hq, hcaptures⟩
    | some b =>
      rw [Env.resolveExports_cons_some hb, Env.exportSteps_cons_some hb]
      obtain ⟨himported, hkeeps, hcases⟩ :=
        ih (r.resolveExport (stem b.value.sort b.index) p.2) (hnames.renameVariables _)
      refine ⟨himported, fun y hy => hkeeps y (mem_foldl_insertNew.mpr (.inl hy)), fun x hx => ?_⟩
      have hnext := hcases _ (Tree.mem_readNames_renameVariables hnames
        (fun s => (Resolution.exportedName? (stem b.value.sort b.index) p.2 s).getD s) hx)
      dsimp only at hnext ⊢
      rw [Renaming.applyAll_cons, Renaming.apply]
      cases hstart : Text.startsWith (stem b.value.sort b.index) x with
      | true =>
        -- the export takes the name, and later exports may take the new one
        obtain ⟨z, hz⟩ : ∃ z, Resolution.exportedName? (stem b.value.sort b.index) p.2 x = some z :=
          ⟨_, if_pos hstart⟩
        have hexported : z ∈ (r.resolveExport (stem b.value.sort b.index) p.2).exported := by
          refine mem_foldl_insertNew.mpr (.inr (List.mem_filterMap.mpr ⟨x, ?_, hz⟩))
          exact Tree.readNames_subset_variableNames _ hx
        refine .inl ⟨?_, p, List.mem_cons_self, b, hb, hstart⟩
        rw [hz] at hnext ⊢
        rcases hnext with ⟨hnext, -⟩ | hsame
        · exact hnext
        · rw [hsame]
          exact hkeeps _ hexported
      | false =>
        have hnone : Resolution.exportedName? (stem b.value.sort b.index) p.2 x = none := by
          rw [Resolution.exportedName?, hstart]
          rfl
        rw [hnone] at hnext ⊢
        refine hnext.imp_left ?_
        rintro ⟨hy, q, hq, hcaptures⟩
        exact ⟨hy, q, List.mem_cons_of_mem _ hq, hcaptures⟩

/-- What resolution reports of the names that occur. -/
theorem reported_of_resolveAliases {env : Env} {chip : Tree} (hkind : chip.kind = "program")
    (hnames : chip.HasNames) (hbound : ∀ p ∈ env.exports, ∃ b, env.binding? p.1 = some b) :
    ∃ r, resolveAliases env chip = .ok r ∧ r.program = chip.renameVariables env.finalName ∧
      ∀ x ∈ chip.readNames,
        (env.importsName x ∈ r.imported ∨
          env.importsName x = x ∧ x ∉ env.imports.map Prod.fst) ∧
        (env.finalName x ∈ r.exported ∧ env.Captures (env.importsName x) ∨
          env.finalName x = env.importsName x) := by
  obtain ⟨r, hr, hprogram⟩ := program_of_resolveAliases hkind hbound
  refine ⟨r, hr, hprogram, fun x hx => ?_⟩
  obtain rfl := Except.ok.inj ((resolveAliases_eq hkind hbound).symm.trans hr)
  obtain ⟨r₁, hr₁⟩ : ∃ r₁, r₁ = env.imports.foldl (fun r p => r.resolveImport p.1 p.2)
      (⟨chip, [], []⟩ : Resolution) := ⟨_, rfl⟩
  have hprogram₁ : r₁.program = chip.renameVariables env.importsName := by
    rw [hr₁, program_of_imports]
    rfl
  obtain ⟨-, himports⟩ := importsName_cases env.imports ⟨chip, [], []⟩ hnames
  obtain ⟨himported, -, hexports⟩ := exportsName_cases env env.exports r₁
    (by rw [hprogram₁]; exact hnames.renameVariables _)
  rw [← hr₁] at himports ⊢
  refine ⟨?_, ?_⟩
  · rw [himported]
    exact himports x hx
  · rw [env.finalName_eq]
    refine hexports _ ?_
    rw [hprogram₁]
    exact Tree.mem_readNames_renameVariables hnames _ hx

/-! ## Names from outside -/

theorem Lowers.mem_statements {env env' : Env} {ls : List SourceLet} {lines : List Tree}
    (h : Lowers env ls env' lines) {a : Tree} (ha : a ∈ lines.flatMap Tree.children) :
    ∃ (n : String) (x : Num), a = x.assignTo n := by
  obtain ⟨line, hline, ha⟩ := List.mem_flatMap.mp ha
  obtain ⟨index, v, rfl⟩ := h.line_eq hline
  obtain ⟨n, x, -, rfl⟩ := Value.mem_assign ha
  exact ⟨n, x, rfl⟩

/-- An assignment of a number after renaming. -/
theorem Num.assignTo_renameVariables (x : Num) (n : String) (f : String → String) :
    ((x.assignTo n).renameVariables f).targetName = f n ∧
      ((x.assignTo n).renameVariables f).reads = (x.assignTo n).reads.map f := by
  have hright : ((x.assignTo n).renameVariables f).rightSide = x.toTree.renameVariables f := by
    rw [Tree.rightSide, Tree.children_renameVariables]
    rfl
  refine ⟨rfl, ?_⟩
  rw [Tree.reads, hright, Tree.readNames_renameVariables x.hasNames_toTree]
  rfl

/-- What comes from outside after a renaming is the new name of something that came from outside
before. -/
theorem Lowers.of_mem_outsideNames {env env' : Env} {ls : List SourceLet} {lines : List Tree}
    (h : Lowers env ls env' lines) {f : String → String} {x : String}
    (hx : x ∈ ((chipProgram lines).renameVariables f).outsideNames) :
    ∃ m ∈ (chipProgram lines).outsideNames, x = f m := by
  rw [Tree.mem_outsideNames, Tree.statements_renameVariables, statements_chipProgram] at hx
  obtain ⟨⟨a', ha', hread⟩, hnot⟩ := hx
  obtain ⟨a, ha, rfl⟩ := List.mem_map.mp ha'
  obtain ⟨n, y, rfl⟩ := h.mem_statements ha
  rw [(y.assignTo_renameVariables n f).2] at hread
  obtain ⟨m, hm, rfl⟩ := List.mem_map.mp hread
  refine ⟨m, Tree.mem_outsideNames.mpr ?_, rfl⟩
  rw [statements_chipProgram]
  refine ⟨⟨_, ha, hm⟩, fun b hb hassigned => ?_⟩
  -- an assignment to the old name would be one to the new name now
  obtain ⟨k, z, rfl⟩ := h.mem_statements hb
  refine hnot _ (List.mem_map_of_mem hb) ?_
  rw [(z.assignTo_renameVariables k f).1]
  exact congrArg f hassigned

theorem Num.readNames_assignTo (x : Num) (n : String) :
    (x.assignTo n).readNames = n :: (x.assignTo n).reads := by
  rw [Num.assignTo, Tree.node, Tree.readNames_branch, List.flatMap_cons, List.flatMap_cons,
    List.flatMap_nil, List.append_nil]
  rfl

/-- The names of a lowered program are those of its assignments. -/
theorem Lowers.readNames_eq {env env' : Env} {ls : List SourceLet} {lines : List Tree}
    (h : Lowers env ls env' lines) :
    (chipProgram lines).readNames = (lines.flatMap Tree.children).flatMap Tree.readNames := by
  have hlines : (chipProgram lines).readNames = lines.flatMap Tree.readNames := by
    cases lines with
    | nil => rfl
    | cons l ls => exact Tree.readNames_branch ..
  rw [hlines, List.flatMap_assoc]
  refine List.flatMap_congr fun line hline => ?_
  obtain ⟨index, v, rfl⟩ := h.line_eq hline
  exact Tree.readNames_branch ..

theorem Lowers.mem_readNames {env env' : Env} {ls : List SourceLet} {lines : List Tree}
    (h : Lowers env ls env' lines) {x : String} (hx : x ∈ (chipProgram lines).outsideNames) :
    x ∈ (chipProgram lines).readNames := by
  rw [Tree.mem_outsideNames, statements_chipProgram] at hx
  obtain ⟨⟨a, ha, hread⟩, -⟩ := hx
  obtain ⟨n, y, rfl⟩ := h.mem_statements ha
  rw [h.readNames_eq]
  refine List.mem_flatMap.mpr ⟨_, ha, ?_⟩
  rw [y.readNames_assignTo]
  exact List.mem_cons_of_mem _ hread

/-- Short names are not given to the names that are shared with the surroundings. -/
theorem Tree.shortenNames_keeps {program : Tree} (hkind : program.kind = "program")
    (imported exported : List String) :
    ∃ ρ : String → String,
      program.shortenNames imported exported = .ok (program.renameVariables ρ) ∧
      ∀ x, x ∈ imported ∨ x ∈ exported → ρ x = x := by
  obtain ⟨pool, hpool⟩ : ∃ pool, pool =
      (NamePool.fresh (imported ++ exported)).replaceAll program.variableNames := ⟨_, rfl⟩
  have htaken : pool.taken = imported ++ exported := by
    rw [hpool]
    exact NamePool.taken_replaceAll _ _
  refine ⟨pool.newName, ?_, fun x hx => ?_⟩
  · have hguard : (program.kind != "program") = false := by rw [hkind]; rfl
    rw [shortenNames, hguard, hpool]
    rfl
  · rw [NamePool.newName, htaken, if_pos]
    exact List.contains_iff_mem.mpr (List.mem_append.mpr hx)

/-- How the names from outside are reported. Each is the final name of an external. If that is the
alias of an import, the name is reported as imported, or as exported if an export has taken it for
one of its own; so shortening keeps it. If not, the external is called like an exported variable,
and it is left as it is unless an export takes it. -/
def Resolution.Reports (r : Resolution) (env : Env) (ls : List SourceLet)
    (shorten : String → String) : Prop :=
  ∀ x ∈ r.program.outsideNames, ∃ m, IsExternal env ls m ∧ x = env.finalName m ∧
    if m ∈ env.imports.map Prod.fst then
      (x ∈ r.imported ∨ x ∈ r.exported ∧ env.Captures (env.importsName m)) ∧ shorten x = x
    else
      m ∈ env.exports.map Prod.fst ∧ (x = m ∨ x ∈ r.exported ∧ env.Captures m ∧ shorten x = x)

theorem Renaming.applyAll_whole_of_notMem {imports : List (String × String)} {x : String}
    (h : x ∉ imports.map Prod.fst) :
    applyAll (imports.map fun p => .whole p.1 p.2) x = x := by
  induction imports with
  | nil => rfl
  | cons p imports ih =>
    rw [List.map_cons, List.mem_cons, not_or] at h
    have hne : ¬ (x == p.1) = true := by simpa using h.1
    rw [List.map_cons, applyAll_cons, apply, if_neg hne]
    exact ih h.2

/-- An alias that is not one of an import is one of an export. -/
theorem Env.mem_exports_of_target {env : Env} {x : String}
    (h : (env.target x).toOption.isSome = true) (hx : x ∉ env.imports.map Prod.fst) :
    x ∈ env.exports.map Prod.fst := by
  have himport : env.imports.lookup x = none := by
    rw [List.lookup_eq_none_iff]
    intro p hp
    exact bne_iff_ne.mpr fun heq => hx (heq ▸ List.mem_map_of_mem hp)
  rw [target, himport] at h
  dsimp only at h
  cases hexport : env.exports.lookup x with
  | none =>
    rw [hexport] at h
    cases h
  | some t =>
    obtain ⟨l₁, l₂, heq, -⟩ := List.lookup_eq_some_iff.mp hexport
    rw [heq]
    simp

/-- Names that come from an import are reported, and shortening leaves them alone. -/
theorem resolveAliases_reports_imports {files : FileStore} {program chip : Tree} {env : Env}
    (h : (lowerProgram files .empty program).Returns (env, chip)) :
    ∃ r shorten, resolveAliases env chip = .ok r ∧
      r.program.shortenNames r.imported r.exported = .ok (r.program.renameVariables shorten) ∧
      r.Reports env (sourceLets program) shorten := by
  obtain ⟨lines, rfl, hlowers, -⟩ := lowers_of_lowerProgram h
  have hkind : (chipProgram lines).kind = "program" := by cases lines <;> rfl
  obtain ⟨r, hr, hprogram, hreported⟩ := reported_of_resolveAliases hkind hlowers.hasNames
    (hlowers.exports_bound fun p hp => by cases hp)
  have hkind' : r.program.kind = "program" := by
    rw [hprogram]
    cases lines <;> rfl
  obtain ⟨shorten, hshorten, hkeeps⟩ := Tree.shortenNames_keeps hkind' r.imported r.exported
  refine ⟨r, shorten, hr, hshorten, fun x hx => ?_⟩
  rw [hprogram] at hx
  obtain ⟨m, hm, rfl⟩ := hlowers.of_mem_outsideNames hx
  obtain ⟨⟨a, ha, hread⟩, hnot⟩ := Tree.mem_outsideNames.mp hm
  rw [statements_chipProgram] at ha hnot
  have hexternal : IsExternal env (sourceLets program) m := by
    have hnone : ∀ b ∈ Env.empty.bindings, b.value.Within fun _ => False := fun b hb => by cases hb
    rcases hlowers.external_of_reads hnone ha hread with hfalse | htarget | hexternal
    · exact hfalse.elim
    · obtain ⟨b, hb, heq⟩ := List.mem_map.mp htarget
      exact absurd heq (hnot b hb)
    · exact hexternal
  obtain ⟨himports, hexports⟩ := hreported m (hlowers.mem_readNames hm)
  refine ⟨m, hexternal, rfl, ?_⟩
  split
  · next halias =>
    have himported : env.importsName m ∈ r.imported :=
      himports.resolve_right fun h => h.2 halias
    rcases hexports with ⟨hexported, hcaptures⟩ | hsame
    · exact ⟨.inr ⟨hexported, hcaptures⟩, hkeeps _ (.inr hexported)⟩
    · rw [hsame]
      exact ⟨.inl himported, hkeeps _ (.inl himported)⟩
  · next halias =>
    have hsame : env.importsName m = m := Renaming.applyAll_whole_of_notMem halias
    refine ⟨Env.mem_exports_of_target hexternal.target halias, ?_⟩
    rw [hsame] at hexports
    rcases hexports with ⟨hexported, hcaptures⟩ | hfinal
    · exact .inr ⟨hexported, hcaptures, hkeeps _ (.inr hexported)⟩
    · exact .inl hfinal

theorem resolveAliases_reports_difference :
    ∃ env chip r shorten,
      (lowerProgram [] .empty (differenceProgram [("c", "a"), ("d", "b")])).Returns (env, chip) ∧
      resolveAliases env chip = .ok r ∧ r.program.outsideNames = ["c", "d"] ∧
      r.imported = ["c", "d"] ∧
      r.program.shortenNames r.imported r.exported = .ok (r.program.renameVariables shorten) ∧
      r.Reports env (sourceLets (differenceProgram [("c", "a"), ("d", "b")])) shorten := by
  have h : (lowerProgram [] .empty (differenceProgram [("c", "a"), ("d", "b")])).Returns _ :=
    ⟨.start, _, rfl⟩
  obtain ⟨r, shorten, hr, hshorten, hreports⟩ := resolveAliases_reports_imports h
  obtain rfl := Except.ok.inj hr
  exact ⟨_, _, _, shorten, h, rfl, by decide, by decide, hshorten, hreports⟩

/-- A program that exports a variable and reads an external of the same name. -/
def rereadProgram : Tree :=
  .node "program" [
    .node "line" [.node "import_group" [.node "import" [.text "external" "n"]]],
    .node "line" [.node "let_num" [.variableNamed "A", .text "external" "n"]],
    .node "line" [.node "export" [.variableNamed "A"]],
    .node "line" [.node "let_num" [.variableNamed "B", .text "external" "A"]],
    .node "line" [.node "export" [.variableNamed "B"]]]

/-- An external with the name of an exported variable comes from outside, but it is not reported, and
shortening renames it. -/
theorem resolveAliases_misses_exported :
    ∃ env chip r short, (lowerProgram [] .empty rereadProgram).Returns (env, chip) ∧
      resolveAliases env chip = .ok r ∧
      r.program.shortenNames r.imported r.exported = .ok short ∧
      r.program.outsideNames = ["n", "A"] ∧ r.imported = ["n"] ∧
      short.outsideNames = ["n", "c"] :=
  ⟨_, _, _, _, ⟨.start, _, rfl⟩, rfl, rfl, by decide, by decide, by decide +kernel⟩

end Scalarize
