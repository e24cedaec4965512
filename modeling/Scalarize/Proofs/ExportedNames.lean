import Scalarize.Proofs.ImportedNames
import Scalarize.Proofs.Stems

/-!
# Scalarize — which components the exports rename

Exports are resolved after the imports, one after the other. Each takes the components whose names
begin with its stem and that no earlier export has taken. So the component of a variable that is not
exported is renamed too if its index begins with the index of an exported variable of its sort, and
the new name is then reported as an exported one.

* **`Env.applyAll_exportSteps_component`** — a component gets its name from the first export that
  takes it.
* **`mem_exported_of_exports`** — what the exports report.
* **`resolveAliases_exports_by_index`** — this for whole programs, and what follows where no index
  of an exported variable begins another one.
-/

namespace Scalarize

/-! ## Variables in trees -/

namespace Tree

theorem variableNodes_renameVariables (f : String → String) (t : Tree) :
    (t.renameVariables f).variableNodes = t.variableNodes.map (renameVariables f) := by
  induction t with
  | leaf k v =>
    rw [renameVariables_leaf, variableNodes, variableNodes, find_leaf, find_leaf]
    show (if k == "variable" then _ else _) = List.map _ (if k == "variable" then _ else _)
    split <;> rfl
  | branch k v cs ih =>
    rw [variableNodes, variableNodes, find_branch, List.map_append, List.map_flatMap,
      renameVariables_branch, find_branch, List.flatMap_map]
    congr 1
    · show (if k == "variable" then _ else _) = List.map _ (if k == "variable" then _ else _)
      split
      · rw [List.map_singleton, renameVariables_branch]
      · rfl
    · exact List.flatMap_congr ih

namespace Legible

variable {t : Tree}

theorem renameVariables (h : t.Legible) (f : String → String) :
    (t.renameVariables f).Legible := by
  intro u hu
  rw [variableNodes_renameVariables] at hu
  obtain ⟨w, hw, rfl⟩ := List.mem_map.mp hu
  rcases h w hw with ⟨x, rfl⟩ | ⟨cs, rfl⟩
  · exact .inl ⟨f x, rfl⟩
  · exact .inr ⟨cs.map (Tree.renameVariables f), renameVariables_branch ..⟩

/-- A variable that is no leaf has no name to be read. -/
theorem mem_variableNames (h : t.Legible) {x : String} (hx : x ∈ t.variableNames) :
    x ∈ t.readNames ∨ x = valueText none := by
  obtain ⟨u, hu, rfl⟩ := List.mem_map.mp hx
  rcases h u hu with ⟨y, rfl⟩ | ⟨cs, rfl⟩
  · exact .inl (List.mem_map.mpr ⟨_, mem_find_of_mem_find hu rfl, rfl⟩)
  · exact .inr rfl

end Legible

end Tree

/-! ## Components -/

/-- The components of all variables, in the order of definition. -/
def Env.components (env : Env) : List Component :=
  env.bindings.flatMap fun b => b.value.components b.index

theorem Value.components_assign (index i : Nat) (v : Value) :
    (v.assign index).2.components i = v.components i := by
  cases v with
  | number x => rfl
  | vector v => simp [assign, components, Vec.assign, Vec.length]
  | matrix m =>
    simp [assign, components, Mat.assign, Mat.ofCells, Mat.rowCount, Mat.colCount, Mat.first,
      Vec.length]

namespace Lowers

variable {env env' : Env} {ls : List SourceLet} {lines : List Tree}

/-- A run assigns the components of its variables, in order. -/
theorem targets_eq (h : Lowers env ls env' lines) :
    env.components.map Component.name ++ (lines.flatMap Tree.children).map Tree.targetName
      = env'.components.map Component.name := by
  induction h with
  | done => exact List.append_nil _
  | declare hd _ ih =>
    rw [Env.components, ← hd.bindings_eq]
    exact ih
  | @bind env env₁ env' v statements ls lines l hsort hv hbind rest ih =>
    -- the new variable comes last, with the components that the statements of its line assign
    rw [← ih, Env.components, Env.components, Env.bindings_of_bind hbind, List.flatMap_append,
      List.map_append, List.flatMap_cons, List.flatMap_cons, List.flatMap_nil, List.map_append,
      List.append_nil, Value.components_assign, ← Value.targets_assign, List.append_assoc,
      Env.statements_of_bind hbind]
    rfl

theorem targets_of_empty (h : Lowers .empty ls env lines) :
    (lines.flatMap Tree.children).map Tree.targetName = env.components.map Component.name :=
  h.targets_eq

/-- The lowered program of a run assigns the components of all variables, also after a renaming. -/
theorem targets_renameVariables (h : Lowers .empty ls env lines) (f : String → String) :
    ((chipProgram lines).renameVariables f).statements.map Tree.targetName
      = env.components.map fun c => f c.name := by
  calc ((chipProgram lines).renameVariables f).statements.map Tree.targetName
    _ = (lines.flatMap Tree.children).map fun a => f a.targetName := by
      rw [Tree.statements_renameVariables, statements_chipProgram, List.map_map]
      refine List.map_congr_left fun a ha => ?_
      obtain ⟨n, x, rfl⟩ := h.mem_statements ha
      exact (x.assignTo_renameVariables n f).1
    _ = ((lines.flatMap Tree.children).map Tree.targetName).map f := by
      rw [List.map_map]
      rfl
    _ = (env.components.map Component.name).map f := by rw [h.targets_of_empty]
    _ = env.components.map fun c => f c.name := by
      rw [List.map_map]
      rfl

/-- What occurs in a lowered program is a component or an external. -/
theorem name_cases (h : Lowers .empty ls env lines) {x : String}
    (hx : x ∈ (chipProgram lines).readNames) :
    (∃ c ∈ env.components, x = c.name) ∨ IsExternal env ls x := by
  have hassigned : ∀ y ∈ (lines.flatMap Tree.children).map Tree.targetName,
      ∃ c ∈ env.components, y = c.name := by
    intro y hy
    rw [h.targets_of_empty] at hy
    obtain ⟨c, hc, rfl⟩ := List.mem_map.mp hy
    exact ⟨c, hc, rfl⟩
  rw [h.readNames_eq] at hx
  obtain ⟨a, ha, hx⟩ := List.mem_flatMap.mp hx
  obtain ⟨n, y, rfl⟩ := h.mem_statements ha
  -- an assignment has its target and what it reads
  rw [y.readNames_assignTo] at hx
  rcases List.mem_cons.mp hx with rfl | hx
  · exact .inl (hassigned x (List.mem_map.mpr ⟨_, ha, rfl⟩))
  · have hnone : ∀ b ∈ Env.empty.bindings, b.value.Within fun _ => False := fun b hb => by cases hb
    rcases h.external_of_reads hnone ha hx with hfalse | htarget | hexternal
    · exact hfalse.elim
    · exact .inl (hassigned x htarget)
    · exact .inr hexternal

theorem name_mem_readNames (h : Lowers .empty ls env lines) {c : Component}
    (hc : c ∈ env.components) : c.name ∈ (chipProgram lines).readNames := by
  obtain ⟨a, ha, heq⟩ := List.mem_map.mp (h.targets_of_empty ▸ List.mem_map_of_mem hc)
  obtain ⟨n, y, rfl⟩ := h.mem_statements ha
  rw [h.readNames_eq]
  refine List.mem_flatMap.mpr ⟨_, ha, ?_⟩
  rw [y.readNames_assignTo]
  exact List.mem_cons.mpr (.inl heq.symm)

end Lowers

/-! ## Which export takes a component -/

namespace Env

/-- The name that an export gives to a component, if it takes it. -/
def takes? (env : Env) (c : Component) (p : String × String) : Option String :=
  (env.binding? p.1).bind fun b => c.exportedAs? b.value.sort b.index p.2

/-- The name that the exports give to a component: the first export that takes it does so. -/
def exportedAs? (env : Env) (c : Component) : Option String :=
  env.exports.findSome? (env.takes? c)

theorem takes?_eq_some {env : Env} {c : Component} {p : String × String} {y : String} :
    env.takes? c p = some y ↔ ∃ b, env.binding? p.1 = some b ∧
      c.exportedAs? b.value.sort b.index p.2 = some y :=
  Option.bind_eq_some_iff

end Env

theorem Stemless.applyAll_exportSteps {x : String} (h : Stemless x) (env : Env)
    (exports : List (String × String)) :
    Renaming.applyAll (env.exportSteps exports) x = x :=
  Env.applyAll_exportSteps_of_not_taken fun _ _ b _ => h b.value.sort b.index

/-- The exports give a component the name that the first export that takes it gives. After that no
stem begins it, so no later one takes it. -/
theorem Env.applyAll_exportSteps_component {env : Env} {exports : List (String × String)}
    (htargets : ∀ p ∈ exports, ¬ Reserved p.2) (c : Component) :
    Renaming.applyAll (env.exportSteps exports) c.name
      = (exports.findSome? (env.takes? c)).getD c.name := by
  induction exports with
  | nil => rfl
  | cons p exports ih =>
    obtain ⟨htarget, hrest⟩ := List.forall_mem_cons.mp htargets
    rw [List.findSome?_cons]
    cases hb : env.binding? p.1 with
    | none => rw [exportSteps_cons_none hb, takes?, hb, Option.bind_none, ih hrest]
    | some b =>
      rw [exportSteps_cons_some hb, takes?, hb, Option.bind_some, Renaming.applyAll_cons,
        Renaming.apply, Component.exportedName?_name]
      cases hy : c.exportedAs? b.value.sort b.index p.2 with
      | none => exact ih hrest
      | some y =>
        exact (Component.stemless_of_exportedAs? htarget hy).applyAll_exportSteps env exports

/-! ## What the exports report -/

/-- Each name in the tree is that of a component, or no stem begins it. -/
structure Tree.NamesKnown (t : Tree) : Prop where
  legible : t.Legible
  known : ∀ x ∈ t.readNames, Stemless x ∨ ∃ c : Component, x = c.name

section

variable {r : Resolution} {s : ValueSort} {index : Nat} {target : String}

theorem Resolution.readNames_resolveExport (h : r.program.NamesKnown) :
    (r.resolveExport (stem s index) target).program.readNames = r.program.readNames.map fun x =>
      (exportedName? (stem s index) target x).getD x :=
  Tree.readNames_renameVariables h.legible.hasNames

/-- What an export reports: the components that it takes. -/
theorem Resolution.mem_exported_resolveExport (h : r.program.NamesKnown) {y : String} :
    y ∈ (r.resolveExport (stem s index) target).exported ↔ y ∈ r.exported ∨
      ∃ c : Component, c.name ∈ r.program.readNames ∧ c.exportedAs? s index target = some y := by
  rw [resolveExport, mem_foldl_insertNew, List.mem_filterMap]
  refine or_congr_right ⟨?_, ?_⟩
  · rintro ⟨x, hx, hy⟩
    rcases h.legible.mem_variableNames hx with hx | rfl
    · rcases h.known x hx with hstemless | ⟨c, rfl⟩
      · rw [hstemless.exportedName?] at hy
        cases hy
      · rw [Component.exportedName?_name] at hy
        exact ⟨c, hx, hy⟩
    · -- a variable without a name is compared by the text of the missing name
      have hstemless : Stemless (Tree.valueText none) := stemless_of_not_reserved (by decide)
      rw [hstemless.exportedName?] at hy
      cases hy
  · rintro ⟨c, hc, hy⟩
    refine ⟨c.name, Tree.readNames_subset_variableNames _ hc, ?_⟩
    rw [Component.exportedName?_name, hy]

/-- The components that an export leaves are there after it. -/
theorem Resolution.mem_readNames_resolveExport (h : r.program.NamesKnown)
    (htarget : ¬ Reserved target) {c : Component} :
    c.name ∈ (r.resolveExport (stem s index) target).program.readNames ↔
      c.name ∈ r.program.readNames ∧ c.exportedAs? s index target = none := by
  rw [readNames_resolveExport h, List.mem_map]
  constructor
  · rintro ⟨x, hx, heq⟩
    rcases h.known x hx with hstemless | ⟨d, rfl⟩
    · rw [hstemless.exportedName?, Option.getD_none] at heq
      exact absurd (heq ▸ hstemless) c.not_stemless_name
    · rw [Component.exportedName?_name] at heq
      cases hd : d.exportedAs? s index target with
      | none =>
        rw [hd, Option.getD_none] at heq
        obtain rfl := Component.name_injective heq
        exact ⟨hx, hd⟩
      | some y =>
        rw [hd, Option.getD_some] at heq
        exact absurd (heq ▸ Component.stemless_of_exportedAs? htarget hd) c.not_stemless_name
  · rintro ⟨hc, hnone⟩
    exact ⟨c.name, hc, by rw [Component.exportedName?_name, hnone, Option.getD_none]⟩

theorem Tree.NamesKnown.resolveExport (h : r.program.NamesKnown) (htarget : ¬ Reserved target) :
    (r.resolveExport (stem s index) target).program.NamesKnown := by
  refine ⟨h.legible.renameVariables _, fun y hy => ?_⟩
  rw [Resolution.readNames_resolveExport h] at hy
  obtain ⟨x, hx, rfl⟩ := List.mem_map.mp hy
  rcases h.known x hx with hstemless | ⟨c, rfl⟩
  · rw [hstemless.exportedName?, Option.getD_none]
    exact .inl hstemless
  · rw [Component.exportedName?_name]
    cases hc : c.exportedAs? s index target with
    | none => exact .inr ⟨c, rfl⟩
    | some y => exact .inl (Component.stemless_of_exportedAs? htarget hc)

end

/-- The exports report the new names of the components that they take. -/
theorem mem_exported_of_exports {env : Env} {exports : List (String × String)}
    (htargets : ∀ p ∈ exports, ¬ Reserved p.2) (r : Resolution) (hnames : r.program.NamesKnown)
    (y : String) :
    y ∈ (env.resolveExports exports r).exported ↔ y ∈ r.exported ∨
      ∃ c : Component, c.name ∈ r.program.readNames ∧
        exports.findSome? (env.takes? c) = some y := by
  induction exports generalizing r with
  | nil => simp [Env.resolveExports]
  | cons p exports ih =>
    obtain ⟨htarget, hrest⟩ := List.forall_mem_cons.mp htargets
    simp only [List.findSome?_cons]
    cases hb : env.binding? p.1 with
    | none =>
      rw [Env.resolveExports_cons_none hb, ih hrest r hnames]
      simp only [Env.takes?, hb, Option.bind_none]
    | some b =>
      rw [Env.resolveExports_cons_some hb, ih hrest _ (hnames.resolveExport htarget),
        Resolution.mem_exported_resolveExport hnames, or_assoc, ← exists_or]
      refine or_congr_right (exists_congr fun c => ?_)
      -- the export takes the component, or leaves it to the later ones
      rw [Resolution.mem_readNames_resolveExport hnames htarget, Env.takes?, hb, Option.bind_some]
      cases c.exportedAs? b.value.sort b.index p.2 with
      | none => simp
      | some z => simp

theorem exported_of_imports (imports : List (String × String)) (r : Resolution) :
    (imports.foldl (fun r p => r.resolveImport p.1 p.2) r).exported = r.exported := by
  induction imports generalizing r with
  | nil => rfl
  | cons p imports ih => exact ih _

/-! ## Programs -/

section

variable {env : Env}

/-- A name that is an alias becomes a target, and no stem begins it. -/
theorem Env.importsName_stemless {x : String} (htargets : ∀ p ∈ env.imports, ¬ Reserved p.2)
    (hx : x ∈ env.imports.map Prod.fst) : Stemless (env.importsName x) := by
  obtain ⟨p, hp, heq⟩ := List.mem_map.mp (Renaming.applyAll_whole_mem hx)
  rw [Env.importsName, ← heq]
  exact stemless_of_not_reserved (htargets p hp)

/-- The final name of a component. -/
theorem Env.finalName_component (himports : ∀ p ∈ env.imports, ¬ Reserved p.2)
    (hexports : ∀ p ∈ env.exports, ¬ Reserved p.2) (c : Component) :
    env.finalName c.name = if c.name ∈ env.imports.map Prod.fst then env.importsName c.name
      else (env.exportedAs? c).getD c.name := by
  rw [finalName_eq]
  split
  · next halias => exact (importsName_stemless himports halias).applyAll_exportSteps env _
  · next halias =>
    rw [show env.importsName c.name = c.name from Renaming.applyAll_whole_of_notMem halias]
    exact applyAll_exportSteps_component hexports c

end

/-- The components that the imports leave, in a lowered program. -/
theorem Lowers.mem_readNames_imports {env : Env} {ls : List SourceLet} {lines : List Tree}
    (h : Lowers .empty ls env lines) (himports : ∀ p ∈ env.imports, ¬ Reserved p.2)
    (hvariables : ∀ p ∈ env.exports, ¬ Reserved p.1) :
    ((chipProgram lines).renameVariables env.importsName).NamesKnown ∧ ∀ c : Component,
      c.name ∈ ((chipProgram lines).renameVariables env.importsName).readNames ↔
        c ∈ env.components ∧ c.name ∉ env.imports.map Prod.fst := by
  -- an external that is not imported is an exported variable, so its name is not generated
  have hcases : ∀ x ∈ (chipProgram lines).readNames, Stemless (env.importsName x) ∨
      ∃ c ∈ env.components, env.importsName x = c.name ∧ c.name ∉ env.imports.map Prod.fst := by
    intro x hx
    by_cases halias : x ∈ env.imports.map Prod.fst
    · exact .inl (Env.importsName_stemless himports halias)
    · have hsame : env.importsName x = x := Renaming.applyAll_whole_of_notMem halias
      rw [hsame]
      rcases h.name_cases hx with ⟨c, hc, rfl⟩ | hexternal
      · exact .inr ⟨c, hc, rfl, halias⟩
      · obtain ⟨p, hp, rfl⟩ :=
          List.mem_map.mp (Env.mem_exports_of_target hexternal.target halias)
        exact .inl (stemless_of_not_reserved (hvariables p hp))
  have hnames := Tree.readNames_renameVariables (f := env.importsName) h.hasNames
  refine ⟨⟨h.legible.renameVariables _, fun y hy => ?_⟩, fun c => ⟨fun hc => ?_, fun hc => ?_⟩⟩
  · rw [hnames] at hy
    obtain ⟨x, hx, rfl⟩ := List.mem_map.mp hy
    refine (hcases x hx).imp_right ?_
    rintro ⟨c, -, heq, -⟩
    exact ⟨c, heq⟩
  · rw [hnames] at hc
    obtain ⟨x, hx, heq⟩ := List.mem_map.mp hc
    rcases hcases x hx with hstemless | ⟨d, hd, hname, halias⟩
    · exact absurd (heq ▸ hstemless) c.not_stemless_name
    · obtain rfl := Component.name_injective (hname.symm.trans heq)
      exact ⟨hd, halias⟩
  · rw [hnames]
    refine List.mem_map.mpr ⟨c.name, h.name_mem_readNames hc.1, ?_⟩
    exact Renaming.applyAll_whole_of_notMem hc.2

/-- What resolution makes of the components of the variables, and what it reports as exported. -/
structure Resolution.ShowsExports (r : Resolution) (env : Env) : Prop where
  /-- Each component is assigned under its final name. -/
  assigned : r.program.statements.map Tree.targetName
    = env.components.map fun c => env.finalName c.name
  /-- An import can take a component by its name. Otherwise the first export takes it whose variable
  has its sort and an index that begins its index. -/
  renamed : ∀ c ∈ env.components, env.finalName c.name =
    if c.name ∈ env.imports.map Prod.fst then env.importsName c.name
    else (env.exportedAs? c).getD c.name
  /-- The new names that exports have given are reported, and no other ones. -/
  reported : (∀ p ∈ env.exports, ¬ Reserved p.1) → ∀ y, y ∈ r.exported ↔
    ∃ c ∈ env.components, c.name ∉ env.imports.map Prod.fst ∧ env.exportedAs? c = some y

/-- No index of an exported variable begins the index of another variable of its sort. -/
def Env.IndicesApart (env : Env) : Prop :=
  ∀ p ∈ env.exports, ∀ b ∈ env.bindings, b.name = p.1 → ∀ d ∈ env.bindings,
    d.value.sort = b.value.sort → Component.digits b.index <+: Component.digits d.index →
    d.name = b.name

/-- The indices are apart, no component has the alias of an import for its name, and no exported
variable is called like a generated name. -/
structure Env.Separated (env : Env) : Prop where
  aliases : ∀ c ∈ env.components, c.name ∉ env.imports.map Prod.fst
  indices : env.IndicesApart
  sources : ∀ p ∈ env.exports, ¬ Reserved p.1

/-- Exactly the components of the exported variables are renamed and reported. -/
structure Resolution.ExportsExactly (r : Resolution) (env : Env) : Prop where
  renamed : ∀ p ∈ env.exports, ∀ b, env.binding? p.1 = some b →
    ∀ c ∈ b.value.components b.index, env.finalName c.name = p.2 ++ c.position
  kept : ∀ b ∈ env.bindings, b.name ∉ env.exports.map Prod.fst →
    ∀ c ∈ b.value.components b.index, env.finalName c.name = c.name
  reported : ∀ y, y ∈ r.exported ↔ ∃ p ∈ env.exports, ∃ b, env.binding? p.1 = some b ∧
    ∃ c ∈ b.value.components b.index, p.2 ++ c.position = y

namespace Env

variable {env : Env} {p : String × String} {b d : Binding} {c : Component} {y : String}

theorem binding?_of_mem (hnames : (env.bindings.map Binding.name).Nodup) (hd : d ∈ env.bindings) :
    env.binding? d.name = some d := by
  cases hb : env.binding? d.name with
  | none => exact absurd (List.find?_eq_none.mp hb d hd) (by simp)
  | some b =>
    obtain ⟨hmem, hname⟩ := name_mem_of_binding? hb
    rw [List.inj_on_of_nodup_map hnames hmem hd hname]

/-- An export gives the components of its variable the target with their positions. -/
theorem takes?_component (hb : env.binding? p.1 = some b) (hc : c ∈ b.value.components b.index) :
    env.takes? c p = some (p.2 ++ c.position) := by
  obtain ⟨hsort, hindex⟩ := Value.of_mem_components hc
  refine takes?_eq_some.mpr ⟨b, hb, Component.exportedAs?_eq_some.mpr ⟨hsort.symm, [], ?_, ?_⟩⟩
  · rw [hindex, List.append_nil]
  · exact congrArg (· ++ c.position) String.append_empty

namespace Separated

/-- Where indices are separated, an export takes components of its own variable only. -/
theorem name_eq_of_takes (h : env.Separated) (hp : p ∈ env.exports) (hd : d ∈ env.bindings)
    (hc : c ∈ d.value.components d.index) (htakes : env.takes? c p = some y) : d.name = p.1 := by
  obtain ⟨b, hb, hy⟩ := takes?_eq_some.mp htakes
  obtain ⟨hsort, rest, hrest, -⟩ := Component.exportedAs?_eq_some.mp hy
  obtain ⟨hsort', hindex⟩ := Value.of_mem_components hc
  obtain ⟨hmem, hname⟩ := name_mem_of_binding? hb
  rw [← hname]
  exact h.indices p hp b hmem hname d hd (hsort'.symm.trans hsort.symm) ⟨rest, hindex ▸ hrest⟩

theorem exportedAs?_of_exported (h : env.Separated) (hnames : (env.exports.map Prod.fst).Nodup)
    (hp : p ∈ env.exports) (hb : env.binding? p.1 = some b)
    (hc : c ∈ b.value.components b.index) : env.exportedAs? c = some (p.2 ++ c.position) := by
  obtain ⟨hmem, hname⟩ := name_mem_of_binding? hb
  cases hy : env.exportedAs? c with
  | none =>
    have hnone := List.findSome?_eq_none_iff.mp hy p hp
    rw [takes?_component hb hc] at hnone
    cases hnone
  | some y =>
    -- the export that has taken the component is of the same variable, so it is this one
    obtain ⟨q, hq, htakes⟩ := List.exists_of_findSome?_eq_some hy
    have hqp : q.1 = p.1 := (h.name_eq_of_takes hq hmem hc htakes).symm.trans hname
    obtain rfl := List.inj_on_of_nodup_map hnames hq hp hqp
    rw [← htakes, takes?_component hb hc]

theorem exportedAs?_of_not_exported (h : env.Separated) (hd : d ∈ env.bindings)
    (hnot : d.name ∉ env.exports.map Prod.fst) (hc : c ∈ d.value.components d.index) :
    env.exportedAs? c = none := by
  refine List.findSome?_eq_none_iff.mpr fun p hp => ?_
  refine Option.eq_none_iff_forall_ne_some.mpr fun y htakes => hnot ?_
  rw [h.name_eq_of_takes hp hd hc htakes]
  exact List.mem_map_of_mem hp

end Separated

/-- With ten variables of each sort at most, no index begins another one. -/
theorem Consistent.indicesApart_of_few (h : env.Consistent) (hfew : ∀ s, env.nextIndex s ≤ 10) :
    env.IndicesApart := by
  intro p _ b hb _ d hd hsort hdigits
  have hdigit : ∀ n < 10, (Component.digits n).length = 1 := by decide
  have hindices := h.indices b.value.sort
  have hb' : b ∈ env.bindingsOf b.value.sort := List.mem_filter.mpr ⟨hb, by simp⟩
  have hd' : d ∈ env.bindingsOf b.value.sort := List.mem_filter.mpr ⟨hd, by simpa using hsort⟩
  have hbound : ∀ e ∈ env.bindingsOf b.value.sort, e.index < 10 := by
    intro e he
    have hmem := List.mem_map_of_mem (f := Binding.index) he
    rw [hindices, List.mem_range] at hmem
    have hle := hfew b.value.sort
    omega
  -- both indices have one digit
  have heq : Component.digits b.index = Component.digits d.index :=
    hdigits.eq_of_length ((hdigit _ (hbound b hb')).trans (hdigit _ (hbound d hd')).symm)
  have hnodup : ((env.bindingsOf b.value.sort).map Binding.index).Nodup := by
    rw [hindices]
    exact List.nodup_range
  rw [List.inj_on_of_nodup_map hnodup hb' hd' (Component.digits_injective heq)]

end Env

/-- What resolution shows of the exports is exact where the variables are separated. -/
theorem Resolution.ShowsExports.exactly {r : Resolution} {env : Env} (h : r.ShowsExports env)
    (hsep : env.Separated) (hnames : (env.bindings.map Binding.name).Nodup)
    (hexports : (env.exports.map Prod.fst).Nodup) : r.ExportsExactly env := by
  have hmem : ∀ {d c}, d ∈ env.bindings → c ∈ d.value.components d.index → c ∈ env.components :=
    fun hd hc => List.mem_flatMap.mpr ⟨_, hd, hc⟩
  have hfinal : ∀ c ∈ env.components, env.finalName c.name = (env.exportedAs? c).getD c.name :=
    fun c hc => (h.renamed c hc).trans (if_neg (hsep.aliases c hc))
  refine ⟨fun p hp b hb c hc => ?_, fun d hd hnot c hc => ?_, fun y => ?_⟩
  · rw [hfinal c (hmem (Env.name_mem_of_binding? hb).1 hc),
      hsep.exportedAs?_of_exported hexports hp hb hc, Option.getD_some]
  · rw [hfinal c (hmem hd hc), hsep.exportedAs?_of_not_exported hd hnot hc, Option.getD_none]
  · rw [h.reported hsep.sources]
    constructor
    · rintro ⟨c, hc, -, hy⟩
      obtain ⟨d, hd, hcd⟩ := List.mem_flatMap.mp hc
      obtain ⟨p, hp, htakes⟩ := List.exists_of_findSome?_eq_some hy
      have hb := Env.binding?_of_mem hnames hd
      rw [hsep.name_eq_of_takes hp hd hcd htakes] at hb
      refine ⟨p, hp, d, hb, c, hcd, Option.some.inj ?_⟩
      rw [← htakes, Env.takes?_component hb hcd]
    · rintro ⟨p, hp, b, hb, c, hc, rfl⟩
      have hcomponent := hmem (Env.name_mem_of_binding? hb).1 hc
      exact ⟨c, hcomponent, hsep.aliases c hcomponent,
        hsep.exportedAs?_of_exported hexports hp hb hc⟩

/-- Exports rename by the beginning of the index. If no target is like a generated name, each
component is assigned under its final name: the one that the first export gives whose variable has
the sort of the component and an index that begins its index, or its own name. These new names are
what is reported as exported. So exactly the exported variables are renamed where no index of an
exported variable begins another one, and none does with ten variables of each sort at most. -/
theorem resolveAliases_exports_by_index {files : FileStore} {program chip : Tree} {env : Env}
    (h : (lowerProgram files .empty program).Returns (env, chip))
    (htargets : ∀ p ∈ env.imports ++ env.exports, ¬ Reserved p.2) :
    ∃ r, resolveAliases env chip = .ok r ∧ r.program = chip.renameVariables env.finalName ∧
      r.ShowsExports env ∧ (env.Separated → r.ExportsExactly env) ∧
      ((∀ s, env.nextIndex s ≤ 10) → env.IndicesApart) := by
  obtain ⟨himports, hexports⟩ := List.forall_mem_append.mp htargets
  obtain ⟨-, hnodup, -⟩ := nodup_of_lowerProgram h
  obtain ⟨lines, rfl, hlowers, -⟩ := lowers_of_lowerProgram h
  have hkind : (chipProgram lines).kind = "program" := by cases lines <;> rfl
  have hbound := hlowers.exports_bound fun p hp => by cases hp
  obtain ⟨r, hr, hprogram⟩ := program_of_resolveAliases hkind hbound
  have hresolved := Except.ok.inj (hr.symm.trans (resolveAliases_eq hkind hbound))
  have hshows : r.ShowsExports env := by
    refine ⟨?_, fun c _ => Env.finalName_component himports hexports c, fun hvariables y => ?_⟩
    · rw [hprogram]
      exact hlowers.targets_renameVariables env.finalName
    · obtain ⟨hknown, hleft⟩ := hlowers.mem_readNames_imports himports hvariables
      rw [hresolved, mem_exported_of_exports hexports _ (by rw [program_of_imports]; exact hknown),
        exported_of_imports, program_of_imports]
      -- nothing is reported before the exports
      refine (or_iff_right List.not_mem_nil).trans (exists_congr fun c => ?_)
      rw [← and_assoc]
      exact and_congr_left fun _ => hleft c
  have hconsistent := hlowers.preserves_consistent .empty
  refine ⟨r, hr, hprogram, hshows, fun hsep => ?_, hconsistent.indicesApart_of_few⟩
  exact hshows.exactly hsep (List.nodup_append.mp hconsistent.names).1 hnodup

/-- A program that defines numbers and a vector, and then exports variables. -/
def exportingProgram (numbers : List String) (exports : List (String × String)) : Tree :=
  let line (t : Tree) := Tree.node "line" [t]
  .node "program" (
    numbers.map (fun x => line (.node "let_num" [.variableNamed x, .numberOf (.int 7)])) ++
    [line (.node "let_vec" [.variableNamed "V",
      .node "vector" [.numberOf (.int 3), .variableNamed "A"]])] ++
    exports.map fun (x, target) =>
      line (.node "export" [.variableNamed x, .text "external" target]))

theorem resolveAliases_exports_vector :
    ∃ env chip r, (lowerProgram [] .empty (exportingProgram ["A", "B"]
        [("V", "out"), ("B", "b")])).Returns (env, chip) ∧
      (∀ p ∈ env.imports ++ env.exports, ¬ Reserved p.2) ∧ env.Separated ∧
      resolveAliases env chip = .ok r ∧ r.exported = ["out_e0", "out_e1", "b"] ∧
      r.program.statements.map Tree.targetName = ["_yovec_num0", "b", "out_e0", "out_e1"] ∧
      r.ShowsExports env ∧ r.ExportsExactly env := by
  have h : (lowerProgram [] .empty (exportingProgram ["A", "B"]
      [("V", "out"), ("B", "b")])).Returns _ := ⟨.start, _, rfl⟩
  obtain ⟨r, hr, -, hshows, hexact, hfew⟩ := resolveAliases_exports_by_index h (by decide)
  obtain rfl := Except.ok.inj hr
  have hsep : Env.Separated _ :=
    ⟨by decide, hfew fun s => by cases s <;> decide, by decide⟩
  exact ⟨_, _, _, h, by decide, hsep, rfl, by decide, by decide, hshows, hexact hsep⟩

/-- With eleven numbers, the export of the one with index 1 renames and reports the one with index
10, which is not exported. -/
theorem resolveAliases_exports_neighbour :
    ∃ env chip r, (lowerProgram [] .empty (exportingProgram
        ["A", "B", "C", "D", "E", "F", "G", "H", "I", "J", "K"] [("B", "b")])).Returns
          (env, chip) ∧
      resolveAliases env chip = .ok r ∧ (∀ p ∈ env.imports ++ env.exports, ¬ Reserved p.2) ∧
      (env.binding? "K").map Binding.index = some 10 ∧ "K" ∉ env.exports.map Prod.fst ∧
      env.finalName (Component.number 10).name = "b0" ∧ r.exported = ["b", "b0"] :=
  ⟨_, _, _, ⟨.start, _, rfl⟩, rfl, by decide +kernel, by decide +kernel, by decide +kernel,
    by decide +kernel, by decide +kernel⟩

end Scalarize
