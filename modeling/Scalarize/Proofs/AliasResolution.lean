import Scalarize.Alias
import Scalarize.Proofs.SingleAssignment

/-!
# Scalarize — what the resolution of aliases does to names

Resolution renames the variables of a chip program, one alias after the other. Each renaming sees
the names that the earlier ones have given, and nothing keeps it from giving a name that is in use
already. So different things keep different names exactly if no renaming, when its turn comes, gives
a name that something else has.

* **`Env.finalName`** — the name that a variable ends up with.
* **`program_of_resolveAliases`** — resolution renames each occurrence of a variable to it.
* **`clean_iff`** — the renamings in a row are injective if and only if no one of them collides.
* **`resolveAliases_injective_iff`** — this for the components of variables and the imports of a
  lowered program.
-/

namespace Scalarize

/-! ## Renaming trees -/

namespace Tree

/-- The variables of the tree have names. -/
def HasNames (t : Tree) : Prop :=
  ∀ u ∈ t.find fun u => u.isLeaf && u.isVariable, ∃ s, u.value = some (.text s)

/-- Each variable of the tree is a leaf with a name, or a node without one. -/
def Legible (t : Tree) : Prop :=
  ∀ u ∈ t.variableNodes, (∃ x, u = .variableNamed x) ∨ ∃ cs, u = .node "variable" cs

theorem find_eq_filter (p : Tree → Bool) (t : Tree) :
    t.find p = (t.find fun _ => true).filter p := by
  induction t with
  | leaf k v =>
    rw [find_leaf, find_leaf]
    by_cases hp : p (leaf k v) = true <;> simp [hp]
  | branch k v cs ih =>
    rw [find_branch, find_branch, List.filter_append, List.filter_flatMap]
    congr 1
    · by_cases hp : p (branch k v cs) = true <;> simp [hp]
    · exact List.flatMap_congr ih

theorem mem_find_of_mem_find {p q : Tree → Bool} {t u : Tree} (h : u ∈ t.find p)
    (hq : q u = true) : u ∈ t.find q := by
  rw [find_eq_filter, List.mem_filter] at h ⊢
  exact ⟨h.1, hq⟩

theorem Legible.of_children {k : String} {cs : List Tree} (h : ∀ c ∈ cs, c.Legible) :
    (node k cs).Legible := by
  intro u hu
  rw [variableNodes, node, find_branch] at hu
  rcases List.mem_append.mp hu with hu | hu
  · split at hu
    · next hk =>
      obtain rfl : k = "variable" := beq_iff_eq.mp hk
      exact .inr ⟨cs, List.mem_singleton.mp hu⟩
    · cases hu
  · obtain ⟨c, hc, hu⟩ := List.mem_flatMap.mp hu
    exact h c hc u hu

theorem Legible.hasNames {t : Tree} (h : t.Legible) : t.HasNames := by
  intro u hu
  have hleaf : u.isLeaf = true ∧ u.isVariable = true := by
    rw [find_eq_filter, List.mem_filter, Bool.and_eq_true] at hu
    exact hu.2
  rcases h u (mem_find_of_mem_find hu hleaf.2) with ⟨x, rfl⟩ | ⟨cs, rfl⟩
  · exact ⟨x, rfl⟩
  · cases hleaf.1

theorem mapVariablesAll_eq_map (f : Option Scalar → Option Scalar) (ts : List Tree) :
    mapVariablesAll f ts = ts.map (mapVariables f) := by
  induction ts with
  | nil => rfl
  | cons t ts ih => rw [mapVariablesAll, ih, List.map_cons]

theorem HasNames.of_children {k : String} {v : Option Scalar} {cs : List Tree}
    (h : ∀ c ∈ cs, c.HasNames) : (branch k v cs).HasNames := by
  intro u hu
  rw [find_branch] at hu
  obtain ⟨c, hc, hu⟩ := List.mem_flatMap.mp hu
  exact h c hc u hu

/-- Renaming the variables of a tree renames each occurrence. -/
theorem readNames_renameVariables {f : String → String} {t : Tree} (h : t.HasNames) :
    (t.renameVariables f).readNames = t.readNames.map f := by
  induction t with
  | leaf k v =>
    rw [renameVariables, mapVariables, readNames_leaf, readNames_leaf]
    by_cases hk : (k == "variable") = true
    · obtain ⟨s, hs⟩ := h (.leaf k v) (by
        rw [find_leaf, if_pos (by rw [isVariable]; exact hk)]
        exact List.mem_cons_self)
      obtain rfl : v = some (.text s) := hs
      rw [if_pos hk, if_pos hk, if_pos hk]
      rfl
    · rw [if_neg hk, if_neg hk]
      rfl
  | branch k v cs ih =>
    have hchildren : ∀ c ∈ cs, c.HasNames := by
      intro c hc u hu
      refine h u ?_
      rw [find_branch]
      exact List.mem_append_right _ (List.mem_flatMap.mpr ⟨c, hc, hu⟩)
    rw [renameVariables, mapVariables, mapVariablesAll_eq_map, readNames_branch, readNames_branch,
      List.flatMap_map, List.map_flatMap]
    exact List.flatMap_congr fun c hc => ih c hc (hchildren c hc)

theorem mapVariables_mapVariables (f g : Option Scalar → Option Scalar) (t : Tree) :
    (t.mapVariables f).mapVariables g = t.mapVariables fun v => g (f v) := by
  induction t with
  | leaf k v =>
    rw [mapVariables, mapVariables, mapVariables]
    split <;> rfl
  | branch k v cs ih =>
    rw [mapVariables, mapVariables, mapVariables, mapVariablesAll_eq_map, mapVariablesAll_eq_map,
      mapVariablesAll_eq_map, List.map_map]
    congr 1
    · split <;> rfl
    · exact List.map_congr_left fun c hc => ih c hc

theorem mapVariables_eq_self {f : Option Scalar → Option Scalar} (hf : ∀ v, f v = v) (t : Tree) :
    t.mapVariables f = t := by
  induction t with
  | leaf k v => rw [mapVariables, hf, ite_self]
  | branch k v cs ih =>
    rw [mapVariables, hf, ite_self, mapVariablesAll_eq_map]
    exact congrArg _ ((List.map_congr_left fun c hc => ih c hc).trans (List.map_id _))

theorem renameVariables_renameVariables (f g : String → String) (t : Tree) :
    (t.renameVariables f).renameVariables g = t.renameVariables fun x => g (f x) := by
  rw [renameVariables, renameVariables, mapVariables_mapVariables, renameVariables]
  congr 1
  funext v
  rcases v with _ | _ | _ <;> rfl

theorem renameVariables_id (t : Tree) : t.renameVariables (fun x => x) = t :=
  mapVariables_eq_self (fun v => by rcases v with _ | _ | _ <;> rfl) t

end Tree

/-! ## Renamings in a row -/

/-- One step of the resolution: an import renames a whole name, an export the names that begin with
a stem. -/
inductive Renaming where
  | whole (handle target : String)
  | leading (start target : String)

namespace Renaming

/-- The name that a step gives to a variable. -/
def apply : Renaming → String → String
  | whole handle target, x => if x == handle then target else x
  | leading start target, x => (Resolution.exportedName? start target x).getD x

/-- A step gives a name in use to another variable. -/
def Collides (names : List String) : Renaming → Prop
  | whole handle target => handle ∈ names ∧ target ∈ names ∧ target ≠ handle
  | leading start target => ∃ x ∈ names, ∃ y ∈ names, y ≠ x ∧
      Resolution.exportedName? start target x
        = some ((Resolution.exportedName? start target y).getD y)

instance (names : List String) (r : Renaming) : Decidable (r.Collides names) :=
  match r with
  | whole handle target =>
    inferInstanceAs (Decidable (handle ∈ names ∧ target ∈ names ∧ target ≠ handle))
  | leading start target =>
    inferInstanceAs (Decidable (∃ x ∈ names, ∃ y ∈ names, y ≠ x ∧
      Resolution.exportedName? start target x
        = some ((Resolution.exportedName? start target y).getD y)))

/-- A step collides if and only if it makes one name of two. -/
theorem collides_iff (names : List String) (r : Renaming) :
    r.Collides names ↔ ∃ x ∈ names, ∃ y ∈ names, x ≠ y ∧ r.apply x = r.apply y := by
  cases r with
  | whole handle target =>
    constructor
    · rintro ⟨hhandle, htarget, hne⟩
      refine ⟨handle, hhandle, target, htarget, hne.symm, ?_⟩
      simp only [apply, beq_self_eq_true, if_true, beq_iff_eq, if_neg hne]
    · rintro ⟨x, hx, y, hy, hne, heq⟩
      simp only [apply, beq_iff_eq] at heq
      by_cases hxh : x = handle
      · have hyh : y ≠ handle := fun h => hne (hxh.trans h.symm)
        rw [if_pos hxh, if_neg hyh] at heq
        exact ⟨hxh ▸ hx, heq ▸ hy, heq ▸ hyh⟩
      · by_cases hyh : y = handle
        · rw [if_neg hxh, if_pos hyh] at heq
          exact ⟨hyh ▸ hy, heq ▸ hx, heq ▸ hxh⟩
        · rw [if_neg hxh, if_neg hyh] at heq
          exact absurd heq hne
  | leading start target =>
    constructor
    · rintro ⟨x, hx, y, hy, hne, heq⟩
      exact ⟨x, hx, y, hy, hne.symm, by rw [apply, heq]; rfl⟩
    · rintro ⟨x, hx, y, hy, hne, heq⟩
      simp only [apply] at heq
      cases hnew : Resolution.exportedName? start target x with
      | some z =>
        rw [hnew] at heq
        exact ⟨x, hx, y, hy, hne.symm, by rw [hnew, ← heq]; rfl⟩
      | none =>
        -- then it is the other name that changes
        rw [hnew] at heq
        cases hnew' : Resolution.exportedName? start target y with
        | some z =>
          rw [hnew'] at heq
          exact ⟨y, hy, x, hx, hne, by rw [hnew, hnew']; exact congrArg some heq.symm⟩
        | none =>
          rw [hnew'] at heq
          exact absurd heq hne

/-- The name after all steps. -/
def applyAll (rs : List Renaming) (x : String) : String :=
  rs.foldl (fun x r => r.apply x) x

theorem applyAll_append (rs rs' : List Renaming) (x : String) :
    applyAll (rs ++ rs') x = applyAll rs' (applyAll rs x) :=
  List.foldl_append

/-- No step collides with the names that are there when its turn comes. -/
def Clean : List Renaming → List String → Prop
  | [], _ => True
  | r :: rs, names => ¬ r.Collides names ∧ Clean rs (names.map r.apply)

instance decidableClean : (rs : List Renaming) → (names : List String) →
    Decidable (Clean rs names)
  | [], _ => .isTrue trivial
  | r :: rs, names =>
    have := decidableClean rs (names.map r.apply)
    inferInstanceAs (Decidable (_ ∧ _))

/-- Renamings in a row keep names apart if and only if no step collides. What an early step has made
one, no later step takes apart. -/
theorem clean_iff (rs : List Renaming) (names : List String) :
    Clean rs names ↔
      ∀ x ∈ names, ∀ y ∈ names, applyAll rs x = applyAll rs y → x = y := by
  induction rs generalizing names with
  | nil => exact ⟨fun _ x _ y _ h => h, fun _ => trivial⟩
  | cons r rs ih =>
    rw [Clean, collides_iff, ih]
    constructor
    · rintro ⟨hstep, hrest⟩ x hx y hy heq
      by_contra hne
      -- the rest is injective on the new names, so the first step has merged the two
      refine hstep ⟨x, hx, y, hy, hne, ?_⟩
      exact hrest _ (List.mem_map_of_mem hx) _ (List.mem_map_of_mem hy) heq
    · intro h
      refine ⟨fun ⟨x, hx, y, hy, hne, heq⟩ => hne (h x hx y hy ?_), fun x' hx' y' hy' heq => ?_⟩
      · exact congrArg (applyAll rs) heq
      · obtain ⟨x, hx, rfl⟩ := List.mem_map.mp hx'
        obtain ⟨y, hy, rfl⟩ := List.mem_map.mp hy'
        rw [h x hx y hy heq]

end Renaming

/-! ## Resolution -/

namespace Env

/-- The steps of the resolution: the imports, then the exports. -/
def renamings (env : Env) : List Renaming :=
  env.imports.map (fun p => .whole p.1 p.2) ++
    env.exports.filterMap fun p =>
      (env.binding? p.1).map fun b => .leading (stem b.value.sort b.index) p.2

/-- The name that a variable of the chip program ends up with. -/
def finalName (env : Env) : String → String :=
  Renaming.applyAll env.renamings

/-- The steps of some exports. -/
def exportSteps (env : Env) (exports : List (String × String)) : List Renaming :=
  exports.filterMap fun p =>
    (env.binding? p.1).map fun b => .leading (stem b.value.sort b.index) p.2

/-- Resolve exports in turn; an export without a variable is passed over. -/
def resolveExports (env : Env) (exports : List (String × String)) (r : Resolution) : Resolution :=
  exports.foldl (fun r p =>
    match env.binding? p.1 with
    | some b => r.resolveExport (stem b.value.sort b.index) p.2
    | none => r) r

section

variable {env : Env} {p : String × String} {exports : List (String × String)} {b : Binding}

theorem exportSteps_cons_none (hb : env.binding? p.1 = none) :
    env.exportSteps (p :: exports) = env.exportSteps exports := by
  rw [exportSteps, List.filterMap_cons, hb]
  rfl

theorem exportSteps_cons_some (hb : env.binding? p.1 = some b) :
    env.exportSteps (p :: exports)
      = .leading (stem b.value.sort b.index) p.2 :: env.exportSteps exports := by
  rw [exportSteps, List.filterMap_cons, hb]
  rfl

theorem resolveExports_cons_none (hb : env.binding? p.1 = none) (r : Resolution) :
    env.resolveExports (p :: exports) r = env.resolveExports exports r := by
  rw [resolveExports, List.foldl_cons, hb]
  rfl

theorem resolveExports_cons_some (hb : env.binding? p.1 = some b) (r : Resolution) :
    env.resolveExports (p :: exports) r
      = env.resolveExports exports (r.resolveExport (stem b.value.sort b.index) p.2) := by
  rw [resolveExports, List.foldl_cons, hb]
  rfl

end

end Env

theorem program_of_imports (imports : List (String × String)) (r : Resolution) :
    (imports.foldl (fun r p => r.resolveImport p.1 p.2) r).program
      = r.program.renameVariables
          (Renaming.applyAll (imports.map fun p => .whole p.1 p.2)) := by
  induction imports generalizing r with
  | nil => exact (Tree.renameVariables_id _).symm
  | cons p imports ih =>
    rw [List.foldl_cons, ih, Resolution.resolveImport, Tree.renameVariables_renameVariables]
    rfl

theorem program_of_exports (env : Env) (exports : List (String × String)) (r : Resolution) :
    (env.resolveExports exports r).program
      = r.program.renameVariables (Renaming.applyAll (env.exportSteps exports)) := by
  induction exports generalizing r with
  | nil => exact (Tree.renameVariables_id _).symm
  | cons p exports ih =>
    cases hb : env.binding? p.1 with
    | none => rw [Env.resolveExports_cons_none hb, Env.exportSteps_cons_none hb, ih]
    | some b =>
      rw [Env.resolveExports_cons_some hb, Env.exportSteps_cons_some hb, ih,
        Resolution.resolveExport, Tree.renameVariables_renameVariables]
      rfl

/-- No export fails if its variable is there. -/
theorem foldlM_exports_eq {env : Env} {exports : List (String × String)}
    (hbound : ∀ p ∈ exports, ∃ b, env.binding? p.1 = some b) (r : Resolution) :
    exports.foldlM (fun r (handle, target) =>
        match env.lookup handle with
        | .ok b => .ok (r.resolveExport (stem b.value.sort b.index) target)
        | .error d => .error (.diagnostic d)) r
      = (.ok (env.resolveExports exports r) : Except Failure Resolution) := by
  induction exports generalizing r with
  | nil => rfl
  | cons p exports ih =>
    obtain ⟨⟨b, hb⟩, hrest⟩ := List.forall_mem_cons.mp hbound
    have hlookup : env.lookup p.1 = .ok b := by rw [Env.lookup, hb]
    rw [List.foldlM_cons, Env.resolveExports_cons_some hb]
    dsimp only
    rw [hlookup]
    exact ih hrest _

/-- Resolution cannot fail if the exported variables are there. -/
theorem resolveAliases_eq {env : Env} {chip : Tree} (hkind : chip.kind = "program")
    (hbound : ∀ p ∈ env.exports, ∃ b, env.binding? p.1 = some b) :
    resolveAliases env chip = .ok (env.resolveExports env.exports
      (env.imports.foldl (fun r p => r.resolveImport p.1 p.2) ⟨chip, [], []⟩)) := by
  rw [resolveAliases, hkind]
  exact foldlM_exports_eq hbound _

/-- Resolution renames each variable to its final name. -/
theorem program_of_resolveAliases {env : Env} {chip : Tree} (hkind : chip.kind = "program")
    (hbound : ∀ p ∈ env.exports, ∃ b, env.binding? p.1 = some b) :
    ∃ r, resolveAliases env chip = .ok r ∧ r.program = chip.renameVariables env.finalName := by
  refine ⟨_, resolveAliases_eq hkind hbound, ?_⟩
  rw [program_of_exports, program_of_imports, Tree.renameVariables_renameVariables]
  -- the exports go on where the imports have stopped
  congr 1
  funext x
  exact (Renaming.applyAll_append _ _ x).symm

/-! ## Lowered programs -/

theorem Lowers.exports_bound {env env' : Env} {ls : List SourceLet} {lines : List Tree}
    (h : Lowers env ls env' lines) (hbound : ∀ p ∈ env.exports, ∃ b, env.binding? p.1 = some b) :
    ∀ p ∈ env'.exports, ∃ b, env'.binding? p.1 = some b := by
  induction h with
  | done => exact hbound
  | @declare env env₁ env' ls lines hd _ ih =>
    have hbindings : ∀ n, env₁.binding? n = env.binding? n := fun n => by
      rw [Env.binding?, Env.binding?, hd.bindings_eq]
    refine ih fun p hp => ?_
    rw [hbindings]
    -- only an export adds to the exports, and it asks for a variable
    cases hd with
    | addImport h =>
      rw [(Env.addImport_eq_ok.mp h).2.2.2] at hp
      exact hbound p hp
    | addExport h =>
      obtain ⟨hb, -, -, -, -, rfl⟩ := Env.addExport_eq_ok.mp h
      rcases List.mem_append.mp hp with hp | hp
      · exact hbound p hp
      · rw [List.mem_singleton.mp hp]
        exact hb
    | define h =>
      rw [(Env.define_eq_ok.mp h).2.2] at hp
      exact hbound p hp
  | @bind env env₁ env' v statements ls lines l hsort hv hbind rest ih =>
    have hexports : env₁.exports = env.exports := by
      rw [(Env.bind_eq_ok.mp hbind).2.2.1]
      cases v.sort <;> rfl
    refine ih fun p hp => ?_
    rw [hexports] at hp
    obtain ⟨b, hb⟩ := hbound p hp
    exact ⟨b, (Lowers.bind hsort hv hbind (.done env₁)).binding_eq hb⟩

/-- The variables in the tree of a number are its names. -/
theorem Num.legible_toTree (x : Num) : x.toTree.Legible := by
  induction x with
  | literal n => exact fun u hu => by cases hu
  | name s => exact fun u hu => .inl ⟨s, List.mem_singleton.mp hu⟩
  | unary op x ih => exact .of_children fun c hc => by rwa [List.mem_singleton.mp hc]
  | binary op x y ihx ihy =>
    refine .of_children fun c hc => ?_
    rcases List.mem_pair.mp hc with rfl | rfl
    · exact ihx
    · exact ihy

theorem Num.hasNames_toTree (x : Num) : x.toTree.HasNames :=
  x.legible_toTree.hasNames

theorem Lowers.legible {env env' : Env} {ls : List SourceLet} {lines : List Tree}
    (h : Lowers env ls env' lines) : (chipProgram lines).Legible := by
  have hlines : ∀ line ∈ lines, line.Legible := by
    intro line hline
    obtain ⟨index, v, rfl⟩ := h.line_eq hline
    refine .of_children fun a ha => ?_
    obtain ⟨n, x, -, rfl⟩ := Value.mem_assign ha
    refine .of_children fun c hc => ?_
    rcases List.mem_pair.mp hc with rfl | rfl
    · exact (Num.name n).legible_toTree
    · exact x.legible_toTree
  cases lines with
  | nil => exact fun u hu => by cases hu
  | cons line lines => exact .of_children hlines

/-- The variables of a lowered program have names. -/
theorem Lowers.hasNames {env env' : Env} {ls : List SourceLet} {lines : List Tree}
    (h : Lowers env ls env' lines) : (chipProgram lines).HasNames :=
  h.legible.hasNames

/-- Something that a chip program has names for: a component of a variable of the source program, or
an imported name of the surroundings, told by its alias. -/
inductive Entity where
  | component (c : Component)
  | imported (handle : String)
deriving DecidableEq

/-- The name of an entity in a lowered program. -/
def Entity.name : Entity → String
  | component c => c.name
  | imported handle => handle

/-- The components of all variables, and the imports. -/
def Env.entities (env : Env) : List Entity :=
  (env.bindings.flatMap fun b => (b.value.components b.index).map Entity.component) ++
    env.imports.map fun p => Entity.imported p.1

/-- The entities that occur in a chip program. -/
def Env.occurring (env : Env) (chip : Tree) : List Entity :=
  env.entities.filter fun e => chip.readNames.contains e.name

namespace Entity

/-- No import has the name of a component for its alias. -/
def Apart (es : List Entity) : Prop :=
  ∀ c handle, .component c ∈ es → .imported handle ∈ es → c.name ≠ handle

theorem apart_iff (es : List Entity) :
    Apart es ↔ ∀ e ∈ es, ∀ e' ∈ es, e.name = e'.name → e = e' := by
  refine ⟨fun h e he e' he' hname => ?_, fun h c handle hc himported hname => ?_⟩
  · cases e with
    | component c =>
      cases e' with
      | component d => rw [Component.name_injective hname]
      | imported handle => exact absurd hname (h c handle he he')
    | imported handle =>
      cases e' with
      | component d => exact absurd hname.symm (h d handle he' he)
      | imported handle' => exact congrArg _ hname
  · exact nomatch h _ hc _ himported hname

instance (es : List Entity) : Decidable (Apart es) :=
  decidable_of_iff' _ (apart_iff es)

end Entity

/-- Resolution renames each occurrence of an entity to the final name of the entity. Different
entities never end up with one name if and only if no import that occurs has the name of a component
for its alias, and no renaming, when its turn comes, gives a name that is in use. -/
theorem resolveAliases_injective_iff {files : FileStore} {program chip : Tree} {env : Env}
    (h : (lowerProgram files .empty program).Returns (env, chip)) :
    ∃ r, resolveAliases env chip = .ok r ∧
      r.program = chip.renameVariables env.finalName ∧
      r.program.readNames = chip.readNames.map env.finalName ∧
      ((∀ e ∈ env.occurring chip, ∀ e' ∈ env.occurring chip,
          env.finalName e.name = env.finalName e'.name → e = e') ↔
        Entity.Apart (env.occurring chip) ∧
        Renaming.Clean env.renamings ((env.occurring chip).map Entity.name)) := by
  obtain ⟨lines, rfl, hlowers, -⟩ := lowers_of_lowerProgram h
  have hkind : (chipProgram lines).kind = "program" := by cases lines <;> rfl
  obtain ⟨r, hr, hprogram⟩ := program_of_resolveAliases hkind
    (hlowers.exports_bound fun p hp => by cases hp)
  refine ⟨r, hr, hprogram, ?_, ?_⟩
  · rw [hprogram, Tree.readNames_renameVariables hlowers.hasNames]
  · rw [Entity.apart_iff, Renaming.clean_iff]
    constructor
    · refine fun hinj => ⟨fun e he e' he' hname => ?_, fun x hx y hy hfinal => ?_⟩
      · exact hinj e he e' he' (congrArg env.finalName hname)
      · obtain ⟨e, he, rfl⟩ := List.mem_map.mp hx
        obtain ⟨e', he', rfl⟩ := List.mem_map.mp hy
        rw [hinj e he e' he' hfinal]
    · rintro ⟨hapart, hclean⟩ e he e' he' hfinal
      exact hapart e he e' he'
        (hclean _ (List.mem_map_of_mem he) _ (List.mem_map_of_mem he') hfinal)

/-- A program that imports names under aliases, and exports the difference of `a` and `b`. -/
def differenceProgram (imports : List (String × String)) : Tree :=
  .node "program" [
    .node "line" [.node "import_group" (imports.map fun (target, handle) =>
      .node "import" [.text "external" target, .text "external" handle])],
    .node "line" [.node "let_num" [.variableNamed "X", .node "num_binary"
      [.text "external" "a", .leaf "sub" none, .text "external" "b"]]],
    .node "line" [.node "export" [.variableNamed "X"]]]

theorem resolveAliases_keeps_apart :
    ∃ env chip r, (lowerProgram [] .empty (differenceProgram [("c", "a"), ("d", "b")])).Returns
        (env, chip) ∧
      resolveAliases env chip = .ok r ∧ r.program.readNames = ["x", "c", "d"] ∧
      ∀ e ∈ env.occurring chip, ∀ e' ∈ env.occurring chip,
        env.finalName e.name = env.finalName e'.name → e = e' := by
  have h : (lowerProgram [] .empty (differenceProgram [("c", "a"), ("d", "b")])).Returns _ :=
    ⟨.start, _, rfl⟩
  obtain ⟨r, hr, -, hnames, hiff⟩ := resolveAliases_injective_iff h
  exact ⟨_, _, r, h, hr, hnames.trans (by decide), hiff.mpr ⟨by decide, by decide⟩⟩

/-- Where the alias of one import is the target of an earlier one, the two imports are merged. -/
theorem resolveAliases_merges_chained :
    ∃ env chip r, (lowerProgram [] .empty (differenceProgram [("b", "a"), ("c", "b")])).Returns
        (env, chip) ∧
      resolveAliases env chip = .ok r ∧
      Entity.imported "a" ∈ env.occurring chip ∧ Entity.imported "b" ∈ env.occurring chip ∧
      env.finalName "a" = env.finalName "b" ∧ r.program.readNames = ["x", "c", "c"] :=
  ⟨_, _, _, ⟨.start, _, rfl⟩, rfl, by decide, by decide, by decide, by decide⟩

end Scalarize
