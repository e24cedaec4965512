import Scalarize.Proofs.DeclaredFailures
import Scalarize.Proofs.RuleReadings

/-!
# Scalarize — programs that differ in the grouping of chains

Two programs whose statements are the same but for the grouping of the chains in their expressions
are lowered to the same chip program, or neither is. Lowering takes the two step by step: the
environments they go through differ only in the grouping inside the bodies of macros.

* **`Env.Alike`**, **`AlikeStatement`** — environments and statements that differ in the grouping of
  chains only.
* **`definition_of_load`** — the definitions of a library are like themselves.
* **`gives_lowerStatements`** — lowering alike statements in alike environments.
* **`gives_of_alike`** — the same for programs.
-/

namespace Scalarize

open Traced Grammar

/-! ## Computations that always succeed -/

namespace Traced

variable {α β : Type}

/-- The computation succeeds with the value, from every trace. -/
def Gives (x : Traced α) (a : α) : Prop :=
  ∀ t, (x.runFrom t).1 = .ok a

theorem Gives.returns {x : Traced α} {a : α} (h : x.Gives a) : x.Returns a :=
  ⟨.start, (x.runFrom .start).2, Prod.ext (h .start) rfl⟩

theorem gives_pure (a : α) : (pure a : Traced α).Gives a :=
  fun _ => rfl

theorem Gives.bind {x : Traced α} {f : α → Traced β} {a : α} {b : β} (hx : x.Gives a)
    (hf : (f a).Gives b) : (x >>= f).Gives b := by
  intro t
  have ha := hx t
  rw [runFrom_bind]
  cases hr : x.runFrom t with
  | mk r t' =>
    rw [hr] at ha
    cases ha
    exact hf t'

theorem gives_note (g : Trace → Trace) : (modifyThe Trace g : Traced Unit).Gives () :=
  fun _ => rfl

theorem gives_check {x : Except Diagnostic α} {a : α} (h : x = .ok a) : (check x).Gives a := by
  rw [h]
  exact gives_pure a

theorem gives_lift {x : Except Failure α} {a : α} (h : x = .ok a) : (lift x).Gives a := by
  rw [h]
  exact gives_pure a

/-- Two loops over the same list, step by step. -/
theorem gives_foldlM {γ : Type} {f : α → β → Traced α} {g : γ → β → Traced γ} {R : α → γ → Prop}
    {bs : List β} (hstep : ∀ a c, ∀ b ∈ bs, R a c → ∀ a', (f a b).Returns a' →
      ∃ c', (g c b).Gives c' ∧ R a' c') {a z : α} {c : γ} (hac : R a c)
    (h : (bs.foldlM f a).Returns z) : ∃ z', (bs.foldlM g c).Gives z' ∧ R z z' := by
  induction bs generalizing a c with
  | nil =>
    rw [List.foldlM_nil] at h
    rw [h.of_pure]
    exact ⟨c, gives_pure c, hac⟩
  | cons b bs ih =>
    rw [List.foldlM_cons] at h
    obtain ⟨a', ha', hrest⟩ := h.of_bind
    obtain ⟨c', hc', hac'⟩ := hstep a c b List.mem_cons_self hac a' ha'
    obtain ⟨z', hz', hzz'⟩ := ih (fun a c b hb => hstep a c b (List.mem_cons_of_mem _ hb)) hac' hrest
    refine ⟨z', ?_, hzz'⟩
    rw [List.foldlM_cons]
    exact hc'.bind hz'

end Traced

/-! ## Alike environments -/

/-- Two environments that differ in the grouping inside macros only. -/
structure Env.Alike (env env' : Env) : Prop where
  macros : ∃ ms, Macros.Flattens env.macros ms ∧ Macros.Flattens env'.macros ms
  eq : env' = { env with macros := env'.macros }

/-- Alike expressions have the same values in alike environments. -/
theorem Alike.yields {t t' : Tree} (h : Alike t t') {env env' : Env} (henv : env.Alike env')
    {s : ValueSort} {v : Value} (hv : Yields env s t v) : Yields env' s t' v := by
  obtain ⟨u, hu, hu'⟩ := h
  obtain ⟨ms, hms, hms'⟩ := henv.macros
  have hleft : env.Flattens { env with macros := ms } := ⟨hms, rfl⟩
  have hright : env'.Flattens { env with macros := ms } := ⟨hms', by rw [henv.eq]⟩
  exact hu'.yields_back hright (hu.yields hleft hv)

/-! ## Operations on alike environments -/

namespace Env.Alike

variable {env env' env₁ : Env} (h : env.Alike env')

include h

theorem findMacro?_eq_none {x : String} (hx : env.findMacro? x = none) : env'.findMacro? x = none := by
  obtain ⟨ms, hms, hms'⟩ := h.macros
  have hleft := hms.lookup x
  have hright := hms'.lookup x
  rw [show env.macros.lookup x = none from hx] at hleft
  unfold Env.findMacro?
  generalize env'.macros.lookup x = b, ms.lookup x = c at hleft hright
  cases hleft
  cases hright
  rfl

theorem addImport {name target : String} (hadd : env.addImport name target = .ok env₁) :
    ∃ env₁', env'.addImport name target = .ok env₁' ∧ env₁.Alike env₁' := by
  obtain ⟨hname, himport, hexport, rfl⟩ := Env.addImport_eq_ok.mp hadd
  have heq := h.eq
  refine ⟨_, Env.addImport_eq_ok.mpr ⟨?_, ?_, ?_, rfl⟩, h.macros, ?_⟩
  · rw [heq]; exact hname
  · rw [heq]; exact himport
  · rw [heq]; exact hexport
  · rw [heq]

theorem addExport {name target : String} (hadd : env.addExport name target = .ok env₁) :
    ∃ env₁', env'.addExport name target = .ok env₁' ∧ env₁.Alike env₁' := by
  obtain ⟨hname, hexport, htarget, himport, himports, rfl⟩ := Env.addExport_eq_ok.mp hadd
  have heq := h.eq
  refine ⟨_, Env.addExport_eq_ok.mpr ⟨?_, ?_, ?_, ?_, ?_, rfl⟩, h.macros, ?_⟩
  · rw [heq]; exact hname
  · rw [heq]; exact hexport
  · rw [heq]; exact htarget
  · rw [heq]; exact himport
  · rw [heq]; exact himports
  · rw [heq]

theorem bind {name : String} {v : Value} {statements : List Tree}
    (hbind : env.bind name v = .ok (env₁, statements)) :
    ∃ env₁', env'.bind name v = .ok (env₁', statements) ∧ env₁.Alike env₁' := by
  obtain ⟨hname, hfree, rfl, rfl⟩ := Env.bind_eq_ok.mp hbind
  have heq := h.eq
  have hbindings : env'.bindings = env.bindings := by rw [heq]
  have hindex : env'.nextIndex v.sort = env.nextIndex v.sort := by rw [heq]; cases v.sort <;> rfl
  refine ⟨_, Env.bind_eq_ok.mpr ⟨?_, h.findMacro?_eq_none hfree, rfl, by rw [hindex]⟩, ?_, ?_⟩
  · rw [Env.binding?, hbindings]; exact hname
  · cases v.sort <;> exact h.macros
  · rw [hindex, hbindings, heq]
    cases v.sort <;> rfl

theorem define {name : String} {m m' u : MacroDef} (hm : m.Flattens u) (hm' : m'.Flattens u)
    (hdefine : env.define name m = .ok env₁) :
    ∃ env₁', env'.define name m' = .ok env₁' ∧ env₁.Alike env₁' := by
  obtain ⟨hfree, hname, rfl⟩ := Env.define_eq_ok.mp hdefine
  have heq := h.eq
  obtain ⟨ms, hms, hms'⟩ := h.macros
  refine ⟨_, Env.define_eq_ok.mpr ⟨h.findMacro?_eq_none hfree, ?_, rfl⟩, ⟨ms ++ [(name, u)], ?_, ?_⟩, ?_⟩
  · rw [heq]; exact hname
  · exact List.rel_append hms (.cons ⟨rfl, hm⟩ .nil)
  · exact List.rel_append hms' (.cons ⟨rfl, hm'⟩ .nil)
  · rw [heq]

end Env.Alike

/-! ## Statements -/

/-- Two statements that differ in the grouping inside their expressions only. -/
inductive AlikeStatement : Tree → Tree → Prop where
  | same {t} (hkind : t.kind ∈ ["import_group", "export", "using", "comment"]) : AlikeStatement t t
  | lets {s x e e'} (h : Alike e e') :
      AlikeStatement (.node (letKind s) [x, e]) (.node (letKind s) [x, e'])
  | defines {s name params body body'} (h : Alike body body') :
      AlikeStatement (.node (defineKind s) [name, params, body])
        (.node (defineKind s) [name, params, body'])

/-- A statement of a derivation is like itself. -/
theorem alikeStatement_self {is : List Piece} {t : Tree} (h : StatementReads is t) :
    AlikeStatement t t := by
  cases h with
  | lets _ he => exact .lets ⟨_, he.callsShaped _ List.mem_cons_self, he.callsShaped _ List.mem_cons_self⟩
  | defines _ he =>
    exact .defines ⟨_, he.callsShaped _ List.mem_cons_self, he.callsShaped _ List.mem_cons_self⟩
  | imports => exact .same (by simp [Tree.node, Tree.kind])
  | exports => exact .same (by simp [Tree.node, Tree.kind])
  | exportsAs => exact .same (by simp [Tree.node, Tree.kind])
  | uses => exact .same (by simp [Tree.node, Tree.kind])
  | comment => exact .same (by simp [Tree.text, Tree.kind])

/-- The check of a macro looks at names only. -/
theorem MacroDef.Flattens.check_iff {m u : MacroDef} (h : m.Flattens u) (name : String) :
    m.check name = .ok m ↔ u.check name = .ok u := by
  have hnames : m.paramNames = u.paramNames := by
    rw [MacroDef.paramNames, h.params_eq, MacroDef.paramNames]
  have hcalls : m.body.calls.any (·.calledName == name) = u.body.calls.any (·.calledName == name) := by
    have hany : ∀ ts : List Tree, ts.any (·.calledName == name) =
        (ts.map Tree.calledName).any (· == name) := fun ts => by rw [List.any_map]; rfl
    rw [hany, hany, h.body.calledNames_eq]
  unfold MacroDef.check
  rw [hnames, h.body.variableNames_eq, hcalls]
  split
  · constructor <;> intro h <;> cases h
  · split
    · constructor <;> intro h <;> cases h
    · split
      · constructor <;> intro h <;> cases h
      · exact ⟨fun _ => rfl, fun _ => rfl⟩

/-! ## Libraries -/

theorem sourceStatements_lines (statements : List Tree) :
    sourceStatements (.node "program" (statements.map fun t => .node "line" [t])) = statements := by
  rw [sourceStatements, Tree.node, Tree.children, List.filterMap_map]
  exact List.filterMap_some

/-- The statements of a source text, each with a derivation. -/
theorem statements_of_isSource {cs : List Char} {p : ParseTree} {program : Tree}
    (hsource : IsSource cs p) (hp : p.toTree = .ok program) :
    ∀ t ∈ sourceStatements program, ∃ is, StatementReads is t := by
  obtain ⟨ws, is, program', -, -, -, hp', hreads⟩ := exists_reads_of_isSource hsource
  obtain rfl := Except.ok.inj (hp.symm.trans hp')
  obtain ⟨segs, statements, rfl, hprogram, hstatements⟩ := hreads.of_program
  rw [List.singleton_inj.mp hprogram, sourceStatements_lines]
  intro t ht
  obtain ⟨i, hi, rfl⟩ := List.mem_iff_getElem.mp ht
  exact ⟨_, (List.forall₂_iff_get.mp hstatements).2 i (by rw [hstatements.length_eq]; exact hi) hi⟩

theorem statements_of_readProgram {source : String} {program : Tree}
    (h : readProgram source = .ok program) :
    ∀ t ∈ sourceStatements program, ∃ is, StatementReads is t := by
  unfold readProgram at h
  split at h
  · cases h
  · next p hp =>
    split at h
    · cases h
    · next hprogram =>
      rw [Except.ok.inj h] at hprogram
      exact statements_of_isSource (isSource_of_parse hp) hprogram

/-- The definitions of a library, each with a derivation. -/
theorem reads_of_load {files : FileStore} {library : String} {ds : List Tree}
    (hload : Library.load files library = .ok ds) :
    ∀ d ∈ ds, Text.startsWith "def_" d.kind = true ∧ ∃ is, StatementReads is d := by
  unfold Library.load at hload
  split at hload
  · cases hload
  · split at hload
    · cases hload
    · split at hload
      · cases hload
      · next program hprogram =>
        split at hload
        · cases hload
        · next ss hss =>
          split at hload
          · cases hload
          · next ds' hds =>
            cases hload
            intro d hd
            obtain ⟨hmem, hkind⟩ := mem_of_definitions hds d hd
            rw [statements_eq hss] at hmem
            exact ⟨hkind, statements_of_readProgram hprogram d hmem⟩
  · cases hload

/-- The definitions of a library are like themselves. -/
theorem definition_of_load {files : FileStore} {library : String} {ds : List Tree}
    (hload : Library.load files library = .ok ds) {d : Tree} (hd : d ∈ ds) :
    ∃ s name params body, d = .node (defineKind s) [name, params, body] ∧ Alike body body := by
  obtain ⟨hkind, is, hreads⟩ := reads_of_load hload d hd
  cases alikeStatement_self hreads with
  | same hother =>
    have hnot : ∀ k ∈ ["import_group", "export", "using", "comment"],
        Text.startsWith "def_" k = false := by decide
    rw [hnot _ hother] at hkind
    cases hkind
  | @lets s =>
    have hnot : Text.startsWith "def_" (letKind s) = false := by cases s <;> decide
    exact absurd (hnot.symm.trans hkind) Bool.false_ne_true
  | defines hbody => exact ⟨_, _, _, _, rfl, hbody⟩

/-! ## Lowering in alike environments -/

theorem lowerStatement_of_definition {files : FileStore} {t : Tree}
    (ht : Text.startsWith "def_" t.kind = true) (env : Env) :
    lowerStatement files env t = lowerDefine env t >>= fun env => pure (env, none) := by
  obtain ⟨cs, hcs⟩ := List.isPrefixOf_iff_prefix.mp ht
  have hkind : ∀ k : String, k.toList.head? ≠ some 'd' → t.kind ≠ k := by
    rintro k hk rfl
    simp [← hcs] at hk
  have hlet : Text.startsWith "let" t.kind = false := by
    rw [Text.startsWith, ← hcs]
    rfl
  have hdef : Text.startsWith "def" t.kind = true := by
    rw [Text.startsWith, ← hcs]
    rfl
  unfold lowerStatement
  rw [if_neg (by simpa using hkind "import_group" (by decide)),
    if_neg (by simpa using hkind "export" (by decide)), hlet, hdef]
  rfl

theorem lowerStatement_of_defineKind {files : FileStore} {env : Env} {t : Tree} {s : ValueSort}
    (hkind : t.kind = defineKind s) :
    lowerStatement files env t = lowerDefine env t >>= fun env => pure (env, none) := by
  refine lowerStatement_of_definition ?_ env
  rw [hkind]
  cases s <;> decide

/-- Lowering that makes an environment only, and no line of the chip program. -/
theorem gives_without_line {x y : Traced Env} {env₁ : Env} {line? : Option Tree}
    (hxy : ∀ env₂, x.Returns env₂ → ∃ env₂', y.Gives env₂' ∧ env₂.Alike env₂')
    (h : (x >>= fun env => pure (env, none)).Returns (env₁, line?)) :
    ∃ env₁', (y >>= fun env => pure (env, none) : Traced (Env × Option Tree)).Gives (env₁', line?) ∧
      env₁.Alike env₁' := by
  obtain ⟨env₂, hlower, h⟩ := h.of_bind
  obtain ⟨rfl, rfl⟩ := Prod.mk.inj h.of_pure
  obtain ⟨env₁', hgives, halike⟩ := hxy env₁ hlower
  exact ⟨env₁', hgives.bind (gives_pure _), halike⟩

section

variable {files : FileStore} {env env' env₁ : Env} {t t' : Tree} (henv : env.Alike env')

include henv

theorem gives_lowerImport (h : (lowerImport env t).Returns env₁) :
    ∃ env₁', (lowerImport env' t).Gives env₁' ∧ env₁.Alike env₁' := by
  replace h := h.of_enterStatement
  split at h
  case isTrue => exact absurd h not_returns_give
  case isFalse hkind =>
    split at h
    case h_1 target rest hc =>
      obtain ⟨env₂, hadd, h⟩ := h.of_bind
      obtain ⟨_, -, h⟩ := h.of_bind
      obtain rfl := h.of_pure
      obtain ⟨env₁', hadd', halike⟩ := henv.addImport hadd.of_check
      refine ⟨env₁', (gives_note _).bind ?_, halike⟩
      rw [if_neg hkind, hc]
      exact (gives_check hadd').bind ((gives_note _).bind (gives_pure _))
    case h_2 => exact absurd h not_returns_give

theorem gives_lowerImportGroup (h : (lowerImportGroup env t).Returns env₁) :
    ∃ env₁', (lowerImportGroup env' t).Gives env₁' ∧ env₁.Alike env₁' := by
  obtain ⟨env₁', hgives, halike⟩ := gives_foldlM (f := lowerImport) (g := lowerImport)
    (R := Env.Alike) (fun a c b _ hac a' ha' => gives_lowerImport hac ha') henv h.of_enterStatement
  exact ⟨env₁', (gives_note _).bind hgives, halike⟩

theorem gives_lowerExport (h : (lowerExport env t).Returns env₁) :
    ∃ env₁', (lowerExport env' t).Gives env₁' ∧ env₁.Alike env₁' := by
  replace h := h.of_enterStatement
  split at h
  case h_1 source rest hc =>
    obtain ⟨env₂, hadd, h⟩ := h.of_bind
    obtain ⟨_, -, h⟩ := h.of_bind
    obtain rfl := h.of_pure
    obtain ⟨env₁', hadd', halike⟩ := henv.addExport hadd.of_check
    refine ⟨env₁', (gives_note _).bind ?_, halike⟩
    rw [hc]
    exact (gives_check hadd').bind ((gives_note _).bind (gives_pure _))
  case h_2 => exact absurd h not_returns_give

theorem gives_lowerDefine {s : ValueSort} {name params body body' : Tree} (hbody : Alike body body')
    (h : (lowerDefine env (.node (defineKind s) [name, params, body])).Returns env₁) :
    ∃ env₁', (lowerDefine env' (.node (defineKind s) [name, params, body'])).Gives env₁' ∧
      env₁.Alike env₁' := by
  have hsort : definedSort? (defineKind s) = some s := by cases s <;> rfl
  replace h := h.of_enterStatement
  simp only [Tree.node, Tree.children, Tree.kind, hsort] at h
  split at h
  case h_1 => exact absurd h not_returns_give
  case h_2 ps hps =>
    obtain ⟨m, hm, h⟩ := h.of_bind
    obtain ⟨env₂, hdefine, h⟩ := h.of_bind
    obtain ⟨_, -, h⟩ := h.of_bind
    obtain rfl := h.of_pure
    obtain rfl := MacroDef.eq_of_check hm.of_check
    obtain ⟨u, hu, hu'⟩ := hbody
    have hflat : MacroDef.Flattens ⟨ps, s.word, body⟩ ⟨ps, s.word, u⟩ := ⟨rfl, rfl, hu⟩
    have hflat' : MacroDef.Flattens ⟨ps, s.word, body'⟩ ⟨ps, s.word, u⟩ := ⟨rfl, rfl, hu'⟩
    obtain ⟨env₁', hdefine', halike⟩ := henv.define hflat hflat' hdefine.of_check
    refine ⟨env₁', (gives_note _).bind ?_, halike⟩
    simp only [Tree.node, Tree.children, Tree.kind, hsort, hps]
    have hcheck := (hflat'.check_iff name.name).mpr ((hflat.check_iff name.name).mp hm.of_check)
    exact (gives_check hcheck).bind ((gives_check hdefine').bind
      ((gives_note _).bind (gives_pure _)))

/-- The definitions of a library in alike environments. -/
theorem gives_lowerDefines {library : String} {ds : List Tree}
    (hload : Library.load files library = .ok ds) (h : (ds.foldlM lowerDefine env).Returns env₁) :
    ∃ env₁', (ds.foldlM lowerDefine env').Gives env₁' ∧ env₁.Alike env₁' := by
  refine gives_foldlM (f := lowerDefine) (g := lowerDefine) (R := Env.Alike)
    (fun a c d hd hac a' ha' => ?_) henv h
  obtain ⟨s, name, params, body, rfl, hbody⟩ := definition_of_load hload hd
  exact gives_lowerDefine hac hbody ha'

theorem gives_lowerUsing (h : (lowerUsing files env t).Returns env₁) :
    ∃ env₁', (lowerUsing files env' t).Gives env₁' ∧ env₁.Alike env₁' := by
  replace h := h.of_enterStatement
  split at h
  case h_1 library rest hc =>
    obtain ⟨ds, hload, h⟩ := h.of_bind
    obtain ⟨env₁', hgives, halike⟩ := gives_lowerDefines henv hload.of_lift h
    refine ⟨env₁', (gives_note _).bind ?_, halike⟩
    rw [hc]
    exact (gives_lift hload.of_lift).bind hgives
  case h_2 => exact absurd h not_returns_give

theorem gives_lowerLet {s : ValueSort} {x e e' line : Tree} (he : Alike e e')
    (hmacros : ∀ d ∈ env'.macros, d.2.Regular)
    (h : (lowerLet env (.node (letKind s) [x, e])).Returns (env₁, line)) :
    ∃ env₁', (lowerLet env' (.node (letKind s) [x, e'])).Gives (env₁', line) ∧ env₁.Alike env₁' := by
  have hsort : letSort? (letKind s) = some s := by cases s <;> rfl
  replace h := h.of_enterStatement
  simp only [Tree.node, Tree.children, Tree.kind, letValue_eq hsort] at h
  obtain ⟨v, hv, h⟩ := h.of_bind
  obtain ⟨⟨env₂, statements⟩, hbind, h⟩ := h.of_bind
  obtain ⟨_, -, h⟩ := h.of_bind
  obtain ⟨rfl, rfl⟩ := Prod.mk.inj h.of_pure
  rw [evaluate_eq_evaluateAt] at hv
  -- evaluation finds every value that an expression yields, so it need not be followed again
  have hyields := he.yields henv (yields_of_evaluateAt hv)
  have hgives : (evaluate env' s e').Gives v := fun trace =>
    (evaluate_eq_ok_iff hmacros trace).mpr hyields
  obtain ⟨env₁', hbind', halike⟩ := henv.bind hbind.of_check
  refine ⟨env₁', (gives_note _).bind ?_, halike⟩
  simp only [Tree.node, Tree.children, Tree.kind, letValue_eq hsort]
  exact hgives.bind ((gives_check hbind').bind ((gives_note _).bind (gives_pure _)))

/-- Alike statements in alike environments. -/
theorem gives_lowerStatement {line? : Option Tree} (ht : AlikeStatement t t')
    (hmacros : ∀ d ∈ env'.macros, d.2.Regular)
    (h : (lowerStatement files env t).Returns (env₁, line?)) :
    ∃ env₁', (lowerStatement files env' t').Gives (env₁', line?) ∧ env₁.Alike env₁' := by
  cases ht with
  | same hkind =>
    unfold lowerStatement at h ⊢
    simp only [List.mem_cons, List.not_mem_nil, or_false] at hkind
    rcases hkind with hkind | hkind | hkind | hkind <;> rw [hkind] at h ⊢
    · exact gives_without_line (fun _ => gives_lowerImportGroup henv) h
    · exact gives_without_line (fun _ => gives_lowerExport henv) h
    · exact gives_without_line (fun _ => gives_lowerUsing henv) h
    · obtain ⟨rfl, rfl⟩ := Prod.mk.inj h.of_pure
      exact ⟨env', gives_pure _, henv⟩
  | @lets s x e e' he =>
    unfold lowerStatement at h ⊢
    have hkind : ∀ e, (Tree.node (letKind s) [x, e]).kind = letKind s := fun _ => rfl
    simp only [hkind] at h ⊢
    have hlet : ((letKind s == "import_group") = false) ∧ ((letKind s == "export") = false) ∧
        Text.startsWith "let" (letKind s) = true := by cases s <;> decide
    rw [hlet.1, hlet.2.1, hlet.2.2] at h ⊢
    obtain ⟨⟨env₂, line⟩, hlower, h⟩ := h.of_bind
    obtain ⟨rfl, rfl⟩ := Prod.mk.inj h.of_pure
    obtain ⟨env₁', hgives, halike⟩ := gives_lowerLet henv he hmacros hlower
    exact ⟨env₁', hgives.bind (gives_pure _), halike⟩
  | @defines s name params body body' hbody =>
    rw [lowerStatement_of_defineKind rfl] at h ⊢
    exact gives_without_line (fun _ => gives_lowerDefine henv hbody) h

end

/-! ## Programs -/

/-- Alike statements, one after the other. -/
theorem gives_lowerStatements {files : FileStore} {env env' env₁ : Env} {ts ts' lines : List Tree}
    (henv : env.Alike env') (hts : List.Forall₂ AlikeStatement ts ts')
    (hshaped : ∀ t ∈ ts', ShapedStatement t) (hmacros : ∀ d ∈ env'.macros, d.2.Accepted d.1)
    (h : (lowerStatements files env ts).Returns (env₁, lines)) :
    ∃ env₁', (lowerStatements files env' ts').Gives (env₁', lines) ∧ env₁.Alike env₁' := by
  induction hts generalizing env env' lines with
  | nil =>
    rw [lowerStatements] at h
    obtain ⟨rfl, rfl⟩ := Prod.mk.inj h.of_pure
    exact ⟨env', gives_pure _, henv⟩
  | @cons t t' ts ts' ht _ ih =>
    rw [List.forall_mem_cons] at hshaped
    rw [lowerStatements] at h
    obtain ⟨⟨env₂, line?⟩, hfirst, h⟩ := h.of_bind
    obtain ⟨⟨env₃, lines'⟩, hrest, h⟩ := h.of_bind
    obtain ⟨rfl, rfl⟩ := Prod.mk.inj h.of_pure
    obtain ⟨env₂', hgives, halike⟩ :=
      gives_lowerStatement henv ht (fun d hd => (hmacros d hd).toRegular) hfirst
    -- calls in the later statements use the macros of this one, which must be accepted too
    have hmacros' := accepted_of_lowerStatement hshaped.1 hmacros hgives.returns
    obtain ⟨env₃', hgives', halike'⟩ := ih halike hshaped.2 hmacros' hrest
    rw [lowerStatements]
    exact ⟨env₃', hgives.bind (hgives'.bind (gives_pure _)), halike'⟩

/-- A program is lowered to the chip program of one that is like it. -/
theorem gives_of_alike {files : FileStore} {env : Env} {program program' chip : Tree}
    (hprogram : ShapedProgram program) (hprogram' : ShapedProgram program')
    (halike : List.Forall₂ AlikeStatement (sourceStatements program) (sourceStatements program'))
    (h : (lowerProgram files .empty program).Returns (env, chip)) :
    ∃ env', (lowerProgram files .empty program').Gives (env', chip) := by
  obtain ⟨hstatements, -⟩ := statements_of_shapedProgram hprogram
  obtain ⟨hstatements', hshaped'⟩ := statements_of_shapedProgram hprogram'
  have hempty : Env.empty.Alike .empty := ⟨⟨[], .nil, .nil⟩, rfl⟩
  unfold lowerProgram at h ⊢
  rw [if_neg (by rw [hprogram.1]; decide), hstatements] at h
  rw [if_neg (by rw [hprogram'.1]; decide), hstatements']
  obtain ⟨⟨env₁, lines⟩, hlines, h⟩ := h.of_bind
  obtain ⟨rfl, rfl⟩ := Prod.mk.inj h.of_pure
  obtain ⟨env', hgives, -⟩ := gives_lowerStatements hempty halike hshaped'
    (fun d hd => absurd hd List.not_mem_nil) hlines
  exact ⟨env', hgives.bind (gives_pure (env', chipProgram lines))⟩

end Scalarize
