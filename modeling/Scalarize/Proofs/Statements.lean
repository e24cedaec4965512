import Scalarize.Lowering
import Scalarize.Proofs.Environment
import Scalarize.Proofs.Evaluators

/-!
# Scalarize — what a lowered program has done

A program that is lowered without error is a run of operations on the environment: each `let`
evaluates its expression and binds a variable, each other statement declares imports, exports and
macros and leaves the variables alone. `Lowers` is this run, without the trees of the other
statements, without places and errors. All statements about whole programs are proved along it.

* **`Env.Declares`** — an import, an export or a definition of a macro.
* **`Lowers`** — a run of declarations and bindings, with the lines that the bindings give.
* **`lowers_of_lowerProgram`** — a lowered program is such a run, over the `let` statements that
  can be read off the program, and the macros at its end are those that the program defines.
-/

namespace Scalarize

open Traced

/-! ## What can be read off a program -/

/-- A `let` statement. -/
structure SourceLet where
  sort : ValueSort
  name : String
  expr : Tree

/-- The sort of the variable that a `let` of the given kind defines. -/
def letSort? (kind : String) : Option ValueSort :=
  if kind == "let_num" then some .number
  else if kind == "let_vec" then some .vector
  else if kind == "let_mat" then some .matrix
  else none

/-- A statement as a `let`. -/
def Tree.asLet? (t : Tree) : Option SourceLet :=
  match letSort? t.kind, t.children with
  | some s, x :: e :: _ => some ⟨s, x.name, e⟩
  | _, _ => none

/-- The statements of a program; a line without a statement is passed over. -/
def sourceStatements (program : Tree) : List Tree :=
  program.children.filterMap fun line => line.children.head?

/-- The `let` statements of a program. -/
def sourceLets (program : Tree) : List SourceLet :=
  (sourceStatements program).filterMap Tree.asLet?

/-- The macro that a definition defines, with its name. -/
def definedMacro? (t : Tree) : Option (String × MacroDef) :=
  match t.children with
  | name :: params :: body :: _ =>
    (definedSort? t.kind).bind fun s =>
      (params.children.mapM paramOf).toOption.map fun ps => (name.name, ⟨ps, s.word, body⟩)
  | _ => none

/-- The definitions that a statement brings: itself, or those of a library. -/
def broughtDefinitions (files : FileStore) (t : Tree) : List Tree :=
  if Text.startsWith "def" t.kind then [t]
  else if t.kind == "using" then
    match t.children with
    | library :: _ => (Library.load files library.name).toOption.getD []
    | [] => []
  else []

/-- The macros that a program defines or takes from libraries. -/
def sourceMacros (files : FileStore) (program : Tree) : Macros :=
  ((sourceStatements program).flatMap (broughtDefinitions files)).filterMap definedMacro?

/-! ## Runs -/

/-- An operation on the environment that defines no variable. -/
inductive Env.Declares : Env → Env → Prop where
  | addImport {env env' : Env} {name target} (h : env.addImport name target = .ok env') :
      Declares env env'
  | addExport {env env' : Env} {name target} (h : env.addExport name target = .ok env') :
      Declares env env'
  | define {env env' : Env} {name m} (h : env.define name m = .ok env') : Declares env env'

/-- From the first environment to the second, through the `let` statements, with the lines that they
give. -/
inductive Lowers : Env → List SourceLet → Env → List Tree → Prop where
  | done (env) : Lowers env [] env []
  | declare {env env₁ env' ls lines} (h : env.Declares env₁) (rest : Lowers env₁ ls env' lines) :
      Lowers env ls env' lines
  | bind {env env₁ env' v statements ls lines} {l : SourceLet} (hsort : v.sort = l.sort)
      (hv : Evaluates env l.sort l.expr v) (hbind : env.bind l.name v = .ok (env₁, statements))
      (rest : Lowers env₁ ls env' lines) :
      Lowers env (l :: ls) env' (.node "line" statements :: lines)

theorem Env.Declares.bindings_eq {env env' : Env} (h : env.Declares env') :
    env'.bindings = env.bindings := by
  cases h with
  | addImport h => rw [(Env.addImport_eq_ok.mp h).2.2.2]
  | addExport h => rw [(Env.addExport_eq_ok.mp h).2.2.2.2.2]
  | define h => rw [(Env.define_eq_ok.mp h).2.2]

theorem Env.Declares.nextIndex_eq {env env' : Env} (h : env.Declares env') (s : ValueSort) :
    env'.nextIndex s = env.nextIndex s := by
  cases h with
  | addImport h => rw [(Env.addImport_eq_ok.mp h).2.2.2]; cases s <;> rfl
  | addExport h => rw [(Env.addExport_eq_ok.mp h).2.2.2.2.2]; cases s <;> rfl
  | define h => rw [(Env.define_eq_ok.mp h).2.2]; cases s <;> rfl

theorem Env.Declares.macros_initial {env env' : Env} (h : env.Declares env') :
    env.macros <+: env'.macros := by
  cases h with
  | addImport h => rw [(Env.addImport_eq_ok.mp h).2.2.2]
  | addExport h => rw [(Env.addExport_eq_ok.mp h).2.2.2.2.2]
  | define h =>
    rw [(Env.define_eq_ok.mp h).2.2]
    exact List.prefix_append ..

theorem Macros.Extends.of_initial {macros macros' : Macros} (h : macros <+: macros') :
    macros'.Extends macros := by
  obtain ⟨added, rfl⟩ := h
  intro n m hm
  rw [List.lookup_append, hm]
  rfl

theorem Env.macros_of_bind {env env' : Env} {name : String} {v : Value} {statements : List Tree}
    (h : env.bind name v = .ok (env', statements)) : env'.macros = env.macros := by
  rw [(Env.bind_eq_ok.mp h).2.2.1]
  cases v.sort <;> rfl

theorem Env.bindings_of_bind {env env' : Env} {name : String} {v : Value} {statements : List Tree}
    (h : env.bind name v = .ok (env', statements)) :
    env'.bindings = env.bindings ++
      [⟨name, (v.assign (env.nextIndex v.sort)).2, env.nextIndex v.sort⟩] := by
  rw [(Env.bind_eq_ok.mp h).2.2.1]

theorem Env.statements_of_bind {env env' : Env} {name : String} {v : Value}
    {statements : List Tree} (h : env.bind name v = .ok (env', statements)) :
    statements = (v.assign (env.nextIndex v.sort)).1 :=
  (Env.bind_eq_ok.mp h).2.2.2

namespace Lowers

variable {env env' : Env} {ls : List SourceLet} {lines : List Tree}

theorem macros_initial (h : Lowers env ls env' lines) : env.macros <+: env'.macros := by
  induction h with
  | done => exact List.prefix_rfl
  | declare h _ ih => exact h.macros_initial.trans ih
  | bind _ _ hbind _ ih =>
    rw [Env.macros_of_bind hbind] at ih
    exact ih

theorem extends_macros (h : Lowers env ls env' lines) :
    Macros.Extends env'.macros env.macros :=
  .of_initial h.macros_initial

theorem bindings_initial (h : Lowers env ls env' lines) : env.bindings <+: env'.bindings := by
  induction h with
  | done => exact List.prefix_rfl
  | declare h _ ih =>
    rw [h.bindings_eq] at ih
    exact ih
  | bind _ _ hbind _ ih =>
    rw [Env.bindings_of_bind hbind] at ih
    exact (List.prefix_append ..).trans ih

/-- A variable keeps its value and its index. -/
theorem binding_eq (h : Lowers env ls env' lines) {name : String} {b : Binding}
    (hb : env.binding? name = some b) : env'.binding? name = some b := by
  obtain ⟨added, hadded⟩ := h.bindings_initial
  rw [Env.binding?, ← hadded, List.find?_append]
  rw [Env.binding?] at hb
  rw [hb]
  rfl

theorem of_declarations {env₁ : Env} (hd : Relation.ReflTransGen Env.Declares env env₁)
    (h : Lowers env₁ ls env' lines) : Lowers env ls env' lines := by
  induction hd using Relation.ReflTransGen.head_induction_on with
  | refl => exact h
  | head hd _ ih => exact .declare hd ih

end Lowers

/-! ## Statements -/

open Relation (ReflTransGen)

variable {files : FileStore} {env env' : Env} {t : Tree}

theorem MacroDef.eq_of_check {name : String} {m m' : MacroDef} (h : m.check name = .ok m') :
    m' = m := by
  unfold MacroDef.check at h
  split at h
  · cases h
  · split at h
    · cases h
    · split at h
      · cases h
      · exact (Except.ok.inj h).symm

theorem declares_of_lowerImport (h : (lowerImport env t).Returns env') :
    env.Declares env' ∧ env'.macros = env.macros := by
  replace h := h.of_enterStatement
  split at h
  · exact absurd h not_returns_give
  · split at h
    · obtain ⟨env₁, hadd, h⟩ := h.of_bind
      obtain ⟨_, -, h⟩ := h.of_bind
      rw [h.of_pure]
      exact ⟨.addImport hadd.of_check, by rw [(Env.addImport_eq_ok.mp hadd.of_check).2.2.2]⟩
    · exact absurd h not_returns_give

theorem declares_of_lowerExport (h : (lowerExport env t).Returns env') :
    env.Declares env' ∧ env'.macros = env.macros := by
  replace h := h.of_enterStatement
  split at h
  · obtain ⟨env₁, hadd, h⟩ := h.of_bind
    obtain ⟨_, -, h⟩ := h.of_bind
    rw [h.of_pure]
    exact ⟨.addExport hadd.of_check, by rw [(Env.addExport_eq_ok.mp hadd.of_check).2.2.2.2.2]⟩
  · exact absurd h not_returns_give

/-- A definition defines the macro that can be read off it, once this has been checked. -/
theorem define_of_lowerDefine (h : (lowerDefine env t).Returns env') :
    ∃ d, definedMacro? t = some d ∧ d.2.check d.1 = .ok d.2 ∧ env.define d.1 d.2 = .ok env' := by
  replace h := h.of_enterStatement
  split at h
  case h_1 name params body rest hc =>
    split at h
    case h_1 => exact absurd h not_returns_give
    case h_2 s hs =>
      split at h
      case h_1 => exact absurd h not_returns_give
      case h_2 ps hps =>
        obtain ⟨m, hm, h⟩ := h.of_bind
        obtain ⟨env₁, hdefine, h⟩ := h.of_bind
        obtain ⟨_, -, h⟩ := h.of_bind
        rw [h.of_pure]
        obtain rfl := MacroDef.eq_of_check hm.of_check
        refine ⟨(name.name, ⟨ps, s.word, body⟩), ?_, hm.of_check, hdefine.of_check⟩
        unfold definedMacro?
        rw [hc, hs]
        show (params.children.mapM paramOf).toOption.map _ = _
        rw [hps]
        rfl
  case h_2 => exact absurd h not_returns_give

theorem declares_of_lowerDefine (h : (lowerDefine env t).Returns env') : env.Declares env' := by
  obtain ⟨d, -, -, hd⟩ := define_of_lowerDefine h
  exact .define hd

theorem macros_of_lowerDefine (h : (lowerDefine env t).Returns env') :
    env'.macros = env.macros ++ [t].filterMap definedMacro? := by
  obtain ⟨d, hd, -, hdefine⟩ := define_of_lowerDefine h
  rw [(Env.define_eq_ok.mp hdefine).2.2, List.filterMap_cons, hd]
  rfl

theorem macros_of_lowerDefines {ts : List Tree} (h : (ts.foldlM lowerDefine env).Returns env') :
    env'.macros = env.macros ++ ts.filterMap definedMacro? := by
  induction ts generalizing env with
  | nil =>
    rw [List.foldlM_nil] at h
    rw [h.of_pure, List.filterMap_nil, List.append_nil]
  | cons t ts ih =>
    rw [List.foldlM_cons] at h
    obtain ⟨env₁, ht, h⟩ := h.of_bind
    rw [ih h, macros_of_lowerDefine ht, List.append_assoc, ← List.filterMap_append]
    rfl

theorem checked_of_lowerDefine (h : (lowerDefine env t).Returns env') :
    ∀ d ∈ [t].filterMap definedMacro?, d.2.check d.1 = .ok d.2 := by
  obtain ⟨d, hd, hcheck, -⟩ := define_of_lowerDefine h
  rw [List.filterMap_cons, hd]
  exact List.forall_mem_singleton.mpr hcheck

theorem checked_of_lowerDefines {ts : List Tree} (h : (ts.foldlM lowerDefine env).Returns env') :
    ∀ d ∈ ts.filterMap definedMacro?, d.2.check d.1 = .ok d.2 := by
  induction ts generalizing env with
  | nil => exact fun d hd => absurd hd List.not_mem_nil
  | cons t ts ih =>
    rw [List.foldlM_cons] at h
    obtain ⟨env₁, ht, h⟩ := h.of_bind
    rw [← List.singleton_append, List.filterMap_append]
    exact List.forall_mem_append.mpr ⟨checked_of_lowerDefine ht, ih h⟩

theorem kind_of_letSort? {k : String} {s : ValueSort} (h : letSort? k = some s) :
    k = "let_num" ∧ s = .number ∨ k = "let_vec" ∧ s = .vector ∨ k = "let_mat" ∧ s = .matrix := by
  unfold letSort? at h
  grind

/-- A `let` statement evaluates its expression and binds its variable. -/
theorem bind_of_lowerLet {line : Tree} (h : (lowerLet env t).Returns (env', line)) :
    ∃ l v statements, t.asLet? = some l ∧ v.sort = l.sort ∧ Evaluates env l.sort l.expr v ∧
      env.bind l.name v = .ok (env', statements) ∧ line = .node "line" statements := by
  replace h := h.of_enterStatement
  split at h
  case h_1 x expr rest hc =>
    obtain ⟨v, hv, h⟩ := h.of_bind
    obtain ⟨⟨env₁, statements⟩, hbind, h⟩ := h.of_bind
    obtain ⟨_, -, h⟩ := h.of_bind
    obtain ⟨rfl, rfl⟩ := Prod.mk.inj h.of_pure
    have hlet : ∀ s, letSort? t.kind = some s → t.asLet? = some ⟨s, x.name, expr⟩ := by
      intro s hs
      unfold Tree.asLet?
      rw [hs, hc]
    suffices hs : letSort? t.kind = some v.sort ∧ Evaluates env v.sort expr v from
      ⟨_, v, statements, hlet _ hs.1, rfl, hs.2, hbind.of_check, rfl⟩
    unfold letValue at hv
    split at hv
    · next hk =>
      obtain ⟨y, hy, hv⟩ := hv.of_bind
      rw [hv.of_pure, beq_iff_eq.mp hk]
      exact ⟨rfl, (evaluates_of_returns env _).1 _ _ hy⟩
    · split at hv
      · next hk =>
        obtain ⟨y, hy, hv⟩ := hv.of_bind
        rw [hv.of_pure, beq_iff_eq.mp hk]
        exact ⟨rfl, (evaluates_of_returns env _).2.1 _ _ hy⟩
      · split at hv
        · next hk =>
          obtain ⟨y, hy, hv⟩ := hv.of_bind
          rw [hv.of_pure, beq_iff_eq.mp hk]
          exact ⟨rfl, (evaluates_of_returns env _).2.2 _ _ hy⟩
        · exact absurd hv not_returns_give
  case h_2 => exact absurd h not_returns_give

/-- A statement that is not a `let` only declares, and its macros are those that it brings, each of
which has been checked. -/
structure Quiet (files : FileStore) (t : Tree) (env env' : Env) : Prop where
  not_let : t.asLet? = none
  declares : ReflTransGen Env.Declares env env'
  macros_eq : env'.macros = env.macros ++ (broughtDefinitions files t).filterMap definedMacro?
  checked : ∀ d ∈ (broughtDefinitions files t).filterMap definedMacro?, d.2.check d.1 = .ok d.2

theorem asLet?_eq_none (h : letSort? t.kind = none) : t.asLet? = none := by
  unfold Tree.asLet?
  rw [h]

theorem broughtDefinitions_eq_nil (hdef : Text.startsWith "def" t.kind = false)
    (husing : t.kind ≠ "using") : broughtDefinitions files t = [] := by
  unfold broughtDefinitions
  rw [hdef, if_neg Bool.false_ne_true, if_neg (mt beq_iff_eq.mp husing)]

theorem Quiet.of_not_brought (hlet : t.asLet? = none) (h : ReflTransGen Env.Declares env env')
    (hmacros : env'.macros = env.macros) (hnone : broughtDefinitions files t = []) :
    Quiet files t env env' := by
  refine ⟨hlet, h, ?_, ?_⟩
  · rw [hmacros, hnone]
    exact (List.append_nil _).symm
  · rw [hnone]
    exact fun d hd => absurd hd List.not_mem_nil

theorem Quiet.of_import (hk : t.kind = "import_group")
    (h : (lowerImportGroup env t).Returns env') : Quiet files t env env' := by
  rw [lowerImportGroup] at h
  have hloop := h.of_enterStatement.reflTransGen_of_foldlM
    (r := fun a b => a.Declares b ∧ b.macros = a.macros)
    fun _ _ _ hstep => declares_of_lowerImport hstep
  obtain ⟨hdeclares, hmacros⟩ : ReflTransGen Env.Declares env env' ∧ env'.macros = env.macros := by
    -- two facts along one closure
    clear h
    induction hloop with
    | refl => exact ⟨.refl, rfl⟩
    | tail _ hstep ih => exact ⟨ih.1.tail hstep.1, hstep.2.trans ih.2⟩
  exact .of_not_brought (asLet?_eq_none (by rw [hk]; rfl)) hdeclares hmacros
    (broughtDefinitions_eq_nil (by rw [hk]; decide) (by rw [hk]; decide))

theorem Quiet.of_export (hk : t.kind = "export") (h : (lowerExport env t).Returns env') :
    Quiet files t env env' := by
  obtain ⟨hd, hmacros⟩ := declares_of_lowerExport h
  exact .of_not_brought (asLet?_eq_none (by rw [hk]; rfl)) (.single hd) hmacros
    (broughtDefinitions_eq_nil (by rw [hk]; decide) (by rw [hk]; decide))

theorem Quiet.of_define (hk : Text.startsWith "def" t.kind = true)
    (h : (lowerDefine env t).Returns env') : Quiet files t env env' := by
  have hnone : letSort? t.kind = none := by
    cases hs : letSort? t.kind with
    | none => rfl
    | some s =>
      rcases kind_of_letSort? hs with h | h | h <;> rw [h.1] at hk <;> exact absurd hk (by decide)
  have hbrought : broughtDefinitions files t = [t] := if_pos hk
  refine ⟨asLet?_eq_none hnone, .single (declares_of_lowerDefine h), ?_, ?_⟩
  · rw [hbrought]
    exact macros_of_lowerDefine h
  · rw [hbrought]
    exact checked_of_lowerDefine h

theorem broughtDefinitions_using {library : Tree} {rest : List Tree} (hk : t.kind = "using")
    (hc : t.children = library :: rest) :
    broughtDefinitions files t = (Library.load files library.name).toOption.getD [] := by
  unfold broughtDefinitions
  rw [if_neg (by rw [hk]; decide), if_pos (by rw [hk]; decide), hc]

theorem Quiet.of_using (hk : t.kind = "using") (h : (lowerUsing files env t).Returns env') :
    Quiet files t env env' := by
  rw [lowerUsing] at h
  replace h := h.of_enterStatement
  split at h
  case h_1 library rest hc =>
    obtain ⟨definitions, hload, h⟩ := h.of_bind
    refine ⟨asLet?_eq_none (by rw [hk]; rfl),
      h.reflTransGen_of_foldlM (r := Env.Declares) fun _ _ _ hstep => declares_of_lowerDefine hstep,
      ?_, ?_⟩
    · rw [macros_of_lowerDefines h, broughtDefinitions_using hk hc, hload.of_lift]
      rfl
    · rw [broughtDefinitions_using hk hc, hload.of_lift]
      exact checked_of_lowerDefines h
  case h_2 => exact absurd h not_returns_give

/-- A lowered statement is a quiet one without a line, or a `let` with its line. -/
theorem lowerStatement_cases {line? : Option Tree}
    (h : (lowerStatement files env t).Returns (env', line?)) :
    (line? = none ∧ Quiet files t env env') ∨
    ∃ l v statements, t.asLet? = some l ∧ v.sort = l.sort ∧ Evaluates env l.sort l.expr v ∧
      env.bind l.name v = .ok (env', statements) ∧ line? = some (.node "line" statements) ∧
      broughtDefinitions files t = [] := by
  unfold lowerStatement at h
  -- the kinds of statements are tried one after the other
  split at h
  case isTrue hk =>
    obtain ⟨env₁, h₁, h⟩ := h.of_bind
    obtain ⟨rfl, rfl⟩ := Prod.mk.inj h.of_pure
    exact .inl ⟨rfl, .of_import (beq_iff_eq.mp hk) h₁⟩
  split at h
  case isTrue hk =>
    obtain ⟨env₁, h₁, h⟩ := h.of_bind
    obtain ⟨rfl, rfl⟩ := Prod.mk.inj h.of_pure
    exact .inl ⟨rfl, .of_export (beq_iff_eq.mp hk) h₁⟩
  split at h
  case isTrue =>
    obtain ⟨⟨env₁, line⟩, h₁, h⟩ := h.of_bind
    obtain ⟨rfl, rfl⟩ := Prod.mk.inj h.of_pure
    obtain ⟨l, v, statements, hlet, hsort, hv, hbind, rfl⟩ := bind_of_lowerLet h₁
    refine .inr ⟨l, v, statements, hlet, hsort, hv, hbind, rfl, ?_⟩
    -- the kinds of `let` statements bring no definitions
    have hk : ∃ s, letSort? t.kind = some s := by
      unfold Tree.asLet? at hlet
      split at hlet
      · next s _ _ _ hs _ => exact ⟨s, hs⟩
      · cases hlet
    obtain ⟨s, hs⟩ := hk
    refine broughtDefinitions_eq_nil ?_ ?_ <;>
      rcases kind_of_letSort? hs with h | h | h <;> rw [h.1] <;> decide
  split at h
  case isTrue hk =>
    obtain ⟨env₁, h₁, h⟩ := h.of_bind
    obtain ⟨rfl, rfl⟩ := Prod.mk.inj h.of_pure
    exact .inl ⟨rfl, .of_define hk h₁⟩
  split at h
  case isTrue hk =>
    obtain ⟨env₁, h₁, h⟩ := h.of_bind
    obtain ⟨rfl, rfl⟩ := Prod.mk.inj h.of_pure
    exact .inl ⟨rfl, .of_using (beq_iff_eq.mp hk) h₁⟩
  split at h
  case isTrue hk =>
    obtain ⟨rfl, rfl⟩ := Prod.mk.inj h.of_pure
    replace hk := beq_iff_eq.mp hk
    exact .inl ⟨rfl, .of_not_brought (asLet?_eq_none (by rw [hk]; rfl)) .refl rfl
      (broughtDefinitions_eq_nil (by rw [hk]; decide) (by rw [hk]; decide))⟩
  case isFalse => exact absurd h not_returns_give

/-! ## Programs -/

theorem lowers_of_lowerStatements {ts lines : List Tree}
    (h : (lowerStatements files env ts).Returns (env', lines)) :
    Lowers env (ts.filterMap Tree.asLet?) env' lines ∧
      env'.macros = env.macros ++
        (ts.flatMap (broughtDefinitions files)).filterMap definedMacro? := by
  induction ts generalizing env lines with
  | nil =>
    rw [lowerStatements] at h
    obtain ⟨rfl, rfl⟩ := Prod.mk.inj h.of_pure
    exact ⟨.done _, (List.append_nil _).symm⟩
  | cons t ts ih =>
    rw [lowerStatements] at h
    obtain ⟨⟨env₁, line?⟩, ht, h⟩ := h.of_bind
    obtain ⟨⟨env₂, lines'⟩, hts, h⟩ := h.of_bind
    obtain ⟨rfl, rfl⟩ := Prod.mk.inj h.of_pure
    obtain ⟨hrest, hmacros⟩ := ih hts
    rw [List.flatMap_cons, List.filterMap_append, ← List.append_assoc, hmacros,
      List.filterMap_cons]
    rcases lowerStatement_cases ht with
      ⟨rfl, hquiet⟩ | ⟨l, v, statements, hlet, hsort, hv, hbind, rfl, hnone⟩
    · rw [hquiet.not_let, hquiet.macros_eq]
      exact ⟨hrest.of_declarations hquiet.declares, rfl⟩
    · rw [hlet, hnone, Env.macros_of_bind hbind, List.filterMap_nil, List.append_nil]
      exact ⟨.bind hsort hv hbind hrest, rfl⟩

theorem filterMap_of_mapM {α β ε : Type} {f : α → Except ε β} {g : α → Option β} {xs : List α}
    {ys : List β} (hf : ∀ x y, f x = .ok y → g x = some y) (h : xs.mapM f = .ok ys) :
    ys = xs.filterMap g := by
  induction xs generalizing ys with
  | nil => cases h; rfl
  | cons x xs ih =>
    rw [List.mapM_cons] at h
    cases hx : f x with
    | error e => rw [hx] at h; cases h
    | ok y =>
      cases hxs : xs.mapM f with
      | error e => rw [hx, hxs] at h; cases h
      | ok ys' =>
        rw [hx, hxs] at h
        cases h
        rw [List.filterMap_cons, hf x y hx, ih hxs]

theorem statements_eq {program : Tree} {ts : List Tree}
    (h : Library.statements program = .ok ts) : ts = sourceStatements program := by
  refine filterMap_of_mapM (fun line s hs => ?_) h
  split at hs
  · next hc => rw [hc, ← Except.ok.inj hs]; rfl
  · cases hs

/-- A program that is lowered without error is a run over its `let` statements, and the macros at
its end are those that it defines. -/
theorem lowers_of_lowerProgram {program chip : Tree}
    (h : (lowerProgram files env program).Returns (env', chip)) :
    ∃ lines, chip = chipProgram lines ∧ Lowers env (sourceLets program) env' lines ∧
      env'.macros = env.macros ++ sourceMacros files program := by
  unfold lowerProgram at h
  split at h
  · exact absurd h not_returns_give
  · split at h
    · exact absurd h not_returns_give
    · next ts hts =>
      obtain ⟨⟨env₁, lines⟩, hlines, h⟩ := h.of_bind
      obtain ⟨rfl, rfl⟩ := Prod.mk.inj h.of_pure
      obtain ⟨hlowers, hmacros⟩ := lowers_of_lowerStatements hlines
      rw [statements_eq hts] at hlowers hmacros
      exact ⟨lines, rfl, hlowers, hmacros⟩

/-- A program with an import, a macro and a `let` of each sort. -/
def sampleProgram : Tree :=
  let line (t : Tree) := Tree.node "line" [t]
  .node "program" [
    line (.node "import_group" [.node "import" [.text "external" "a"]]),
    line (.node "def_num" [.text "macro" "NORM",
      .node "param_group" [.node "param" [.leaf "type_vec" none, .variableNamed "X"]],
      .node "num_unary" [.leaf "sqrt" none, .node "dot" [.variableNamed "X", .variableNamed "X"]]]),
    line (.node "let_vec" [.variableNamed "V",
      .node "vector" [.numberOf (.int 3), .text "external" "a"]]),
    line (.node "let_num" [.variableNamed "N",
      .node "call" [.text "macro" "NORM", .node "args" [.variableNamed "V"]]]),
    line (.node "let_mat" [.variableNamed "M", .node "transpose" [.node "mat_premap" [
      .leaf "div" none, .variableNamed "N", .node "matrix" [.variableNamed "V"]]]])]

theorem sampleProgram_lowered :
    ∃ r, (lowerProgram [] .empty sampleProgram).Returns r :=
  exists_returns (t := .start) (by decide)

end Scalarize
