import Scalarize.Proofs.SingleAssignment
import Scalarize.Proofs.ValueMeaning

/-!
# Scalarize — lowering preserves meaning

The chip program leaves in the variables generated for a `let` what the source program means by it.
The store that the whole chip program leaves is fixed first: its statements hold in it as equations,
since they stand in order and assign no name twice. In this one store the values of the compiler
then mean what the source program means, expression by expression and `let` by `let`.

* **`Lowers.inOrder`** — no statement reads a name that is assigned later.
* **`Lowers.meaning`** — the meanings of the `let` statements, in a store in which the statements of
  the chip program hold.
* **`lowerProgram_preserves_meaning`** — both for the run of a lowered program.
-/

namespace Scalarize

universe u

/-! ## Conditions on the source program -/

/-- A name that lowering can generate. -/
def Generated (x : String) : Prop :=
  ∃ c : Component, c.name = x

/-- The two vectors of a dot product have one length. -/
def Tree.EqualDot (env : Env) (t : Tree) : Prop :=
  t.kind = "dot" → ∀ e₁ e₂ rest v w, t.children = e₁ :: e₂ :: rest →
    Evaluates env .vector e₁ (.vector v) → Evaluates env .vector e₂ (.vector w) →
    v.length = w.length

/-- A `let` whose expression, macros expanded, has no `apply`, takes dot products of vectors of one
length only, and uses no external that has a generated name. -/
structure PlainLet (macros : Macros) (env : Env) (l : SourceLet) : Prop where
  plain : ∀ u, Occurs macros l.expr u → u.Plain
  dots : ∀ u, Occurs macros l.expr u → u.EqualDot env
  externals : ∀ u, Occurs macros l.expr u → u.kind = "external" → ¬ Generated u.name

/-! ## Order -/

/-- The name of a component of a variable that has been defined. -/
def Env.Used (env : Env) (x : String) : Prop :=
  ∃ c : Component, c.name = x ∧ c.index < env.nextIndex c.sort

/-- Variables are bound to names that are in use. -/
def Env.Scoped (env : Env) : Prop :=
  ∀ b ∈ env.bindings, b.value.Within env.Used

theorem Env.Scoped.declares {env env' : Env} (h : env.Scoped) (hd : env.Declares env') :
    env'.Scoped := by
  intro b hb
  rw [hd.bindings_eq] at hb
  refine (h b hb).imp fun x ⟨c, hc, hlt⟩ => ⟨c, hc, ?_⟩
  rw [hd.nextIndex_eq]
  exact hlt

theorem Env.Scoped.bind {env env' : Env} {name : String} {v : Value} {statements : List Tree}
    (h : env.Scoped) (hbind : env.bind name v = .ok (env', statements)) : env'.Scoped := by
  have hnext := Env.nextIndex_of_bind hbind
  intro b hb
  rw [Env.bindings_of_bind hbind] at hb
  rcases List.mem_append.mp hb with hb | hb
  · refine (h b hb).imp fun x ⟨c, hc, hlt⟩ => ⟨c, hc, ?_⟩
    rw [hnext]
    omega
  · rw [List.mem_singleton.mp hb]
    refine Value.within_assign fun c hc => ⟨c, rfl, ?_⟩
    obtain ⟨hs, hi⟩ := Value.of_mem_components hc
    rw [hnext, if_pos hs, hi, hs]
    exact Nat.lt_succ_self _

theorem Lowers.not_used {env env' : Env} {ls : List SourceLet} {lines : List Tree}
    (h : Lowers env ls env' lines) {a : Tree} (ha : a ∈ lines.flatMap Tree.children) :
    Generated a.targetName ∧ ¬ env.Used a.targetName := by
  obtain ⟨cs, htargets, -, hindex⟩ := h.targets
  have hmem := List.mem_map_of_mem (f := Tree.targetName) ha
  rw [htargets] at hmem
  obtain ⟨c, hc, hname⟩ := List.mem_map.mp hmem
  refine ⟨⟨c, hname⟩, fun ⟨d, hd, hlt⟩ => ?_⟩
  obtain rfl := Component.name_injective (hname.trans hd.symm)
  exact absurd hlt (Nat.not_lt.mpr (hindex c hc))

/-- No statement of a run reads a name that is assigned by itself or later: it reads names that are
in use before the run, and externals. -/
theorem Lowers.inOrder {env env' : Env} {ls : List SourceLet} {lines : List Tree}
    (h : Lowers env ls env' lines) (hscoped : env.Scoped)
    (hplain : ∀ l ∈ ls, PlainLet env'.macros env' l) :
    Tree.InOrder (lines.flatMap Tree.children) := by
  induction h with
  | done => trivial
  | declare hd _ ih => exact ih (hscoped.declares hd) hplain
  | @bind env env₁ env' v statements ls lines l hsort hv hbind rest ih =>
    have hlowers := Lowers.bind hsort hv hbind rest
    -- what this line reads is in use or not generated; what is assigned from here on is neither
    have hwithin : v.Within fun x => env.Used x ∨ ¬ Generated x := by
      refine hv.within (fun b hb => (hscoped b hb).imp fun x hx => .inl hx) fun u hu hkind => ?_
      exact .inr ((hplain l List.mem_cons_self).externals u
        (hu.of_extends hlowers.extends_macros) hkind)
    rw [List.flatMap_cons]
    refine .append (fun t ht a ha hread => ?_)
      (ih (hscoped.bind hbind) fun l' hl' => hplain l' (List.mem_cons_of_mem l hl'))
    obtain ⟨hgenerated, hfresh⟩ := hlowers.not_used ha
    obtain rfl := Env.statements_of_bind hbind
    rcases hwithin.of_reads ht hread with hused | hnot
    · exact hfresh hused
    · exact hnot hgenerated

/-! ## Later environments -/

theorem Env.target_toOption (env : Env) (name : String) :
    (env.target name).toOption = (env.imports.lookup name).or (env.exports.lookup name) := by
  unfold Env.target
  cases env.imports.lookup name with
  | some t => rfl
  | none => cases env.exports.lookup name <;> rfl

theorem lookup_isSome_append {l l' : List (String × String)} {k : String}
    (h : (l.lookup k).isSome = true) : ((l ++ l').lookup k).isSome = true := by
  rw [List.lookup_append, Option.isSome_or, h, Bool.true_or]

/-- What an alias stands for may change, but it goes on to stand for something. -/
theorem Lowers.target_isSome {env env' : Env} {ls : List SourceLet} {lines : List Tree}
    (h : Lowers env ls env' lines) {name : String}
    (hname : (env.target name).toOption.isSome = true) :
    (env'.target name).toOption.isSome = true := by
  induction h with
  | done => exact hname
  | declare hd _ ih =>
    refine ih ?_
    rw [Env.target_toOption, Option.isSome_or, Bool.or_eq_true] at hname ⊢
    cases hd with
    | addImport h =>
      rw [(Env.addImport_eq_ok.mp h).2.2.2]
      exact hname.imp_left lookup_isSome_append
    | addExport h =>
      rw [(Env.addExport_eq_ok.mp h).2.2.2.2.2]
      exact hname.imp_right lookup_isSome_append
    | define h =>
      rw [(Env.define_eq_ok.mp h).2.2]
      exact hname
  | @bind _ _ _ v _ _ _ _ _ _ hbind _ ih =>
    refine ih ?_
    rw [Env.target_toOption] at hname ⊢
    rw [(Env.bind_eq_ok.mp hbind).2.2.1]
    cases v.sort <;> exact hname

/-- Only externals look into the environment. -/
theorem NumForm.build_of_ne_external {f : NumForm} (hf : f ≠ .external) (env env' : Env) (t : Tree)
    (vs : List Value) : f.build env t vs = f.build env' t vs := by
  unfold NumForm.build
  split
  case h_10 => exact absurd rfl hf
  all_goals rfl

theorem build_of_target {env env' : Env} {s : ValueSort} {t : Tree} {vs : List Value} {v : Value}
    (htarget : ∀ n, (env.target n).toOption.isSome = true → (env'.target n).toOption.isSome = true)
    (h : build env s t vs = some v) : build env' s t vs = some v := by
  cases s with
  | vector => exact h
  | matrix => exact h
  | number =>
    obtain ⟨f, hf, h⟩ := Option.bind_eq_some_iff.mp h
    obtain ⟨x, hx, rfl⟩ := Option.map_eq_some_iff.mp h
    rw [build, hf]
    refine Option.map_eq_some_iff.mpr ⟨x, ?_, rfl⟩
    by_cases hext : f = .external
    · subst hext
      cases NumForm.makes_of_build hx with
      | external hsome =>
        have hsome' := htarget t.name (by rw [hsome]; rfl)
        obtain ⟨target', htarget'⟩ := Option.isSome_iff_exists.mp hsome'
        exact Option.map_eq_some_iff.mpr ⟨target', htarget', rfl⟩
    · rw [NumForm.build_of_ne_external hext env' env]
      exact hx

/-- What evaluates goes on to evaluate to the same value. -/
theorem Evaluates.of_lowers {env env' : Env} {ls : List SourceLet} {lines : List Tree}
    (hlowers : Lowers env ls env' lines) {s : ValueSort} {t : Tree} {v : Value}
    (h : Evaluates env s t v) : Evaluates env' s t v := by
  refine Derives.map id (fun s n x hx => ?_) hlowers.extends_macros h
    fun s u ops xs x _ _ _ hbuild => ?_
  · obtain ⟨b, hb, hvalue⟩ := Option.bind_eq_some_iff.mp hx
    rw [Env.valueOf, hlowers.binding_eq hb]
    exact hvalue
  · rw [List.map_id]
    exact build_of_target (fun n => hlowers.target_isSome) hbuild

/-! ## Meanings along a run -/

section

variable {V : Type u} {I : Interpretation V} {σ τ : Store V}

/-- A store has the meaning of a `let` in the variables generated for it, which are those that its
line assigns. -/
def LetStored (τ : Store V) (env : Env) (p : SourceLet × Meaning V) (line : Tree) : Prop :=
  ∃ b, env.binding? p.1.name = some b ∧
    line.children.map Tree.targetName = (p.2.cells b.index).map Prod.fst ∧
    ∀ c ∈ p.2.cells b.index, τ c.1 = c.2

theorem operands_dot {s : ValueSort} {t : Tree} {ops : List (ValueSort × Tree)}
    (hkind : t.kind = "dot") (h : operands s t = some ops) :
    ∃ e₁ e₂ rest, t.children = e₁ :: e₂ :: rest ∧ ops = [(.vector, e₁), (.vector, e₂)] := by
  cases s with
  | vector => rw [operands, hkind] at h; cases h
  | matrix => rw [operands, hkind] at h; cases h
  | number =>
    rw [operands, hkind] at h
    generalize t.children = children at h ⊢
    cases children with
    | nil => cases h
    | cons e₁ children =>
      cases children with
      | nil => cases h
      | cons e₂ rest => exact ⟨e₁, e₂, rest, rfl, (Option.some.inj h).symm⟩

/-- An expression of a plain `let` means what its value means. -/
theorem PlainLet.denotes {env env' : Env} {l : SourceLet} {v : Value} {vars : Meanings V}
    (hplain : PlainLet env'.macros env' l) (hv : Evaluates env l.sort l.expr v)
    (hlater : ∀ {s t v}, Evaluates env s t v → Evaluates env' s t v)
    (hextends : Macros.Extends env'.macros env.macros) (hσ : ∀ x, ¬ Generated x → τ x = σ x)
    (hvars : ∀ s n v, env.valueOf s n = some v → vars.get? s n = some (v.meaning I τ)) :
    Denotes I σ env'.macros vars l.sort l.expr (v.meaning I τ) := by
  refine Derives.map (Value.meaning I τ) hvars hextends hv fun s u ops xs x hu hops hxs hx => ?_
  refine build_meaning (hplain.plain u hu) (fun hkind => hσ _ (hplain.externals u hu hkind)) ?_ hx
  rintro hkind v w rfl
  obtain ⟨e₁, e₂, rest, hc, rfl⟩ := operands_dot hkind hops
  obtain ⟨h₁, hrest⟩ := List.forall₂_cons.mp hxs
  obtain ⟨h₂, -⟩ := List.forall₂_cons.mp hrest
  exact hplain.dots u hu hkind e₁ e₂ rest v w hc (hlater h₁) (hlater h₂)

theorem Value.sort_meaning (v : Value) : (v.meaning I τ).sort = v.sort := by
  cases v <;> rfl

theorem LetStored.of_assign {env : Env} {l : SourceLet} {index : Nat} {v : Value}
    (hb : env.binding? l.name = some ⟨l.name, (v.assign index).2, index⟩)
    (hτ : ∀ a ∈ (v.assign index).1, τ a.targetName = a.rightSide.valueIn I τ) :
    LetStored τ env (l, v.meaning I τ) (.node "line" (v.assign index).1) := by
  refine ⟨_, hb, ?_, fun c hc => ?_⟩
  · show (v.assign index).1.map Tree.targetName = _
    rw [Value.targets_assign, Value.cells_of_assign hτ, List.map_map]
    rfl
  · rw [Value.cells_of_assign hτ] at hc
    obtain ⟨d, -, rfl⟩ := List.mem_map.mp hc
    rfl

/-- A new variable means what its value means, and the others keep their meanings. -/
theorem get?_of_bind {env env' : Env} {name : String} {v : Value} {statements : List Tree}
    {vars : Meanings V} (hbind : env.bind name v = .ok (env', statements))
    (hτ : ∀ a ∈ statements, τ a.targetName = a.rightSide.valueIn I τ)
    (hvars : ∀ s n v, env.valueOf s n = some v → vars.get? s n = some (v.meaning I τ))
    (s : ValueSort) (n : String) (w : Value) (hw : env'.valueOf s n = some w) :
    Meanings.get? ((name, v.meaning I τ) :: vars) s n = some (w.meaning I τ) := by
  obtain ⟨b, hb, hvalue⟩ := Option.bind_eq_some_iff.mp hw
  rw [Env.statements_of_bind hbind] at hτ
  by_cases hn : n = name
  · -- the new variable is bound to names, which have the values of its parts
    subst hn
    rw [Env.binding_of_bind hbind] at hb
    cases hb
    dsimp only at hvalue
    rw [Value.sort_assign] at hvalue
    split at hvalue
    · next hs =>
      rw [← Option.some.inj hvalue, Value.meaning_assign hτ, Meanings.get?, List.lookup_cons_self]
      exact if_pos (by rw [Value.sort_meaning, hs])
    · cases hvalue
  · -- the new entries are passed over on both sides
    have hlookup : Meanings.get? ((name, v.meaning I τ) :: vars) s n = vars.get? s n := by
      rw [Meanings.get?, List.lookup_cons, beq_false_of_ne hn, Meanings.get?]
    rw [hlookup]
    refine hvars s n w ?_
    rw [Env.binding?, Env.bindings_of_bind hbind, List.find?_append] at hb
    have hnew : List.find? (fun c : Binding => c.name == n)
        [⟨name, (v.assign (env.nextIndex v.sort)).2, env.nextIndex v.sort⟩] = none := by
      rw [List.find?_singleton, if_neg (by simpa using Ne.symm hn)]
    rw [hnew, Option.or_none] at hb
    rw [Env.valueOf, Env.binding?, hb]
    exact hvalue

/-- The meanings of the `let` statements of a run, in a store in which its statements hold. -/
theorem Lowers.meaning {env env' : Env} {ls : List SourceLet} {lines : List Tree}
    (h : Lowers env ls env' lines) (hplain : ∀ l ∈ ls, PlainLet env'.macros env' l)
    (hτ : ∀ a ∈ lines.flatMap Tree.children, τ a.targetName = a.rightSide.valueIn I τ)
    (hσ : ∀ x, ¬ Generated x → τ x = σ x) {vars : Meanings V}
    (hvars : ∀ s n v, env.valueOf s n = some v → vars.get? s n = some (v.meaning I τ)) :
    ∃ μs, LetsMean I σ env'.macros vars ls μs ∧
      List.Forall₂ (LetStored τ env') (ls.zip μs) lines := by
  induction h generalizing vars with
  | done => exact ⟨[], .nil _, .nil⟩
  | declare hd _ ih =>
    refine ih hplain hτ fun s n v hv => hvars s n v ?_
    rw [Env.valueOf, Env.binding?, hd.bindings_eq] at hv
    exact hv
  | @bind env env₁ env' v statements ls lines l hsort hv hbind rest ih =>
    have hlowers := Lowers.bind hsort hv hbind rest
    have hfirst : ∀ a ∈ statements, τ a.targetName = a.rightSide.valueIn I τ := fun a ha =>
      hτ a (List.mem_append_left _ ha)
    have hdenotes : Denotes I σ env'.macros vars l.sort l.expr (v.meaning I τ) :=
      (hplain l List.mem_cons_self).denotes hv (.of_lowers hlowers)
        hlowers.extends_macros hσ hvars
    obtain ⟨μs, hμs, hstored⟩ := ih (fun l' hl' => hplain l' (List.mem_cons_of_mem l hl'))
      (fun a ha => hτ a (List.mem_append_right _ ha)) (get?_of_bind hbind hfirst hvars)
    refine ⟨v.meaning I τ :: μs, .cons hdenotes hμs, .cons ?_ hstored⟩
    obtain rfl := Env.statements_of_bind hbind
    exact .of_assign (rest.binding_eq (Env.binding_of_bind hbind)) hfirst

end

/-- What a lowered program computes is what the source program means. The reference semantics gives
each `let` one meaning, and the chip program, run from any store, leaves the components of this
meaning in the variables that the line of the `let` assigns. This holds for every type of values and
every reading of literals and operators; the store that the run starts from gives the externals
their values. -/
theorem lowerProgram_preserves_meaning {files : FileStore} {program chip : Tree} {env : Env}
    (h : (lowerProgram files .empty program).Returns (env, chip))
    (hplain : ∀ l ∈ sourceLets program, PlainLet (sourceMacros files program) env l)
    {V : Type u} (I : Interpretation V) (σ : Store V) :
    ∃ μs, LetsMean I σ (sourceMacros files program) [] (sourceLets program) μs ∧
      (∀ νs, LetsMean I σ (sourceMacros files program) [] (sourceLets program) νs → νs = μs) ∧
      List.Forall₂ (LetStored (chip.run I σ) env) ((sourceLets program).zip μs) chip.children := by
  obtain ⟨lines, rfl, hlowers, hmacros⟩ := lowers_of_lowerProgram h
  rw [show sourceMacros files program = env.macros from hmacros.symm] at hplain ⊢
  have horder := hlowers.inOrder (fun b hb => by cases hb) hplain
  -- the run leaves names that are not generated alone
  have hσ : ∀ x, ¬ Generated x → (chipProgram lines).run I σ x = σ x := by
    intro x hx
    rw [Tree.run, statements_chipProgram]
    refine Tree.foldl_execute_of_not_mem I _ σ fun hmem => hx ?_
    obtain ⟨a, ha, rfl⟩ := List.mem_map.mp hmem
    exact (hlowers.not_used ha).1
  -- and its statements hold in the store at its end
  have hτ : ∀ a ∈ lines.flatMap Tree.children, (chipProgram lines).run I σ a.targetName
      = a.rightSide.valueIn I ((chipProgram lines).run I σ) := by
    intro a ha
    rw [Tree.run, statements_chipProgram]
    exact Tree.foldl_execute_eq I hlowers.nodup_targets horder σ ha
  obtain ⟨μs, hμs, hstored⟩ := Lowers.meaning hlowers hplain hτ hσ
    fun s n v hv => by cases hv
  rw [children_chipProgram]
  exact ⟨μs, hμs, fun νs hνs => hνs.unique hμs, hstored⟩

/-! ## The conditions at a program -/

theorem not_generated {x : String} (h : "_yovec_".toList.isPrefixOf x.toList = false) :
    ¬ Generated x := by
  rintro ⟨c, rfl⟩
  rw [Component.toList_name, List.isPrefixOf_iff_prefix.mpr (List.prefix_append ..)] at h
  cases h

instance (t : Tree) : Decidable t.Plain :=
  decidable_of_iff
    ((t.kind ≠ "vec_apply" ∧ t.kind ≠ "mat_apply") ∧
      (t.kind = "vec_binary" →
        ∀ p ∈ pairs t.children.tail, (vectorOperator? p.1.kind).isSome = true) ∧
      (t.kind = "mat_binary" →
        ∀ p ∈ pairs t.children.tail, (matrixOperator? p.1.kind).isSome = true))
    ⟨fun ⟨h₁, h₂, h₃⟩ => ⟨h₁, h₂, h₃⟩, fun ⟨h₁, h₂, h₃⟩ => ⟨h₁, h₂, h₃⟩⟩

/-- The nodes of an expression without macro calls are those of its tree. -/
theorem Occurs.mem_find {macros : Macros} {t u : Tree} (h : Occurs macros t u)
    (hcalls : t.calls = []) : u ∈ t.find fun _ => true := by
  induction h with
  | here t => cases t <;> simp [Tree.find_leaf, Tree.find_branch]
  | @child t c u _ hc _ ih =>
    have hmem := ih (Tree.find_child_eq_nil hcalls hc)
    cases t with
    | leaf k v => cases hc
    | branch k v cs =>
      rw [Tree.find_branch]
      exact List.mem_append_right _ (List.mem_flatMap.mpr ⟨c, hc, hmem⟩)
  | expanded hkind =>
    have hroot := Tree.not_of_find_eq_nil hcalls
    rw [hkind] at hroot
    cases hroot

/-- A macro call at the root brings the nodes of its expansion, if there are no calls in it. -/
theorem Occurs.mem_find_of_call {macros : Macros} {t body u : Tree} (h : Occurs macros t u)
    (hkind : t.kind = "call") (hbody : expansion? macros t = some body)
    (hcalls : body.calls = []) : u = t ∨ u ∈ body.find fun _ => true := by
  cases h with
  | here => exact .inl rfl
  | child hkind' => exact absurd hkind hkind'
  | expanded _ hbody' h =>
    obtain rfl := Option.some.inj (hbody.symm.trans hbody')
    exact .inr (h.mem_find hcalls)

/-- The conditions on a `let`, checked node by node. The dot products among the nodes are those of a
vector with itself. -/
theorem PlainLet.of_nodes {macros : Macros} {env : Env} {l : SourceLet} {nodes : List Tree}
    (hnodes : ∀ u, Occurs macros l.expr u → u ∈ nodes) (hplain : ∀ u ∈ nodes, u.Plain)
    (hdots : ∀ u ∈ nodes.filter (·.kind == "dot"), ∃ e, u.children = [e, e])
    (hext : ∀ u ∈ nodes, u.kind = "external" →
      "_yovec_".toList.isPrefixOf u.name.toList = false) : PlainLet macros env l := by
  refine ⟨fun u hu => hplain u (hnodes u hu), fun u hu hkind e₁ e₂ rest v w hc hv hw => ?_,
    fun u hu hkind => not_generated (hext u (hnodes u hu) hkind)⟩
  obtain ⟨e, he⟩ := hdots u (List.mem_filter.mpr ⟨hnodes u hu, by rw [hkind]; rfl⟩)
  rw [he] at hc
  cases hc
  rw [Value.vector.inj (Derives.unique hv hw)]

theorem sampleProgram_plain (env : Env) :
    ∀ l ∈ sourceLets sampleProgram, PlainLet (sourceMacros [] sampleProgram) env l := by
  intro l hl
  replace hl : l ∈ [_, _, _] := hl
  rcases List.mem_cons.mp hl with rfl | hl
  · exact .of_nodes (fun u hu => hu.mem_find rfl) (by decide) (fun u hu => by cases hu) (by decide)
  rcases List.mem_cons.mp hl with rfl | hl
  · refine .of_nodes (fun u hu => List.mem_cons.mpr (hu.mem_find_of_call rfl rfl rfl)) (by decide)
      (fun u hu => ?_) (by decide)
    exact ⟨.variableNamed "V", by rw [List.mem_singleton.mp hu]; rfl⟩
  · rw [List.mem_singleton.mp hl]
    exact .of_nodes (fun u hu => hu.mem_find rfl) (by decide) (fun u hu => by cases hu) (by decide)

theorem preserves_meaning_sample :
    ∃ env chip, (lowerProgram [] .empty sampleProgram).Returns (env, chip) ∧
      (∀ l ∈ sourceLets sampleProgram, PlainLet (sourceMacros [] sampleProgram) env l) ∧
      ∀ (V : Type) (I : Interpretation V) (σ : Store V),
        ∃ μs, LetsMean I σ (sourceMacros [] sampleProgram) [] (sourceLets sampleProgram) μs ∧
          (∀ νs, LetsMean I σ (sourceMacros [] sampleProgram) [] (sourceLets sampleProgram) νs →
            νs = μs) ∧
          List.Forall₂ (LetStored (chip.run I σ) env) ((sourceLets sampleProgram).zip μs)
            chip.children := by
  obtain ⟨⟨env, chip⟩, h⟩ := sampleProgram_lowered
  refine ⟨env, chip, h, sampleProgram_plain env, fun V I σ => ?_⟩
  exact lowerProgram_preserves_meaning h (sampleProgram_plain env) I σ

end Scalarize
