import Scalarize.Proofs.MacroCalls

/-!
# Scalarize — chains of operators made flat

A chain of operators can be grouped in more than one way: `1 + 2 + 3` is one chain of three
operands, or a chain of two whose first operand is a chain again. In the same way, several operators
before one operand can be taken together or one by one. None of this matters for the value, since
the operators of a chain are evaluated from left to right and those before an operand from right to
left.

* **`Flattens`** — the second tree is the first one with some of its chains made flat.
* **`build_chain_append`**, **`build_unary_append`** — what a chain makes of the values of its
  operands can be made in two steps.
* **`Flattens.substitute`** — putting in arguments, flat or not, keeps this relation; so it holds of
  the bodies of macro calls.
* **`Flattens.yields`**, **`Flattens.yields_back`** — a tree and its flat form yield the same values.
-/

namespace Scalarize

/-- The kind of the nodes for chains of operators. -/
def ValueSort.chainKind : ValueSort → String
  | number => "num_binary"
  | vector => "vec_binary"
  | matrix => "mat_binary"

/-- The second tree is the first one with some of its chains made flat. A macro call is one as the
grammar makes it. -/
inductive Flattens : Tree → Tree → Prop where
  | leaf {k} (v) (hk : k ≠ "call") : Flattens (.leaf k v) (.leaf k v)
  | branch {k v cs cs'} (hk : k ≠ "call") (hlen : cs.length = cs'.length)
      (h : ∀ {c c'}, (c, c') ∈ cs.zip cs' → Flattens c c') :
      Flattens (.branch k v cs) (.branch k v cs')
  | call {m args args'} (hlen : args.length = args'.length)
      (h : ∀ {c c'}, (c, c') ∈ args.zip args' → Flattens c c') :
      Flattens (.node "call" [.text "macro" m, .node "args" args])
        (.node "call" [.text "macro" m, .node "args" args'])
  | chain {s : ValueSort} {first rest first' inner rest'} (heven : inner.length % 2 = 0)
      (hfirst : Flattens first (.node s.chainKind (first' :: inner)))
      (hlen : rest.length = rest'.length)
      (h : ∀ {c c'}, (c, c') ∈ rest.zip rest' → Flattens c c') :
      Flattens (.node s.chainKind (first :: rest)) (.node s.chainKind (first' :: (inner ++ rest')))
  | unary {ops ops' x cs} (hlen : ops.length = ops'.length)
      (h : ∀ {c c'}, (c, c') ∈ ops.zip ops' → Flattens c c') (hcs : cs ≠ [])
      (hx : Flattens x (.node "num_unary" cs)) :
      Flattens (.node "num_unary" (ops ++ [x])) (.node "num_unary" (ops' ++ cs))

/-- The macro calls of a tree are as the grammar makes them. -/
def CallsShaped (t : Tree) : Prop :=
  Flattens t t

theorem ValueSort.chainKind_ne (s : ValueSort) : s.chainKind ≠ "variable" ∧ s.chainKind ≠ "call" := by
  cases s <;> decide

namespace Flattens

variable {t u : Tree} {cs cs' : List Tree} {k : String} {v : Option Scalar}

theorem of_forall₂ (hk : k ≠ "call") (h : List.Forall₂ Flattens cs cs') :
    Flattens (.branch k v cs) (.branch k v cs') :=
  .branch hk h.length_eq (fun hp => (List.forall₂_iff_zip.mp h).2 hp)

theorem of_args {m : String} (h : List.Forall₂ Flattens cs cs') :
    Flattens (.node "call" [.text "macro" m, .node "args" cs])
      (.node "call" [.text "macro" m, .node "args" cs']) :=
  .call h.length_eq (fun hp => (List.forall₂_iff_zip.mp h).2 hp)

theorem kind_eq (h : Flattens t u) : t.kind = u.kind := by
  cases h <;> rfl

theorem value_eq (h : Flattens t u) : t.value = u.value := by
  cases h <;> rfl

theorem name_eq (h : Flattens t u) : t.name = u.name := by
  rw [Tree.name, h.value_eq, Tree.name]

theorem eq_call (h : Flattens t u) (hkind : t.kind = "call") :
    ∃ m args args', t = .node "call" [.text "macro" m, .node "args" args] ∧
      u = .node "call" [.text "macro" m, .node "args" args'] ∧ List.Forall₂ Flattens args args' := by
  cases h with
  | leaf _ hk => exact absurd hkind hk
  | branch hk => exact absurd hkind hk
  | call hlen h => exact ⟨_, _, _, rfl, rfl, List.forall₂_iff_zip.mpr ⟨hlen, h⟩⟩
  | @chain s => exact absurd hkind s.chainKind_ne.2
  | unary => exact absurd hkind (show "num_unary" ≠ "call" by decide)

/-! ## Names -/

theorem flatMap_eq_of_forall₂ {α β : Type} {f : α → List β} {xs ys : List α}
    (h : List.Forall₂ (fun x y => f x = f y) xs ys) : xs.flatMap f = ys.flatMap f := by
  induction h with
  | nil => rfl
  | cons hxy _ ih => rw [List.flatMap_cons, List.flatMap_cons, hxy, ih]

/-- What is collected from all nodes is the same in the flat form, if each node adds something of its
kind and value only and chains add nothing. -/
theorem collect_eq {β : Type} {f : Tree → List β} {g : String → Option Scalar → List β}
    (hbranch : ∀ k v cs, k ≠ "call" → f (.branch k v cs) = g k v ++ cs.flatMap f)
    (hcall : ∀ {m args args'}, args.flatMap f = args'.flatMap f →
      f (.node "call" [.text "macro" m, .node "args" args]) =
        f (.node "call" [.text "macro" m, .node "args" args']))
    (hchain : ∀ s : ValueSort, g s.chainKind none = []) (hunary : g "num_unary" none = [])
    (h : Flattens t u) : f t = f u := by
  have hlist : ∀ {xs ys : List Tree}, xs.length = ys.length →
      (∀ {c c'}, (c, c') ∈ xs.zip ys → f c = f c') → xs.flatMap f = ys.flatMap f :=
    fun hlen h => flatMap_eq_of_forall₂ (List.forall₂_iff_zip.mpr ⟨hlen, h⟩)
  induction h with
  | leaf => rfl
  | branch hk hlen _ ih => rw [hbranch _ _ _ hk, hbranch _ _ _ hk, hlist hlen ih]
  | call hlen _ ih => exact hcall (hlist hlen ih)
  | @chain s first rest first' inner rest' _ _ hlen _ ihfirst ih =>
    have hnode : ∀ cs, f (.node s.chainKind cs) = cs.flatMap f := fun cs => by
      rw [Tree.node, hbranch _ _ _ s.chainKind_ne.2, hchain, List.nil_append]
    rw [hnode, hnode, List.flatMap_cons, ihfirst, hnode, hlist hlen ih, ← List.flatMap_append,
      List.cons_append]
  | @unary ops ops' x cs hlen _ _ _ ih ihx =>
    have hnode : ∀ cs, f (.node "num_unary" cs) = cs.flatMap f := fun cs => by
      rw [Tree.node, hbranch _ _ _ (by decide), hunary, List.nil_append]
    rw [hnode, hnode, List.flatMap_append, List.flatMap_append, hlist hlen ih,
      List.flatMap_singleton, ihx, hnode]

theorem variableNames_eq (h : Flattens t u) : t.variableNames = u.variableNames := by
  refine collect_eq (g := fun k v => if k == "variable" then [Tree.valueText v] else [])
    (fun k v cs _ => Tree.variableNames_branch k v cs) (fun {m args args'} heq => ?_) (fun s => ?_)
    rfl h
  · simp only [Tree.node, Tree.variableNames_branch, List.flatMap_cons, List.flatMap_nil, heq]
  · exact if_neg fun hk => s.chainKind_ne.1 (beq_iff_eq.mp hk)

theorem map_calledName_branch (k : String) (v : Option Scalar) (cs : List Tree) :
    (Tree.branch k v cs).calls.map Tree.calledName =
      (if k == "call" then [(Tree.branch k v cs).calledName] else []) ++
        cs.flatMap fun c => c.calls.map Tree.calledName := by
  rw [Tree.calls, Tree.find_branch, List.map_append, List.map_flatMap]
  congr 1
  show List.map _ (if k == "call" then _ else _) = _
  split <;> rfl

/-- A tree and its flat form call the same macros. -/
theorem calledNames_eq (h : Flattens t u) :
    t.calls.map Tree.calledName = u.calls.map Tree.calledName := by
  refine collect_eq (f := fun t => t.calls.map Tree.calledName) (g := fun _ _ => [])
    (fun k v cs hk => ?_) (fun {m args args'} heq => ?_) (fun _ => rfl) rfl h
  · rw [map_calledName_branch, if_neg (by simpa using hk)]
  · simp only [Tree.node, map_calledName_branch, List.flatMap_cons, List.flatMap_nil, heq]
    rfl

/-! ## Substitution -/

/-- Trees put in, flat or not. -/
theorem substitute {σ ρ : String → Option Tree} (hσ : ∀ x, Option.Rel Flattens (σ x) (ρ x))
    (h : Flattens t u) : Flattens (t.substitute σ) (u.substitute ρ) := by
  have hmap : ∀ {xs ys : List Tree}, xs.length = ys.length →
      (∀ {c c'}, (c, c') ∈ xs.zip ys → Flattens (c.substitute σ) (c'.substitute ρ)) →
      List.Forall₂ Flattens (xs.map (Tree.substitute σ)) (ys.map (Tree.substitute ρ)) := by
    intro xs ys hlen h
    rw [List.forall₂_map_left_iff, List.forall₂_map_right_iff]
    exact List.forall₂_iff_zip.mpr ⟨hlen, h⟩
  have hput : ∀ {x} {a b : Tree}, Flattens a b →
      Flattens ((σ x).getD a) ((ρ x).getD b) := by
    intro x a b hab
    have hx := hσ x
    generalize σ x = a', ρ x = b' at hx
    cases hx with
    | none => exact hab
    | some h => exact h
  have hnode : ∀ {k}, k ≠ "variable" → ∀ τ cs, (Tree.node k cs).substitute τ =
      .node k (cs.map (Tree.substitute τ)) := fun hk τ cs => by
    rw [Tree.node, Tree.substitute_branch, if_neg hk]
    rfl
  induction h with
  | leaf v hk =>
    rw [Tree.substitute_leaf, Tree.substitute_leaf]
    split
    · exact hput (.leaf v hk)
    · exact .leaf v hk
  | branch hk hlen h ih =>
    rw [Tree.substitute_branch, Tree.substitute_branch]
    split
    · exact hput (.branch hk hlen h)
    · exact .of_forall₂ hk (hmap hlen ih)
  | @call m args args' hlen _ ih =>
    have hcall : ∀ τ as, (Tree.node "call" [.text "macro" m, .node "args" as]).substitute τ =
        .node "call" [.text "macro" m, .node "args" (as.map (Tree.substitute τ))] := fun τ as => by
      rw [hnode (by decide), List.map_cons, List.map_singleton, hnode (by decide)]
      rfl
    rw [hcall, hcall]
    exact .of_args (hmap hlen ih)
  -- a tree put in for an operand stays below its node, so the levels to merge are the same
  | @chain s first rest first' inner rest' heven _ hlen _ ihfirst ih =>
    rw [hnode s.chainKind_ne.1] at ihfirst ⊢
    rw [hnode s.chainKind_ne.1, List.map_cons, List.map_cons, List.map_append]
    have hall := List.forall₂_iff_zip.mp (hmap hlen ih)
    exact .chain (by rwa [List.length_map]) ihfirst hall.1 hall.2
  | @unary ops ops' x cs hlen _ hcs _ ih ihx =>
    rw [hnode (by decide)] at ihx ⊢
    rw [hnode (by decide), List.map_append, List.map_append, List.map_singleton]
    have hall := List.forall₂_iff_zip.mp (hmap hlen ih)
    exact .unary hall.1 hall.2 (mt List.map_eq_nil_iff.mp hcs) ihx

theorem substituteBelow {σ ρ : String → Option Tree} (hσ : ∀ x, Option.Rel Flattens (σ x) (ρ x))
    (h : Flattens t u) : Flattens (t.substituteBelow σ) (u.substituteBelow ρ) := by
  by_cases hkind : t.kind = "variable"
  · -- the root stays, and its children are replaced one by one
    cases h with
    | leaf v hk => exact .leaf v hk
    | branch hk hlen h =>
      refine .of_forall₂ hk ?_
      rw [Tree.substituteAll_eq_map, Tree.substituteAll_eq_map, List.forall₂_map_left_iff,
        List.forall₂_map_right_iff]
      exact (List.forall₂_iff_zip.mpr ⟨hlen, h⟩).imp fun _ _ hc => hc.substitute hσ
    | call => exact absurd hkind (show "call" ≠ "variable" by decide)
    | @chain s => exact absurd hkind s.chainKind_ne.1
    | unary => exact absurd hkind (show "num_unary" ≠ "variable" by decide)
  · rw [← Tree.substitute_of_not_variable hkind,
      ← Tree.substitute_of_not_variable (h.kind_eq ▸ hkind)]
    exact h.substitute hσ

end Flattens

/-! ## Macros -/

/-- The second macro is the first one with a flat body. -/
structure MacroDef.Flattens (m m' : MacroDef) : Prop where
  params_eq : m.params = m'.params
  returns_eq : m.returns = m'.returns
  body : Scalarize.Flattens m.body m'.body

/-- The second macros are the first ones with flat bodies. -/
def Macros.Flattens (macros macros' : Macros) : Prop :=
  List.Forall₂ (fun d d' => d.1 = d'.1 ∧ d.2.Flattens d'.2) macros macros'

theorem Macros.Flattens.lookup {macros macros' : Macros} (h : macros.Flattens macros')
    (name : String) : Option.Rel MacroDef.Flattens (macros.lookup name) (macros'.lookup name) := by
  induction h with
  | nil => exact .none
  | @cons d d' macros macros' hd _ ih =>
    obtain ⟨x, m⟩ := d
    obtain ⟨x', m'⟩ := d'
    obtain ⟨rfl, hm⟩ := hd
    rw [List.lookup_cons, List.lookup_cons]
    cases name == x with
    | true => exact .some hm
    | false => exact ih

theorem rel_lookup_zip {names : List String} {args args' : List Tree}
    (h : List.Forall₂ Flattens args args') (x : String) :
    Option.Rel Flattens ((names.zip args).lookup x) ((names.zip args').lookup x) := by
  induction h generalizing names with
  | nil =>
    rw [List.zip_nil_right]
    exact .none
  | cons ha _ ih =>
    cases names with
    | nil => exact .none
    | cons y names =>
      rw [List.zip_cons_cons, List.zip_cons_cons, List.lookup_cons, List.lookup_cons]
      cases x == y with
      | true => exact .some ha
      | false => exact ih

theorem checkArgs_eq {args args' : List Tree} (h : List.Forall₂ Flattens args args')
    (ps : List Param) : MacroDef.checkArgs ps args = MacroDef.checkArgs ps args' := by
  induction h generalizing ps with
  | nil => cases ps <;> rfl
  | cons ha _ ih =>
    cases ps with
    | nil => rfl
    | cons p ps =>
      rw [MacroDef.checkArgs, MacroDef.checkArgs, MacroDef.checkArg, ha.kind_eq, ih,
        MacroDef.checkArg]

/-- Calls of the two macros, with arguments flat or not. -/
theorem MacroDef.Flattens.call {m m' : MacroDef} (hm : m.Flattens m') {args args' : List Tree}
    (hargs : List.Forall₂ Scalarize.Flattens args args') :
    Option.Rel Scalarize.Flattens (m.call args).toOption (m'.call args').toOption := by
  have hnames : m.paramNames = m'.paramNames := by
    rw [MacroDef.paramNames, hm.params_eq, MacroDef.paramNames]
  rw [MacroDef.call, MacroDef.call, MacroDef.arity, hm.params_eq, ← MacroDef.arity,
    hargs.length_eq, checkArgs_eq hargs]
  split
  · exact .none
  · cases MacroDef.checkArgs m'.params args' with
    | error d => exact .none
    | ok =>
      refine .some (hm.body.substituteBelow fun x => ?_)
      rw [MacroDef.binding, hnames]
      exact rel_lookup_zip hargs x

theorem Flattens.sortedExpansion {macros macros' : Macros} (hmacros : macros.Flattens macros')
    (s : ValueSort) {t u : Tree} (h : Flattens t u) (hkind : t.kind = "call") :
    Option.Rel Flattens (sortedExpansion? macros s t) (sortedExpansion? macros' s u) := by
  obtain ⟨m, args, args', rfl, rfl, hargs⟩ := h.eq_call hkind
  have hm := hmacros.lookup (Tree.text "macro" m).name
  show Option.Rel Flattens ((macros.lookup (Tree.text "macro" m).name).bind _)
    ((macros'.lookup (Tree.text "macro" m).name).bind _)
  generalize macros.lookup (Tree.text "macro" m).name = d,
    macros'.lookup (Tree.text "macro" m).name = d' at hm
  cases hm with
  | none => exact .none
  | some hd =>
    rw [Option.bind_some, Option.bind_some, hd.returns_eq]
    split
    · exact hd.call hargs
    · exact .none

/-! ## Operands in common places -/

theorem operands_of_children {s : ValueSort} {t z : Tree} {g : Tree → Tree} (hkind : t.kind = z.kind)
    (hchildren : t.children = z.children.map g) :
    operands s t = (operands s z).map (List.map (Prod.map id g)) := by
  unfold operands
  rw [hkind, hchildren]
  cases s with
  | number =>
    cases NumForm.ofKind? z.kind with
    | none => rfl
    | some f => exact f.operands_map g _
  | vector =>
    cases VecForm.ofKind? z.kind with
    | none => rfl
    | some f => exact f.operands_map g _
  | matrix =>
    cases MatForm.ofKind? z.kind with
    | none => rfl
    | some f => exact f.operands_map g _

theorem fst_mem_of_mem_pairs {ts : List Tree} {c : Tree} (h : c ∈ (pairs ts).map Prod.fst) :
    c ∈ ts := by
  fun_induction pairs ts with
  | case1 op x rest ih =>
    rcases List.mem_cons.mp h with rfl | h
    · exact List.mem_cons_self
    · exact List.mem_cons_of_mem _ (List.mem_cons_of_mem _ (ih h))
  | case2 => cases h

theorem NumForm.mem_of_mem_signs (f : NumForm) {cs : List Tree} {c : Tree} (h : c ∈ f.signs cs) :
    c ∈ cs := by
  unfold NumForm.signs at h
  split at h
  case h_1 => exact List.mem_cons_of_mem _ (fst_mem_of_mem_pairs h)
  case h_2 => exact List.mem_of_mem_dropLast h
  all_goals grind

theorem VecForm.mem_of_mem_signs (f : VecForm) {cs : List Tree} {c : Tree} (h : c ∈ f.signs cs) :
    c ∈ cs := by
  unfold VecForm.signs at h
  split at h
  case h_1 => exact List.mem_cons_of_mem _ (fst_mem_of_mem_pairs h)
  all_goals grind

theorem MatForm.mem_of_mem_signs (f : MatForm) {cs : List Tree} {c : Tree} (h : c ∈ f.signs cs) :
    c ∈ cs := by
  unfold MatForm.signs at h
  split at h
  case h_1 => exact List.mem_cons_of_mem _ (fst_mem_of_mem_pairs h)
  all_goals grind

theorem build_of_children {env env' : Env} {s : ValueSort} {t z : Tree} {g : Tree → Tree}
    (htarget : ∀ x, env'.target x = env.target x) (hkind : t.kind = z.kind)
    (hvalue : t.value = z.value) (hchildren : t.children = z.children.map g)
    (hg : ∀ c ∈ z.children, (g c).kind = c.kind ∧ (g c).value = c.value) (vs : List Value) :
    build env s t vs = build env' s z vs := by
  unfold build
  rw [hkind]
  cases s with
  | number =>
    cases NumForm.ofKind? z.kind with
    | none => rfl
    | some f =>
      dsimp only [Option.bind_some]
      rw [f.build_congr hchildren hvalue htarget fun c hc => hg c (f.mem_of_mem_signs hc)]
  | vector =>
    cases VecForm.ofKind? z.kind with
    | none => rfl
    | some f =>
      dsimp only [Option.bind_some]
      rw [f.build_congr hchildren fun c hc => hg c (f.mem_of_mem_signs hc)]
  | matrix =>
    cases MatForm.ofKind? z.kind with
    | none => rfl
    | some f =>
      dsimp only [Option.bind_some]
      rw [f.build_congr hchildren fun c hc => hg c (f.mem_of_mem_signs hc)]

/-- A node that holds two trees. -/
def Tree.both (t u : Tree) : Tree :=
  .branch t.kind t.value [t, u]

/-- The first of the trees that a node holds. -/
def Tree.former (t : Tree) : Tree :=
  t.children.headD t

/-- The second of the trees that a node holds. -/
def Tree.latter (t : Tree) : Tree :=
  t.children.tail.headD t

/-- Trees in common places come from one list of nodes that hold both. -/
theorem exists_both {cs cs' : List Tree} (h : List.Forall₂ Flattens cs cs') :
    ∃ zs : List Tree, cs = zs.map Tree.former ∧ cs' = zs.map Tree.latter ∧
      ∀ z ∈ zs, Flattens z.former z.latter ∧ (z.former.kind = z.kind ∧ z.former.value = z.value) ∧
        z.latter.kind = z.kind ∧ z.latter.value = z.value := by
  induction h with
  | nil => exact ⟨[], rfl, rfl, fun z hz => by cases hz⟩
  | @cons c c' cs cs' hc _ ih =>
    obtain ⟨zs, rfl, rfl, hzs⟩ := ih
    refine ⟨Tree.both c c' :: zs, rfl, rfl, List.forall_mem_cons.mpr ⟨?_, hzs⟩⟩
    exact ⟨hc, ⟨rfl, rfl⟩, hc.kind_eq.symm, hc.value_eq.symm⟩

section

variable {env env' : Env} {s : ValueSort} {t u : Tree} {ops : List (ValueSort × Tree)}

/-- Nodes with children in common places have operands in common places, and make the same of their
values. -/
theorem form_of_children (htarget : ∀ x, env'.target x = env.target x) (hkind : t.kind = u.kind)
    (hvalue : t.value = u.value) (hchildren : List.Forall₂ Flattens t.children u.children) :
    Option.Rel (List.Forall₂ fun p q => p.1 = q.1 ∧ Flattens p.2 q.2) (operands s t)
        (operands s u) ∧ ∀ vs, build env s t vs = build env' s u vs := by
  obtain ⟨zs, ht, hu, hzs⟩ := exists_both hchildren
  obtain ⟨z, hz⟩ : ∃ z, z = Tree.branch t.kind t.value zs := ⟨_, rfl⟩
  have hzchildren : z.children = zs := by rw [hz]; rfl
  have hzkind : z.kind = t.kind := by rw [hz]; rfl
  have hzvalue : z.value = t.value := by rw [hz]; rfl
  rw [← hzchildren] at ht hu hzs
  refine ⟨?_, fun vs => ?_⟩
  · rw [operands_of_children hzkind.symm ht, operands_of_children (hkind ▸ hzkind.symm) hu]
    cases hops : operands s z with
    | none => exact .none
    | some ops =>
      refine .some ?_
      rw [List.forall₂_map_left_iff, List.forall₂_map_right_iff]
      refine List.forall₂_same.mpr fun p hp => ⟨rfl, ?_⟩
      exact (hzs p.2 (mem_children_of_mem_operands hops hp)).1
  · have hleft : build env s t vs = build env' s z vs :=
      build_of_children htarget hzkind.symm hzvalue.symm ht (fun c hc => (hzs c hc).2.1) vs
    have hright : build env' s u vs = build env' s z vs :=
      build_of_children (fun _ => rfl) (hkind ▸ hzkind.symm) (hvalue ▸ hzvalue.symm) hu
        (fun c hc => (hzs c hc).2.2) vs
    rw [hleft, hright]

end

/-! ## Operands of chains -/

theorem operands_chain (s : ValueSort) (first : Tree) (rest : List Tree) :
    operands s (.node s.chainKind (first :: rest)) =
      some ((s, first) :: (pairs rest).map fun p => (s, p.2)) := by
  cases s <;> rfl

/-- The operand comes last, whatever operators are before it. -/
theorem operands_unary {cs : List Tree} {x : Tree} (h : cs.getLast? = some x) (ops : List Tree) :
    operands .number (.node "num_unary" (ops ++ cs)) = some [(.number, x)] := by
  have hne : cs ≠ [] := by
    rintro rfl
    cases h
  show ((ops ++ cs).getLast?).map _ = _
  rw [List.getLast?_append_of_ne_nil _ hne, h]
  rfl

theorem foldlM_toOption_append {ε α β : Type} {f : β → α → Except ε β} (xs ys : List α) (b : β) :
    ((xs ++ ys).foldlM f b).toOption =
      (xs.foldlM f b).toOption.bind fun c => (ys.foldlM f c).toOption := by
  rw [List.foldlM_append]
  cases xs.foldlM f b <;> rfl

/-- A chain whose value is made step by step, of what the values of its operands hold. The steps can
be taken in two turns. -/
theorem build_append_of_steps {env : Env} {s : ValueSort} {γ : Type} {f : Value → Option γ}
    {g : γ → Value} (hf : ∀ {v b}, f v = some b → v = g b)
    (steps : γ → List ((Tree × Tree) × γ) → Option γ)
    (hsteps : ∀ y ps qs, steps y (ps ++ qs) = (steps y ps).bind fun y' => steps y' qs)
    (hbuild : ∀ e cs y vs, build env s (.node s.chainKind (e :: cs)) (g y :: vs) =
      ((vs.mapM f).bind fun zs => steps y ((pairs cs).zip zs)).map g)
    (first first' : Tree) {inner rest : List Tree} (heven : inner.length % 2 = 0) (y : γ)
    {xs : List Value} (ys : List Value) (hlen : (pairs inner).length = xs.length) :
    build env s (.node s.chainKind (first :: (inner ++ rest))) (g y :: (xs ++ ys)) =
      (build env s (.node s.chainKind (first :: inner)) (g y :: xs)).bind fun z =>
        build env s (.node s.chainKind (first' :: rest)) (z :: ys) := by
  rw [hbuild, hbuild, List.mapM_append]
  cases has : xs.mapM f with
  | none => rfl
  | some as =>
    have hcount : (pairs inner).length = as.length := by
      rw [hlen, Value.eq_map_of_mapM hf has, List.length_map]
    show _ = ((steps y ((pairs inner).zip as)).map g).bind _
    cases hbs : ys.mapM f with
    | none =>
      show none = _
      cases steps y ((pairs inner).zip as) with
      | none => rfl
      | some y' =>
        show none = build env s _ (g y' :: ys)
        rw [hbuild, hbs]
        rfl
    | some bs =>
      show (steps y ((pairs (inner ++ rest)).zip (as ++ bs))).map g = _
      rw [Grammar.pairs_append heven, List.zip_append hcount, hsteps]
      cases steps y ((pairs inner).zip as) with
      | none => rfl
      | some y' =>
        show _ = build env s _ (g y' :: ys)
        rw [hbuild, hbs]
        rfl

theorem build_chain_append (env : Env) (s : ValueSort) (first first' : Tree) {inner rest : List Tree}
    (heven : inner.length % 2 = 0) (x : Value) {xs : List Value} (ys : List Value)
    (hlen : (pairs inner).length = xs.length) :
    build env s (.node s.chainKind (first :: (inner ++ rest))) (x :: (xs ++ ys)) =
      (build env s (.node s.chainKind (first :: inner)) (x :: xs)).bind fun z =>
        build env s (.node s.chainKind (first' :: rest)) (z :: ys) := by
  cases s with
  | number =>
    cases x with
    | number x =>
      refine build_append_of_steps Value.eq_of_number?
        (fun y ps => some (ps.foldl (fun x p => Num.binary p.1.1.kind x p.2) y))
        (fun y ps qs => by rw [List.foldl_append]; rfl) (fun e cs y vs => ?_) first first' heven x
        ys hlen
      show (Option.map _ (vs.mapM Value.number?)).map Value.number = _
      cases vs.mapM Value.number? <;> rfl
    | _ => rfl
  | vector =>
    cases x with
    | vector x =>
      exact build_append_of_steps Value.eq_of_vector?
        (fun y ps => (ps.foldlM (fun v p => Vec.chainStep p.1.1.kind v p.2) y).toOption)
        (fun y ps qs => foldlM_toOption_append ps qs y) (fun e cs y vs => rfl) first first' heven x
        ys hlen
    | _ => rfl
  | matrix =>
    cases x with
    | matrix x =>
      exact build_append_of_steps Value.eq_of_matrix?
        (fun y ps => (ps.foldlM (fun m p => Mat.chainStep p.1.1.kind m p.2) y).toOption)
        (fun y ps qs => foldlM_toOption_append ps qs y) (fun e cs y vs => rfl) first first' heven x
        ys hlen
    | _ => rfl

/-- The operators before an operand can be taken in two turns. -/
theorem build_unary_append (env : Env) (ops : List Tree) (e : Tree) {cs : List Tree} (hcs : cs ≠ [])
    (x : Value) :
    build env .number (.node "num_unary" (ops ++ cs)) [x] =
      (build env .number (.node "num_unary" cs) [x]).bind fun z =>
        build env .number (.node "num_unary" (ops ++ [e])) [z] := by
  have hbuild : ∀ cs (y : Num), build env .number (.node "num_unary" cs) [.number y] =
      some (.number (cs.dropLast.foldr (fun op x => .unary op.kind x) y)) := fun _ _ => rfl
  cases x with
  | number x =>
    rw [hbuild, hbuild, Option.bind_some, hbuild, List.dropLast_append_of_ne_nil hcs,
      List.foldr_append, List.dropLast_concat]
  | _ => rfl

theorem forall₂_pairs {R : Tree → Tree → Prop} {cs cs' : List Tree} (h : List.Forall₂ R cs cs') :
    List.Forall₂ (fun p q => R p.2 q.2) (pairs cs) (pairs cs') := by
  fun_induction pairs cs generalizing cs' with
  | case1 op x rest ih =>
    obtain ⟨op', _, -, htail, rfl⟩ := List.forall₂_cons_left_iff.mp h
    obtain ⟨x', rest', hx, hrest, rfl⟩ := List.forall₂_cons_left_iff.mp htail
    exact .cons hx (ih hrest)
  | case2 cs hcs =>
    rcases cs with _ | ⟨a, _ | ⟨b, rest⟩⟩
    · cases h
      exact .nil
    · obtain ⟨a', _, -, hrest, rfl⟩ := List.forall₂_cons_left_iff.mp h
      cases hrest
      exact .nil
    · exact (hcs a b rest rfl).elim

theorem forall₂_along {α β γ : Type} {R : α → β → Prop} {A : α → γ → Prop} {B : β → γ → Prop}
    (h : ∀ {a b c}, R a b → A a c → B b c) {xs : List α} {ys : List β} {zs : List γ}
    (hR : List.Forall₂ R xs ys) (hA : List.Forall₂ A xs zs) : List.Forall₂ B ys zs := by
  induction hR generalizing zs with
  | nil =>
    cases hA
    exact .nil
  | cons hab _ ih =>
    obtain ⟨c, zs, hac, hrest, rfl⟩ := List.forall₂_cons_left_iff.mp hA
    exact .cons (h hab hac) (ih hrest)

/-! ## Values -/

/-- The second environment is the first one with flat macros. -/
structure Env.Flattens (env env' : Env) : Prop where
  macros : Macros.Flattens env.macros env'.macros
  eq : env' = { env with macros := env'.macros }

theorem Env.Flattens.valueOf_eq {env env' : Env} (h : env.Flattens env') (s : ValueSort)
    (x : String) : env'.valueOf s x = env.valueOf s x := by
  rw [h.eq]
  rfl

theorem Env.Flattens.target_eq {env env' : Env} (h : env.Flattens env') (x : String) :
    env'.target x = env.target x := by
  rw [h.eq]
  rfl

section

variable {env : Env} {s : ValueSort} {t u : Tree} {v : Value}

/-- A form yields what it makes of values that its operands take over from another form, place by
place. -/
theorem Yields.of_places {R : Tree → Tree → Prop} {ops : List (ValueSort × Tree)} {vs : List Value}
    (hops : operands s t = some ops)
    (hvals : List.Forall₂ (fun p w => ∀ {q}, R p.2 q → Yields env p.1 q w) ops vs)
    (hrel : Option.Rel (List.Forall₂ fun p q => p.1 = q.1 ∧ R p.2 q.2) (operands s t) (operands s u))
    (hbuild : build env s u vs = some v) : Yields env s u v := by
  rw [hops] at hrel
  generalize hops' : operands s u = ops' at hrel
  cases hrel with
  | some hrel =>
    refine .of_forall₂ hops' ?_ hbuild
    refine forall₂_along (fun {p q w} hpq hp => ?_) hrel hvals
    rw [← hpq.1]
    exact hp hpq.2

/-- A chain yields what it yields with its first operands grouped. -/
theorem Yields.chain_append {first : Tree} {inner rest : List Tree} {z : Value} {ys : List Value}
    (heven : inner.length % 2 = 0) (hz : Yields env s (.node s.chainKind (first :: inner)) z)
    (hys : List.Forall₂ (fun p w => Yields env s p.2 w) (pairs rest) ys)
    (hbuild : build env s (.node s.chainKind (.node s.chainKind (first :: inner) :: rest)) (z :: ys) =
      some v) : Yields env s (.node s.chainKind (first :: (inner ++ rest))) v := by
  obtain ⟨vs, hvs, hinner⟩ := hz.of_operands (operands_chain s first inner)
  obtain ⟨x, xs, hx, hxs, rfl⟩ := List.forall₂_cons_left_iff.mp hvs
  have hcount : (pairs inner).length = xs.length := by
    have := hxs.length_eq
    rwa [List.length_map] at this
  have hflat : build env s (.node s.chainKind (first :: (inner ++ rest))) (x :: (xs ++ ys)) =
      some v := by
    rw [build_chain_append env s first (.node s.chainKind (first :: inner)) heven x ys hcount,
      hinner, Option.bind_some]
    exact hbuild
  refine .of_forall₂ (operands_chain s first (inner ++ rest)) (.cons hx ?_) hflat
  rw [Grammar.pairs_append heven, List.map_append]
  exact List.rel_append hxs (List.forall₂_map_left_iff.mpr hys)

/-- Operators before an operand yield what they yield with the last of them grouped. -/
theorem Yields.unary_append {ops cs : List Tree} {z : Value} (hcs : cs ≠ [])
    (hz : Yields env .number (.node "num_unary" cs) z)
    (hbuild : build env .number (.node "num_unary" (ops ++ [.node "num_unary" cs])) [z] = some v) :
    Yields env .number (.node "num_unary" (ops ++ cs)) v := by
  obtain ⟨e, he⟩ := Option.isSome_iff_exists.mp (List.getLast?_isSome.mpr hcs)
  obtain ⟨vs, hvs, hinner⟩ := hz.of_operands (operands_unary he [])
  obtain ⟨y, _, hy, hnil, rfl⟩ := List.forall₂_cons_left_iff.mp hvs
  cases hnil
  rw [List.nil_append] at hinner
  refine .of_forall₂ (operands_unary he ops) (.cons hy .nil) ?_
  rw [build_unary_append env ops (.node "num_unary" cs) hcs y, hinner, Option.bind_some]
  exact hbuild

end

namespace Flattens

variable {env env' : Env} {s : ValueSort} {t u : Tree} {v : Value}
  {ops : List (ValueSort × Tree)} {vs : List Value}

/-- Only the operators of a chain and of the operators before an operand matter. -/
theorem build_eq (henv : env.Flattens env') {k : String} {cs cs' : List Tree}
    (h : List.Forall₂ Flattens cs cs') : build env s (.node k cs) vs = build env' s (.node k cs') vs := by
  have hform : Option.Rel _ (operands s (.node k cs)) (operands s (.node k cs')) ∧
      ∀ vs, build env s (.node k cs) vs = build env' s (.node k cs') vs :=
    form_of_children henv.target_eq rfl rfl h
  exact hform.2 vs

/-- What an expression yields, its flat form yields. -/
theorem yields (henv : env.Flattens env') (h : Flattens t u) (hv : Yields env s t v) :
    Yields env' s u v := by
  induction hv generalizing u with
  | reference hkind hvar =>
    refine .reference (h.kind_eq ▸ hkind) ?_
    rw [← h.name_eq, henv.valueOf_eq]
    exact hvar
  | @call s t body v hkind hbody _ ih =>
    have hrel := h.sortedExpansion henv.macros s hkind
    rw [hbody] at hrel
    generalize hbody' : sortedExpansion? env'.macros s u = body' at hrel
    cases hrel with
    | some hflat => exact .call (h.kind_eq ▸ hkind) hbody' (ih hflat)
  | @form s t ops vs v hops hlen hvals hbuild ih =>
    have hall : List.Forall₂ (fun p w => ∀ {q}, Flattens p.2 q → Yields env' p.1 q w) ops vs :=
      List.forall₂_iff_zip.mpr ⟨hlen, ih⟩
    -- all but chains and operators before an operand keep their operands where they are
    have hplaces : List.Forall₂ Flattens t.children u.children → Yields env' s u v := by
      intro hchildren
      obtain ⟨hrel, hsame⟩ := form_of_children henv.target_eq h.kind_eq h.value_eq hchildren
      exact .of_places hops hall hrel ((hsame vs).symm.trans hbuild)
    cases h with
    | leaf => exact hplaces .nil
    | branch _ hlen h => exact hplaces (List.forall₂_iff_zip.mpr ⟨hlen, h⟩)
    | call => cases (operands_call rfl).symm.trans hops
    | @chain s' first rest first' inner rest' heven hfirst hlen' h =>
      obtain ⟨rfl, rfl⟩ := operands_unique hops (operands_chain s' first rest)
      have hrest : List.Forall₂ Flattens rest rest' := List.forall₂_iff_zip.mpr ⟨hlen', h⟩
      obtain ⟨z, ys, hz, hys, rfl⟩ := List.forall₂_cons_left_iff.mp hall
      rw [List.forall₂_map_left_iff] at hys
      refine .chain_append heven (hz hfirst)
        (forall₂_along (fun hpq hp => hp hpq) (forall₂_pairs hrest) hys) ?_
      rw [← build_eq henv (.cons hfirst hrest)]
      exact hbuild
    | @unary us us' x cs hlen' h hcs hx =>
      obtain ⟨rfl, rfl⟩ := operands_unique hops (operands_unary List.getLast?_singleton us)
      have hus : List.Forall₂ Flattens us us' := List.forall₂_iff_zip.mpr ⟨hlen', h⟩
      obtain ⟨z, _, hz, hnil, rfl⟩ := List.forall₂_cons_left_iff.mp hall
      cases hnil
      refine .unary_append hcs (hz hx) ?_
      rw [← build_eq henv (List.rel_append hus (.cons hx .nil))]
      exact hbuild

theorem yields_of_places (henv : env.Flattens env') (hops : operands s u = some ops)
    (hvals : List.Forall₂ (fun p w => ∀ {q}, Flattens q p.2 → Yields env p.1 q w) ops vs)
    (hbuild : build env' s u vs = some v) (hkind : t.kind = u.kind) (hvalue : t.value = u.value)
    (hchildren : List.Forall₂ Flattens t.children u.children) : Yields env s t v := by
  obtain ⟨hrel, hsame⟩ := form_of_children henv.target_eq hkind hvalue hchildren
  refine .of_places (R := fun q p => Flattens p q) hops hvals ?_ ((hsame vs).trans hbuild)
  generalize operands s t = ops₁, operands s u = ops₂ at hrel
  cases hrel with
  | none => exact .none
  | some hrel => exact .some (hrel.flip.imp fun _ _ hpq => ⟨hpq.1.symm, hpq.2⟩)

/-- An expression yields what its flat form makes of the operands, if these can be put back. The
induction is on the flattening: the operands of a nested chain are among those of the flat one. -/
theorem yields_of_operands (henv : env.Flattens env') (h : Flattens t u)
    (hops : operands s u = some ops)
    (hvals : List.Forall₂ (fun p w => ∀ {q}, Flattens q p.2 → Yields env p.1 q w) ops vs)
    (hbuild : build env' s u vs = some v) : Yields env s t v := by
  induction h generalizing ops vs v with
  | leaf => exact yields_of_places henv hops hvals hbuild rfl rfl .nil
  | branch _ hlen h =>
    exact yields_of_places henv hops hvals hbuild rfl rfl (List.forall₂_iff_zip.mpr ⟨hlen, h⟩)
  | call => cases (operands_call rfl).symm.trans hops
  | @chain s' first rest first' inner rest' heven hfirst hlen h ihfirst =>
    obtain ⟨rfl, rfl⟩ := operands_unique hops (operands_chain s' first' (inner ++ rest'))
    have hrest : List.Forall₂ Flattens rest rest' := List.forall₂_iff_zip.mpr ⟨hlen, h⟩
    obtain ⟨x, ws, hx, hws, rfl⟩ := List.forall₂_cons_left_iff.mp hvals
    rw [Grammar.pairs_append heven, List.map_append] at hws
    obtain ⟨xs, ys, hxs, hys, rfl⟩ := exists_append_of_forall₂ hws
    have hcount : (pairs inner).length = xs.length := by
      have := hxs.length_eq
      rwa [List.length_map] at this
    rw [build_chain_append env' s first' (.node s.chainKind (first' :: inner)) heven x ys
      hcount] at hbuild
    obtain ⟨z, hinner, houter⟩ := Option.bind_eq_some_iff.mp hbuild
    have hz : Yields env s first z := ihfirst (operands_chain s first' inner) (.cons hx hxs) hinner
    refine .of_forall₂ (operands_chain s first rest) (.cons hz ?_)
      ((build_eq henv (.cons hfirst hrest)).trans houter)
    rw [List.forall₂_map_left_iff] at hys ⊢
    exact forall₂_along (fun hpq hp => hp hpq) (forall₂_pairs hrest).flip hys
  | @unary us us' x cs hlen h hcs hx _ ihx =>
    obtain ⟨e, he⟩ := Option.isSome_iff_exists.mp (List.getLast?_isSome.mpr hcs)
    obtain ⟨rfl, rfl⟩ := operands_unique hops (operands_unary he us')
    have hus : List.Forall₂ Flattens us us' := List.forall₂_iff_zip.mpr ⟨hlen, h⟩
    obtain ⟨y, _, hy, hnil, rfl⟩ := List.forall₂_cons_left_iff.mp hvals
    cases hnil
    rw [build_unary_append env' us' (.node "num_unary" cs) hcs y] at hbuild
    obtain ⟨z, hinner, houter⟩ := Option.bind_eq_some_iff.mp hbuild
    have hz : Yields env .number x z := ihx (operands_unary he []) (.cons hy .nil) hinner
    exact .of_forall₂ (operands_unary List.getLast?_singleton us) (.cons hz .nil)
      ((build_eq henv (List.rel_append hus (.cons hx .nil))).trans houter)

/-- What the flat form of an expression yields, the expression yields. -/
theorem yields_back (henv : env.Flattens env') (h : Flattens t u) (hv : Yields env' s u v) :
    Yields env s t v := by
  induction hv generalizing t with
  | reference hkind hvar =>
    refine .reference (h.kind_eq.trans hkind) ?_
    rw [h.name_eq, ← henv.valueOf_eq]
    exact hvar
  | @call s u body v hkind hbody _ ih =>
    have hkind' := h.kind_eq.trans hkind
    have hrel := h.sortedExpansion henv.macros s hkind'
    rw [hbody] at hrel
    generalize hbody' : sortedExpansion? env.macros s t = body' at hrel
    cases hrel with
    | some hflat => exact .call hkind' hbody' (ih hflat)
  | form hops hlen _ hbuild ih =>
    exact h.yields_of_operands henv hops (List.forall₂_iff_zip.mpr ⟨hlen, ih⟩) hbuild

end Flattens

/-! ## Trees with a common flat form -/

/-- Two trees have a common flat form. -/
def Alike (t t' : Tree) : Prop :=
  ∃ u, Flattens t u ∧ Flattens t' u

namespace Alike

theorem exists_flat {ts ts' : List Tree} (h : List.Forall₂ Alike ts ts') :
    ∃ us, List.Forall₂ Flattens ts us ∧ List.Forall₂ Flattens ts' us := by
  induction h with
  | nil => exact ⟨[], .nil, .nil⟩
  | cons ht _ ih =>
    obtain ⟨u, hu, hu'⟩ := ht
    obtain ⟨us, hus, hus'⟩ := ih
    exact ⟨u :: us, .cons hu hus, .cons hu' hus'⟩

theorem node {k : String} (hk : k ≠ "call") {ts ts' : List Tree} (h : List.Forall₂ Alike ts ts') :
    Alike (.node k ts) (.node k ts') := by
  obtain ⟨us, hus, hus'⟩ := exists_flat h
  exact ⟨.node k us, .of_forall₂ hk hus, .of_forall₂ hk hus'⟩

theorem call {m : String} {ts ts' : List Tree} (h : List.Forall₂ Alike ts ts') :
    Alike (.node "call" [.text "macro" m, .node "args" ts])
      (.node "call" [.text "macro" m, .node "args" ts']) := by
  obtain ⟨us, hus, hus'⟩ := exists_flat h
  exact ⟨_, .of_args hus, .of_args hus'⟩

theorem text {k : String} (hk : k ≠ "call") (x : String) : Alike (.text k x) (.text k x) :=
  ⟨.text k x, .leaf _ hk, .leaf _ hk⟩

end Alike

end Scalarize
