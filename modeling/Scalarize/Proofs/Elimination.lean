import Scalarize.Proofs.DependencyGraph

/-!
# Scalarize — dropping dead assignments keeps the wanted values

The statements that remain are those with a live target, in their order. Running them and running
all statements keeps two stores in step: at every point of the run the stores agree on the live
names. A dead assignment changes a name that is not live, and a live one reads live names only,
because the live names are closed under the dependency graph.

* **`keepWhere`**, **`statements_dropDead`** — which statements remain, and where.
* **`Agree`**, **`agree_foldl_filter`** — the invariant, along a run.
* **`eliminateDead_preserves_kept`** — the wanted names end with the values they had.
-/

namespace Scalarize

universe u

namespace Tree

/-! ## What remains -/

theorem dropAll_eq_map (p : Tree → Bool) (ts : List Tree) :
    dropAll p ts = (ts.filter fun t => !p t).map (dropBelow p) := by
  induction ts with
  | nil => rfl
  | cons t ts ih =>
    rw [dropAll, List.filter_cons]
    cases hp : p t with
    | true =>
      simp only [if_true, Bool.not_true, Bool.false_eq_true, if_false]
      exact ih
    | false =>
      simp only [Bool.false_eq_true, if_false, Bool.not_false, if_true, List.map_cons]
      rw [ih]

theorem dropBelow_branch (p : Tree → Bool) (k : String) (v : Option Scalar) (cs : List Tree) :
    dropBelow p (branch k v cs) = branch k v ((cs.filter fun t => !p t).map (dropBelow p)) := by
  rw [dropBelow, dropAll_eq_map]

/-- Where nothing is found below the root, nothing is dropped. -/
theorem dropBelow_eq_self (p : Tree → Bool) (t : Tree) (h : ∀ c ∈ t.children, c.find p = []) :
    dropBelow p t = t := by
  induction t with
  | leaf k v => rfl
  | branch k v cs ih =>
    have hfilter : (cs.filter fun t => !p t) = cs := by
      rw [List.filter_eq_self]
      intro c hc
      rw [not_of_find_eq_nil (h c hc)]
      rfl
    have hmap : cs.map (dropBelow p) = cs := by
      refine (List.map_congr_left fun c hc => ?_).trans (List.map_id cs)
      exact ih c hc fun d hd => find_child_eq_nil (h c hc) hd
    rw [dropBelow_branch, hfilter, hmap]

theorem IsChipAssignment.dropBelow_eq {a : Tree} (h : a.IsChipAssignment) {p : Tree → Bool}
    (hp : ∀ t, p t = true → t.isStatement = true) : dropBelow p a = a :=
  dropBelow_eq_self p a fun _ hc => find_eq_nil_of_imp hp _ (h.find_child hc)

theorem isStatement_of_isDead {alive : List String} (t : Tree) (h : isDead alive t = true) :
    t.isStatement = true := by
  rw [isDead, Bool.and_eq_true] at h
  rw [isStatement, Bool.or_eq_true]
  exact .inl h.1

theorem isStatement_of_isEmptyLine (t : Tree) (h : isEmptyLine t = true) :
    t.isStatement = true := by
  rw [isEmptyLine, Bool.and_eq_true, Bool.and_eq_true] at h
  rw [isStatement, Bool.or_eq_true]
  exact .inr h.1.1

/-- The line with those of its assignments that satisfy a predicate. -/
def keepOnLine (p : Tree → Bool) (l : Tree) : Tree :=
  l.setChildren (l.children.filter p)

/-- The program with those of its assignments that satisfy a predicate, each in its place, and
without the lines on which none is left. -/
def keepWhere (p : Tree → Bool) (program : Tree) : Tree :=
  program.setChildren ((program.children.map (keepOnLine p)).filter fun l => !l.children.isEmpty)

theorem children_keepOnLine (p : Tree → Bool) (l : Tree) :
    (keepOnLine p l).children = l.children.filter p := by
  cases l <;> rfl

theorem IsChipLine.keepOnLine {l : Tree} (h : l.IsChipLine) (p : Tree → Bool) :
    (keepOnLine p l).IsChipLine := by
  refine ⟨?_, ?_, ?_⟩
  · cases l <;> exact h.kind_eq
  · cases l <;> exact h.not_leaf
  · rw [children_keepOnLine]
    exact fun a ha => h.assignments a (List.mem_of_mem_filter ha)

/-- Dropping dead assignments leaves the live ones on a line. -/
theorem IsChipLine.dropDead_eq {l : Tree} (h : l.IsChipLine) (alive : List String) :
    dropBelow (isDead alive) l = Tree.keepOnLine (fun a => alive.contains a.targetName) l := by
  cases l with
  | leaf k v => rfl
  | branch k v cs =>
    rw [dropBelow_branch]
    show branch k v ((cs.filter fun t => !isDead alive t).map (dropBelow (isDead alive)))
      = branch k v (cs.filter fun a => alive.contains a.targetName)
    have hmem : ∀ a ∈ cs, a.IsChipAssignment := h.assignments
    have hfilter : (cs.filter fun t => !isDead alive t)
        = cs.filter fun a => alive.contains a.targetName := by
      refine List.filter_congr fun a ha => ?_
      have hassign : a.isAssignment = true := by
        rw [isAssignment, (hmem a ha).kind_eq]
        rfl
      rw [isDead, hassign, Bool.true_and, Bool.not_not]
    rw [hfilter]
    congr 1
    refine (List.map_congr_left fun a ha => ?_).trans (List.map_id _)
    exact (hmem a (List.mem_of_mem_filter ha)).dropBelow_eq isStatement_of_isDead

/-- Dropping empty lines leaves a line as it is. -/
theorem IsChipLine.dropEmpty_eq {l : Tree} (h : l.IsChipLine) : dropBelow isEmptyLine l = l := by
  refine dropBelow_eq_self isEmptyLine l fun a ha => ?_
  have hchip := h.assignments a ha
  cases a with
  | leaf k v =>
    obtain ⟨_, _, hchildren, _⟩ := hchip.parts
    cases hchildren
  | branch k v cs =>
    have hroot : isEmptyLine (.branch k v cs) = false := by
      rw [isEmptyLine, hchip.kind_eq]
      rfl
    rw [find_branch, hroot]
    show cs.flatMap (find isEmptyLine) = []
    rw [List.flatMap_eq_nil_iff]
    exact fun c hc => find_eq_nil_of_imp isStatement_of_isEmptyLine c (hchip.find_child hc)

theorem IsChip.keepWhere {program : Tree} (h : program.IsChip) (p : Tree → Bool) :
    (program.keepWhere p).IsChip := by
  cases program with
  | leaf k v => exact h
  | branch k v ls =>
    refine ⟨h.kind_eq, fun l hl => ?_⟩
    obtain ⟨m, hm, rfl⟩ := List.mem_map.mp (List.mem_of_mem_filter hl)
    exact IsChipLine.keepOnLine (h.lines m hm) p

/-- The statements that are kept are those that satisfy the predicate, in their order. -/
theorem statements_keepWhere (p : Tree → Bool) (program : Tree) :
    (program.keepWhere p).statements = program.statements.filter p := by
  cases program with
  | leaf k v => rfl
  | branch k v ls =>
    show ((ls.map (keepOnLine p)).filter fun l => !l.children.isEmpty).flatMap children
      = (ls.flatMap children).filter p
    induction ls with
    | nil => rfl
    | cons l ls ih =>
      rw [List.map_cons, List.flatMap_cons, List.filter_append, ← ih, List.filter_cons,
        children_keepOnLine]
      -- a line that is dropped has no statements to lose
      cases hl : l.children.filter p with
      | nil => rfl
      | cons a as =>
        show List.flatMap children (keepOnLine p l :: _) = _
        rw [List.flatMap_cons, children_keepOnLine, hl]

/-- Dropping dead assignments keeps the live ones. -/
theorem IsChip.dropDead_eq {program : Tree} (h : program.IsChip) (alive : List String) :
    program.dropDead alive = .ok (program.keepWhere fun a => alive.contains a.targetName) := by
  have hkind : (program.kind != "program") = false := by rw [h.kind_eq]; rfl
  rw [dropDead, hkind]
  refine congrArg Except.ok ?_
  cases program with
  | leaf k v => rfl
  | branch k v ls =>
    have hlines : ∀ l ∈ ls, l.IsChipLine := h.lines
    -- no line is an assignment, so the first pass keeps all lines
    have hkeep : (ls.filter fun l => !isDead alive l) = ls := by
      rw [List.filter_eq_self]
      intro l hl
      rw [isDead, isAssignment, (hlines l hl).kind_eq]
      rfl
    have hmap : ls.map (dropBelow (isDead alive))
        = ls.map (Tree.keepOnLine fun a => alive.contains a.targetName) :=
      List.map_congr_left fun l hl => (hlines l hl).dropDead_eq alive
    have hdead : ∀ l ∈ ls.map (Tree.keepOnLine fun a => alive.contains a.targetName),
        l.IsChipLine := by
      intro l hl
      obtain ⟨m, hm, rfl⟩ := List.mem_map.mp hl
      exact IsChipLine.keepOnLine (hlines m hm) _
    rw [dropBelow_branch, hkeep, hmap, dropBelow_branch]
    show branch k v _ = branch k v _
    congr 1
    -- the second pass drops lines, and changes nothing within a line
    refine (List.map_congr_left fun l hl => ?_).trans ((List.map_id _).trans ?_)
    · exact (hdead l (List.mem_of_mem_filter hl)).dropEmpty_eq
    · refine List.filter_congr fun l hl => ?_
      rw [isEmptyLine, (hdead l hl).kind_eq, (hdead l hl).not_leaf]
      rfl

/-- Dropping dead assignments gives a chip program whose statements are the live ones. -/
theorem statements_dropDead {program : Tree} (h : program.IsChip) (alive : List String) :
    ∃ kept, program.dropDead alive = .ok kept ∧ kept.IsChip ∧
      kept.statements = program.statements.filter fun a => alive.contains a.targetName :=
  ⟨_, h.dropDead_eq alive, h.keepWhere _, statements_keepWhere _ program⟩

/-! ## Two runs in step -/

variable {V : Type u}

/-- Two stores give the listed names the same values. -/
def Agree (names : List String) (σ τ : Store V) : Prop :=
  ∀ x ∈ names, σ x = τ x

/-- An assignment to a name that is not listed is not noticed. -/
theorem Agree.execute_dead {names : List String} {σ τ : Store V} (h : Agree names σ τ)
    (I : Interpretation V) {a : Tree} (ha : a.targetName ∉ names) :
    Agree names σ (a.execute I τ) := by
  intro x hx
  have hne : x ≠ a.targetName := fun heq => ha (heq ▸ hx)
  rw [execute_other I τ a hne]
  exact h x hx

/-- An assignment that reads listed names only keeps two stores in step. -/
theorem Agree.execute_live {names : List String} {σ τ : Store V} (h : Agree names σ τ)
    (I : Interpretation V) {a : Tree} (ha : a.reads ⊆ names) :
    Agree names (a.execute I σ) (a.execute I τ) := by
  intro x hx
  by_cases hxa : x = a.targetName
  · rw [hxa, execute_same, execute_same]
    exact valueIn_congr I _ fun y hy => h y (ha hy)
  · rw [execute_other I σ a hxa, execute_other I τ a hxa]
    exact h x hx

/-- Along a run that leaves out the assignments to other names, the stores agree on the listed
names. -/
theorem agree_foldl_filter (I : Interpretation V) (names : List String) (ts : List Tree)
    (hreads : ∀ a ∈ ts, a.targetName ∈ names → a.reads ⊆ names) (σ τ : Store V)
    (h : Agree names σ τ) :
    Agree names
      ((ts.filter fun a => names.contains a.targetName).foldl (fun σ t => t.execute I σ) σ)
      (ts.foldl (fun σ t => t.execute I σ) τ) := by
  induction ts generalizing σ τ with
  | nil => exact h
  | cons a ts ih =>
    have hrest := ih fun b hb => hreads b (List.mem_cons_of_mem a hb)
    rw [List.filter_cons]
    by_cases ha : a.targetName ∈ names
    · rw [if_pos (List.contains_iff_mem.mpr ha), List.foldl_cons, List.foldl_cons]
      exact hrest _ _ (h.execute_live I (hreads a List.mem_cons_self ha))
    · rw [if_neg (fun hc => ha (List.contains_iff_mem.mp hc)), List.foldl_cons]
      exact hrest _ _ (h.execute_dead I ha)

/-- Dropping the dead assignments of a chip program that assigns no name twice gives a chip program,
and the wanted names end with the same values: for every reading of the literals and operators, from
every store. -/
theorem eliminateDead_preserves_kept {program : Tree} (hchip : program.IsChip)
    (honce : program.AssignsOnce) (keep : List String) :
    ∃ kept, program.eliminateDead keep = .ok kept ∧ kept.IsChip ∧
      ∀ (V : Type u) (I : Interpretation V) (σ : Store V),
        ∀ x ∈ keep, kept.run I σ x = program.run I σ x := by
  set g := DependencyGraph.addStatements [] program.statements with hg
  obtain ⟨kept, hdrop, hkept, hstatements⟩ := statements_dropDead hchip (g.alive keep)
  refine ⟨kept, ?_, hkept, ?_⟩
  · rw [eliminateDead, hchip.dependencies_eq]
    exact hdrop
  intro V I σ x hx
  rw [run, run, hstatements]
  -- a live assignment reads what its target depends on, which is alive
  have hreads : ∀ a ∈ program.statements, a.targetName ∈ g.alive keep →
      a.reads ⊆ g.alive keep := by
    intro a ha halive y hy
    have hvariable := readNames_subset_variableNames _ hy
    exact g.alive_closed keep halive (DependencyGraph.mem_reads_addStatements honce ha hvariable)
  exact agree_foldl_filter I (g.alive keep) program.statements hreads σ σ (fun _ _ => rfl) x
    (g.subset_alive keep hx)

/-- A chip program in which `c` is dead if only `b` is wanted. -/
def sampleChip : Tree :=
  let assign (x : String) (e : Tree) := node "assignment" [variableNamed x, e]
  node "program" [
    node "line" [assign "a" (numberOf (.int 1))],
    node "line" [assign "b" (node "add" [variableNamed "a", variableNamed "x"]),
      assign "c" (variableNamed "a")]]

theorem sampleChip_isChip : sampleChip.IsChip := by
  have hassign : ∀ x e, e.find isStatement = [] →
      (node "assignment" [variableNamed x, e]).IsChipAssignment :=
    fun x e he => ⟨rfl, _, e, rfl, he⟩
  refine ⟨rfl, fun l hl => ?_⟩
  rcases List.mem_pair.mp hl with rfl | rfl
  · refine ⟨rfl, rfl, fun a ha => ?_⟩
    rw [List.mem_singleton.mp ha]
    exact hassign _ _ rfl
  · refine ⟨rfl, rfl, fun a ha => ?_⟩
    rcases List.mem_pair.mp ha with rfl | rfl
    · exact hassign _ _ rfl
    · exact hassign _ _ rfl

theorem eliminateDead_sample :
    sampleChip.IsChip ∧ sampleChip.AssignsOnce ∧
      ∃ kept, sampleChip.eliminateDead ["b"] = .ok kept ∧ kept.IsChip ∧
        ∀ (V : Type) (I : Interpretation V) (σ : Store V),
          ∀ x ∈ ["b"], kept.run I σ x = sampleChip.run I σ x :=
  have honce : sampleChip.AssignsOnce := by decide
  ⟨sampleChip_isChip, honce, eliminateDead_preserves_kept sampleChip_isChip honce ["b"]⟩

end Tree

end Scalarize
