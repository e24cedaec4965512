import Scalarize.Proofs.ChipSemantics

/-!
# Scalarize — rewriting one place of a program

Propagation and folding work in small steps. A step replaces one node in the right side of one
assignment, and the two passes differ only in which replacements they allow. So what a step keeps is
shown here once, for any relation between a node and what takes its place.

* **`IsOrdered`** — chip programs that assign each name once and read a name only after that.
* **`RewritesOne`**, **`RewritesSide`** — one node is replaced, in a tree and in a right side.
* **`Replaceable`**, **`RewritesSide.keeps`** — properties of expressions that a step keeps if its
  replacements do.
* **`foldl_execute_unique`** — the equations of a program in order have one solution, so a program
  may be changed in any way that its final store does not see.
* **`RewritesSide.isOrdered`**, **`RewritesSide.run_eq`** — what a step keeps.
-/

namespace Scalarize

universe u

namespace Tree

/-! ## Programs in order -/

/-- The kinds of nodes that are not operations. -/
def reservedKinds : List String :=
  ["program", "line", "assignment", "variable", "number"]

/-- An expression: a named variable, a number, or an operation on expressions. -/
inductive IsExpression : Tree → Prop where
  | named (x : String) : IsExpression (leaf "variable" (some (.text x)))
  | number (v : Option Scalar) : IsExpression (leaf "number" v)
  | operation {k : String} {v : Option Scalar} {cs : List Tree} (hk : k ∉ reservedKinds)
      (h : ∀ c ∈ cs, c.IsExpression) : IsExpression (branch k v cs)

/-- An assignment of an expression to a named variable. -/
def AssignsExpression (a : Tree) : Prop :=
  ∃ x e, a.children = [leaf "variable" (some (.text x)), e] ∧ e.IsExpression

/-- A chip program in which each name is assigned once at most, and no statement reads a name that
it assigns itself or that is assigned later. -/
structure IsOrdered (program : Tree) : Prop where
  chip : program.IsChip
  plain : ∀ a ∈ program.statements, a.AssignsExpression
  once : program.AssignsOnce
  inOrder : InOrder program.statements

theorem IsExpression.find_isStatement {e : Tree} (h : e.IsExpression) :
    e.find isStatement = [] := by
  induction h with
  | named x => rfl
  | number v => rfl
  | @operation k v cs hk h ih =>
    have hroot : isStatement (branch k v cs) = false := by
      simp only [reservedKinds, List.mem_cons, not_or] at hk
      simp [isStatement, kind, hk]
    rw [find_branch, hroot, List.flatMap_eq_nil_iff.mpr ih]
    rfl

/-- All variables of an expression are leaves, so all of them are read. -/
theorem IsExpression.variableNames_eq {e : Tree} (h : e.IsExpression) :
    e.variableNames = e.readNames := by
  induction h with
  | named x => rfl
  | number v => rfl
  | @operation k v cs hk h ih =>
    have hroot : (k == "variable") = false := by
      simp only [reservedKinds, List.mem_cons, not_or] at hk
      simp [hk]
    rw [variableNames_branch, readNames_branch, hroot]
    exact List.flatMap_congr ih

theorem IsExpression.eq_of_isVariable {e : Tree} (h : e.IsExpression) (hv : e.isVariable = true) :
    ∃ x, e = leaf "variable" (some (.text x)) := by
  cases h with
  | named x => exact ⟨x, rfl⟩
  | number v => cases hv
  | operation hk h =>
    have hkind := beq_iff_eq.mp hv
    simp only [kind] at hkind
    simp [hkind, reservedKinds] at hk

theorem AssignsExpression.rightSide {a : Tree} (h : a.AssignsExpression) :
    a.rightSide.IsExpression := by
  obtain ⟨x, e, hchildren, he⟩ := h
  rwa [Tree.rightSide, hchildren]

/-! ## One node is replaced -/

/-- One node of a tree is replaced by another, as the relation allows. -/
inductive RewritesOne (R : Tree → Tree → Prop) : Tree → Tree → Prop where
  | here {t u : Tree} (h : R t u) : RewritesOne R t u
  | inside {k : String} {v : Option Scalar} {l r : List Tree} {c d : Tree}
      (h : RewritesOne R c d) : RewritesOne R (branch k v (l ++ c :: r)) (branch k v (l ++ d :: r))

theorem forall_mem_replace {P : Tree → Prop} {l r : List Tree} {c d : Tree}
    (h : ∀ e ∈ l ++ c :: r, P e) (hd : P c → P d) : ∀ e ∈ l ++ d :: r, P e := by
  simp only [List.forall_mem_append, List.forall_mem_cons] at h ⊢
  exact ⟨h.1, hd h.2.1, h.2.2⟩

/-- An operand of an expression with the property has it too, and whatever has the property may take
its place. -/
def Replaceable (P : Tree → Prop) : Prop :=
  ∀ k v l r c, P (branch k v (l ++ c :: r)) → P c ∧ ∀ d, P d → P (branch k v (l ++ d :: r))

theorem replaceable_isExpression : Replaceable IsExpression := by
  intro k v l r c h
  cases h with
  | operation hk h =>
    exact ⟨h c (by simp), fun d hd => .operation hk (forall_mem_replace h fun _ => hd)⟩

namespace RewritesOne

variable {R : Tree → Tree → Prop} {t u : Tree}

/-- The tree keeps a property that each replacement keeps. -/
theorem keeps {P : Tree → Prop} (hP : Replaceable P) (h : RewritesOne R t u) (ht : P t)
    (hR : ∀ t u, R t u → P t → P u) : P u := by
  induction h with
  | here h => exact hR _ _ h ht
  | inside h ih =>
    obtain ⟨hc, hreplace⟩ := hP _ _ _ _ _ ht
    exact hreplace _ (ih hc)

/-- Replacing a node by one of the same value does not change the value of the tree. -/
theorem valueIn_eq {V : Type u} {I : Interpretation V} {σ : Store V} (h : RewritesOne R t u)
    (hR : ∀ t u, R t u → t.valueIn I σ = u.valueIn I σ) : t.valueIn I σ = u.valueIn I σ := by
  induction h with
  | here h => exact hR _ _ h
  | inside h ih =>
    rw [valueIn_branch, valueIn_branch, List.map_append, List.map_append, List.map_cons,
      List.map_cons, ih]

/-- A new tree reads what the old one has read, or something that stands for it. -/
theorem readNames_cases (h : RewritesOne R t u) {S : String → String → Prop}
    (hR : ∀ t u, R t u → ∀ x ∈ u.readNames, x ∈ t.readNames ∨ ∃ y ∈ t.readNames, S y x) :
    ∀ x ∈ u.readNames, x ∈ t.readNames ∨ ∃ y ∈ t.readNames, S y x := by
  induction h with
  | here h => exact hR _ _ h
  | inside h ih =>
    intro x hx
    simp only [readNames_branch, List.flatMap_append, List.flatMap_cons, List.mem_append] at hx ⊢
    rcases hx with hx | hx | hx
    · exact .inl (.inl hx)
    · rcases ih x hx with hx | ⟨y, hy, hyx⟩
      · exact .inl (.inr (.inl hx))
      · exact .inr ⟨y, .inr (.inl hy), hyx⟩
    · exact .inl (.inr (.inr hx))

/-- In an expression only expressions are replaced. -/
theorem mono {S : Tree → Tree → Prop} (h : RewritesOne R t u) (ht : t.IsExpression)
    (hRS : ∀ t u, t.IsExpression → R t u → S t u) : RewritesOne S t u := by
  induction h with
  | here h => exact .here (hRS _ _ ht h)
  | inside h ih =>
    cases ht with
    | operation hk ht => exact .inside (ih (ht _ (by simp)))

end RewritesOne

/-- One node in the right side of one assignment of a program is replaced. -/
inductive RewritesSide (R : Tree → Tree → Prop) : Tree → Tree → Prop where
  | intro {k lk ak : String} {v lv av : Option Scalar} {before after left right : List Tree}
      {x e e' : Tree} (h : RewritesOne R e e') :
      RewritesSide R
        (branch k v (before ++ branch lk lv (left ++ branch ak av [x, e] :: right) :: after))
        (branch k v (before ++ branch lk lv (left ++ branch ak av [x, e'] :: right) :: after))

namespace RewritesSide

variable {R : Tree → Tree → Prop} {p q : Tree}

/-- One statement has another right side, and all others are as they were. -/
theorem statements (h : RewritesSide R p q) :
    ∃ pre post k v x e e', p.statements = pre ++ branch k v [x, e] :: post ∧
      q.statements = pre ++ branch k v [x, e'] :: post ∧ RewritesOne R e e' := by
  obtain @⟨k, lk, ak, v, lv, av, before, after, left, right, x, e, e', h⟩ := h
  refine ⟨before.flatMap children ++ left, right ++ after.flatMap children, ak, av, x, e, e',
    ?_, ?_, h⟩
  · simp [Tree.statements, children, List.flatMap_append]
  · simp [Tree.statements, children, List.flatMap_append]

theorem mono {S : Tree → Tree → Prop} (h : RewritesSide R p q) (hp : p.IsOrdered)
    (hRS : ∀ t u, t.IsExpression → R t u → S t u) : RewritesSide S p q := by
  obtain @⟨k, lk, ak, v, lv, av, before, after, left, right, x, e, e', h⟩ := h
  have hplain := hp.plain (branch ak av [x, e]) (by simp [Tree.statements, children])
  exact .intro (h.mono hplain.rightSide hRS)

/-- All right sides keep a property that each replacement keeps. -/
theorem keeps {P : Tree → Prop} (hP : Replaceable P) (h : RewritesSide R p q)
    (hp : ∀ a ∈ p.statements, P a.rightSide) (hR : ∀ t u, R t u → P t → P u) :
    ∀ a ∈ q.statements, P a.rightSide := by
  obtain ⟨pre, post, k, v, x, e, e', hsp, hsq, he⟩ := h.statements
  rw [hsp] at hp
  rw [hsq]
  exact forall_mem_replace hp fun hside => he.keeps hP hside hR

theorem targets_eq (h : RewritesSide R p q) :
    q.statements.map targetName = p.statements.map targetName := by
  obtain ⟨pre, post, k, v, x, e, e', hp, hq, -⟩ := h.statements
  rw [hp, hq, List.map_append, List.map_append, List.map_cons, List.map_cons]
  rfl

theorem isChip (h : RewritesSide R p q) (hp : p.IsChip)
    (hsides : ∀ a ∈ q.statements, a.rightSide.find isStatement = []) : q.IsChip := by
  obtain @⟨k, lk, ak, v, lv, av, before, after, left, right, x, e, e', h⟩ := h
  -- what is left of the old program are its other lines and the other assignments of the line
  have hline : (branch lk lv (left ++ branch ak av [x, e] :: right)).IsChipLine :=
    hp.lines _ (by simp [children])
  have hassign : (branch ak av [x, e]).IsChipAssignment :=
    hline.assignments _ (by simp [children])
  have hassign' : (branch ak av [x, e']).IsChipAssignment := by
    obtain ⟨w, f, hchildren, hf⟩ := hassign.parts
    obtain ⟨rfl, rfl⟩ : x = leaf "variable" w ∧ e = f := by simpa [children] using hchildren
    refine ⟨hassign.kind_eq, w, e', rfl, ?_⟩
    exact hsides (branch ak av [leaf "variable" w, e']) (by simp [Tree.statements, children])
  refine ⟨hp.kind_eq, fun l hl => ?_⟩
  simp only [children, List.mem_append, List.mem_cons] at hl
  rcases hl with hl | rfl | hl
  · exact hp.lines l (by simp [children, hl])
  · refine ⟨hline.kind_eq, rfl, fun a ha => ?_⟩
    simp only [children, List.mem_append, List.mem_cons] at ha
    rcases ha with ha | rfl | ha
    · exact hline.assignments a (by simp [children, ha])
    · exact hassign'
    · exact hline.assignments a (by simp [children, ha])
  · exact hp.lines l (by simp [children, hl])

end RewritesSide

/-! ## Order -/

/-- A statement reads nothing that is assigned after it. -/
theorem InOrder.not_mem_reads {pre post : List Tree} (h : InOrder (pre ++ post)) {b c : Tree}
    (hb : b ∈ pre) (hc : c ∈ post) : c.targetName ∉ b.reads := by
  induction pre with
  | nil => cases hb
  | cons t pre ih =>
    rcases List.mem_cons.mp hb with rfl | hb
    · exact h.1 c (by simp [hc])
    · exact ih h.2 hb

theorem InOrder.of_append {pre post : List Tree} (h : InOrder (pre ++ post)) : InOrder post := by
  induction pre with
  | nil => exact h
  | cons t pre ih => exact ih h.2

/-- Statements stay in order if one of them gets a new right side that reads nothing assigned from
there on. -/
theorem InOrder.replace {pre post : List Tree} {a a' : Tree} (h : InOrder (pre ++ a :: post))
    (htarget : a'.targetName = a.targetName) (hreads : ∀ c ∈ a :: post, c.targetName ∉ a'.reads) :
    InOrder (pre ++ a' :: post) := by
  induction pre with
  | nil =>
    refine ⟨fun c hc => ?_, h.2⟩
    rcases List.mem_cons.mp hc with rfl | hc
    · rw [htarget]
      exact hreads a List.mem_cons_self
    · exact hreads c (List.mem_cons_of_mem a hc)
  | cons t pre ih =>
    refine ⟨fun c hc => ?_, ih h.2⟩
    have hc' : c = t ∨ c ∈ pre ∨ c = a' ∨ c ∈ post := by simpa using hc
    rcases hc' with rfl | hc | rfl | hc
    · exact h.1 _ List.mem_cons_self
    · exact h.1 c (by simp [hc])
    · rw [htarget]
      exact h.1 a (by simp)
    · exact h.1 c (by simp [hc])

/-- A store that satisfies the equations of statements in order is the store that they leave. Each
statement makes one more name right, and what it reads is right already. -/
theorem foldl_execute_unique {V : Type u} (I : Interpretation V) {ts : List Tree} {σ τ : Store V}
    (horder : InOrder ts) (hsolves : ∀ t ∈ ts, τ t.targetName = t.rightSide.valueIn I τ)
    (hagree : ∀ x, x ∉ ts.map targetName → σ x = τ x) :
    ts.foldl (fun σ t => t.execute I σ) σ = τ := by
  induction ts generalizing σ with
  | nil =>
    funext x
    exact hagree x (by simp)
  | cons t ts ih =>
    have hvalue : t.rightSide.valueIn I σ = τ t.targetName := by
      rw [hsolves t List.mem_cons_self]
      refine valueIn_congr I _ fun x hx => hagree x fun hmem => ?_
      obtain ⟨a, ha, rfl⟩ := List.mem_map.mp hmem
      exact horder.1 a ha hx
    rw [List.foldl_cons]
    refine ih horder.2 (fun s hs => hsolves s (List.mem_cons_of_mem t hs)) fun x hx => ?_
    by_cases hxt : x = t.targetName
    · rw [hxt, execute_same, hvalue]
    · rw [execute_other I σ t hxt]
      exact hagree x (by simp [hxt, hx])

/-! ## What a step keeps -/

namespace RewritesSide

variable {R : Tree → Tree → Prop} {p q : Tree}

/-- A step keeps a program in order if its replacements are expressions, and read what the node has
read or what is read by a statement whose target the node has read. -/
theorem isOrdered (h : RewritesSide R p q) (hp : p.IsOrdered)
    (hR : ∀ t u, R t u → t.IsExpression → u.IsExpression)
    (hreads : ∀ t u, R t u → ∀ x ∈ u.readNames, x ∈ t.readNames ∨
      ∃ y ∈ t.readNames, ∃ b ∈ p.statements, b.targetName = y ∧ x ∈ b.reads) : q.IsOrdered := by
  obtain ⟨pre, post, k, v, x, e, e', hsp, hsq, he⟩ := h.statements
  have hplain : (branch k v [x, e]).AssignsExpression := hp.plain _ (by simp [hsp])
  obtain ⟨y, f, hchildren, hf⟩ := hplain
  obtain ⟨rfl, rfl⟩ : x = leaf "variable" (some (.text y)) ∧ e = f := by
    simpa [children] using hchildren
  have hplain' : ∀ a ∈ q.statements, a.AssignsExpression := by
    have hold := hp.plain
    rw [hsp] at hold
    rw [hsq]
    exact forall_mem_replace hold fun _ => ⟨y, e', rfl, he.keeps replaceable_isExpression hf hR⟩
  refine ⟨h.isChip hp.chip fun a ha => ?_, hplain', ?_, ?_⟩
  · exact (hplain' a ha).rightSide.find_isStatement
  · rw [AssignsOnce, h.targets_eq]
    exact hp.once
  · have horder : InOrder (pre ++ branch k v [leaf "variable" (some (.text y)), e] :: post) :=
      hsp ▸ hp.inOrder
    rw [hsq]
    refine horder.replace rfl fun c hc hmem => ?_
    rcases he.readNames_cases hreads _ hmem with hold | ⟨z, hz, b, hb, rfl, hbx⟩
    · exact horder.of_append.1 c hc hold
    · -- the target of `b` is read here, so `b` comes before
      rw [hsp, List.mem_append] at hb
      rcases hb with hb | hb
      · exact horder.not_mem_reads hb hc hbx
      · exact horder.of_append.1 b hb hz

/-- A step that replaces nodes by nodes of the same value, in the store that the program leaves,
does not change that store. -/
theorem run_eq {V : Type u} {I : Interpretation V} {σ : Store V} (h : RewritesSide R p q)
    (hp : p.IsOrdered) (hq : q.IsOrdered)
    (hR : ∀ t u, R t u → t.valueIn I (p.run I σ) = u.valueIn I (p.run I σ)) :
    q.run I σ = p.run I σ := by
  obtain ⟨pre, post, k, v, x, e, e', hsp, hsq, he⟩ := h.statements
  have hsolves : ∀ t ∈ p.statements, p.run I σ t.targetName = t.rightSide.valueIn I (p.run I σ) :=
    fun t ht => foldl_execute_eq I hp.once hp.inOrder σ ht
  refine foldl_execute_unique I hq.inOrder (fun t ht => ?_) fun y hy => ?_
  · rw [hsq, List.mem_append, List.mem_cons] at ht
    rcases ht with ht | rfl | ht
    · exact hsolves t (by simp [hsp, ht])
    · have hold := hsolves (branch k v [x, e]) (by simp [hsp])
      exact hold.trans (he.valueIn_eq hR)
    · exact hsolves t (by simp [hsp, ht])
  · rw [h.targets_eq] at hy
    exact (foldl_execute_of_not_mem I p.statements σ hy).symm

end RewritesSide

end Tree

end Scalarize
