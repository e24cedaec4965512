import Scalarize.Program.Liveness
import Scalarize.Proofs.Trees

/-!
# Scalarize — what chip programs compute

A chip program is a list of lines of assignments. Its meaning is given for every type of values and
every reading of the number literals and the operators, so that what is proved here holds for chips
with exact numbers, with rounded ones, or with errors as values.

* **`Tree.valueIn`** — the value of an expression in a store.
* **`Tree.run`** — the store that the assignments leave, one after the other.
* **`Tree.IsChip`** — the trees that are chip programs: a program node over lines over assignments.
* **`valueIn_congr`** — the value of an expression depends on the names that it reads only.
-/

namespace Scalarize

universe u

/-- What the literals and the operators of a chip stand for, with values in `V`. An operator is told
by the kind of its node. -/
structure Interpretation (V : Type u) where
  literal : Option Scalar → V
  operation : String → List V → V

/-- The values of all variables. -/
abbrev Store (V : Type u) := String → V

namespace Tree

variable {V : Type u}

mutual

/-- The value of an expression. A leaf is a variable, a number, or an operator without operands. -/
def valueIn (I : Interpretation V) (σ : Store V) : Tree → V
  | leaf k v =>
    if k == "variable" then σ (valueText v)
    else if k == "number" then I.literal v
    else I.operation k []
  | branch k _ cs => I.operation k (valuesIn I σ cs)

/-- `valueIn` on a list of trees. -/
def valuesIn (I : Interpretation V) (σ : Store V) : List Tree → List V
  | [] => []
  | t :: ts => valueIn I σ t :: valuesIn I σ ts

end

/-- The expression of an assignment. -/
def rightSide (t : Tree) : Tree :=
  match t.children with
  | _ :: e :: _ => e
  | _ => t

/-- The names that an expression reads: its leaves that are variables. -/
def readNames (t : Tree) : List String :=
  (t.find fun u => u.isLeaf && u.isVariable).map name

/-- The names that an assignment reads. -/
def reads (t : Tree) : List String :=
  t.rightSide.readNames

/-- The store after an assignment. -/
def execute (I : Interpretation V) (σ : Store V) (t : Tree) : Store V :=
  Function.update σ t.targetName (t.rightSide.valueIn I σ)

/-- The assignments of a chip program in the order in which they are executed: line by line. -/
def statements (program : Tree) : List Tree :=
  program.children.flatMap children

/-- The store that a chip program leaves. -/
def run (I : Interpretation V) (σ : Store V) (program : Tree) : Store V :=
  program.statements.foldl (fun σ t => t.execute I σ) σ

/-! ## The trees that are chip programs -/

/-- Is the node a statement or a line of statements? -/
def isStatement (t : Tree) : Bool :=
  t.kind == "assignment" || t.kind == "line"

/-- An assignment: a variable, and an expression in which there are no statements. -/
structure IsChipAssignment (t : Tree) : Prop where
  kind_eq : t.kind = "assignment"
  parts : ∃ v e, t.children = [leaf "variable" v, e] ∧ e.find isStatement = []

/-- A line of assignments. -/
structure IsChipLine (t : Tree) : Prop where
  kind_eq : t.kind = "line"
  not_leaf : t.isLeaf = false
  assignments : ∀ a ∈ t.children, a.IsChipAssignment

/-- A chip program. -/
structure IsChip (program : Tree) : Prop where
  kind_eq : program.kind = "program"
  lines : ∀ l ∈ program.children, l.IsChipLine

/-- No name is assigned twice. -/
def AssignsOnce (program : Tree) : Prop :=
  (program.statements.map targetName).Nodup

instance (program : Tree) : Decidable program.AssignsOnce :=
  inferInstanceAs (Decidable (List.Nodup _))

/-! ## Values -/

theorem valuesIn_eq_map (I : Interpretation V) (σ : Store V) (ts : List Tree) :
    valuesIn I σ ts = ts.map (valueIn I σ) := by
  induction ts with
  | nil => rfl
  | cons t ts ih => rw [valuesIn, ih, List.map_cons]

theorem valueIn_branch (I : Interpretation V) (σ : Store V) (k : String) (v : Option Scalar)
    (cs : List Tree) :
    (branch k v cs).valueIn I σ = I.operation k (cs.map (valueIn I σ)) := by
  rw [valueIn, valuesIn_eq_map]

theorem readNames_leaf (k : String) (v : Option Scalar) :
    (leaf k v).readNames = if k == "variable" then [valueText v] else [] := by
  rw [readNames, find_leaf]
  show List.map name (if k == "variable" then _ else _) = _
  split <;> rfl

theorem readNames_branch (k : String) (v : Option Scalar) (cs : List Tree) :
    (branch k v cs).readNames = cs.flatMap readNames := by
  rw [readNames, find_branch]
  exact List.map_flatMap

theorem readNames_subset_variableNames (t : Tree) : t.readNames ⊆ t.variableNames := by
  induction t with
  | leaf k v => rw [readNames_leaf, variableNames_leaf]; exact List.Subset.refl _
  | branch k v cs ih =>
    intro x hx
    rw [readNames_branch] at hx
    obtain ⟨c, hc, hx⟩ := List.mem_flatMap.mp hx
    exact mem_variableNames_of_child hc (ih c hc hx)

/-- The value of an expression depends on the names that it reads only. -/
theorem valueIn_congr (I : Interpretation V) {σ τ : Store V} (t : Tree)
    (h : ∀ x ∈ t.readNames, σ x = τ x) : t.valueIn I σ = t.valueIn I τ := by
  induction t with
  | leaf k v =>
    rw [readNames_leaf] at h
    rw [valueIn, valueIn]
    by_cases hk : (k == "variable") = true
    · rw [if_pos hk] at h
      rw [if_pos hk, if_pos hk]
      exact h (valueText v) (List.mem_singleton_self _)
    · rw [if_neg hk, if_neg hk]
  | branch k v cs ih =>
    rw [valueIn_branch, valueIn_branch]
    congr 1
    refine List.map_congr_left fun c hc => ih c hc fun x hx => h x ?_
    rw [readNames_branch]
    exact List.mem_flatMap.mpr ⟨c, hc, hx⟩

/-! ## Running -/

theorem execute_same (I : Interpretation V) (σ : Store V) (t : Tree) :
    t.execute I σ t.targetName = t.rightSide.valueIn I σ :=
  Function.update_self ..

theorem execute_other (I : Interpretation V) (σ : Store V) (t : Tree) {x : String}
    (h : x ≠ t.targetName) : t.execute I σ x = σ x :=
  Function.update_of_ne h ..

/-- A name that no statement assigns keeps its value. -/
theorem foldl_execute_of_not_mem (I : Interpretation V) (ts : List Tree) (σ : Store V) {x : String}
    (h : x ∉ ts.map targetName) : ts.foldl (fun σ t => t.execute I σ) σ x = σ x := by
  induction ts generalizing σ with
  | nil => rfl
  | cons t ts ih =>
    rw [List.map_cons, List.mem_cons, not_or] at h
    rw [List.foldl_cons, ih _ h.2, execute_other I σ t h.1]

/-- No statement reads a name that it assigns itself or that a later one assigns. -/
def InOrder : List Tree → Prop
  | [] => True
  | t :: ts => (∀ a ∈ t :: ts, a.targetName ∉ t.reads) ∧ InOrder ts

theorem InOrder.append {ts ts' : List Tree} (h : ∀ t ∈ ts, ∀ a ∈ ts ++ ts', a.targetName ∉ t.reads)
    (h' : InOrder ts') : InOrder (ts ++ ts') := by
  induction ts with
  | nil => exact h'
  | cons t ts ih =>
    refine ⟨h t List.mem_cons_self, ih fun s hs a ha => ?_⟩
    exact h s (List.mem_cons_of_mem t hs) a (List.mem_cons_of_mem t ha)

/-- Statements in order that assign no name twice hold as equations in the store that they leave:
neither what a statement reads nor what it assigns is changed afterwards. -/
theorem foldl_execute_eq (I : Interpretation V) {ts : List Tree}
    (hnodup : (ts.map targetName).Nodup) (horder : InOrder ts) (σ : Store V) {t : Tree}
    (ht : t ∈ ts) : ts.foldl (fun σ t => t.execute I σ) σ t.targetName
      = t.rightSide.valueIn I (ts.foldl (fun σ t => t.execute I σ) σ) := by
  induction ts generalizing σ with
  | nil => cases ht
  | cons s ts ih =>
    have hrest := List.nodup_cons.mp hnodup
    rcases List.mem_cons.mp ht with rfl | ht
    · -- what the first statement reads has the same value in the end as now
      have hreads : ∀ x ∈ t.rightSide.readNames,
          σ x = (t :: ts).foldl (fun σ t => t.execute I σ) σ x := by
        intro x hx
        refine (foldl_execute_of_not_mem I (t :: ts) σ fun hmem => ?_).symm
        obtain ⟨a, ha, rfl⟩ := List.mem_map.mp hmem
        exact horder.1 a ha hx
      rw [← valueIn_congr I _ hreads, List.foldl_cons,
        foldl_execute_of_not_mem I ts _ hrest.1, execute_same]
    · exact ih hrest.2 horder.2 _ ht

/-! ## The statements of a chip program -/

/-- What an assignment assigns to has no statements in it, and neither has what it assigns. -/
theorem IsChipAssignment.find_child {a c : Tree} (h : a.IsChipAssignment) (hc : c ∈ a.children) :
    c.find isStatement = [] := by
  obtain ⟨v, e, hchildren, he⟩ := h.parts
  rw [hchildren] at hc
  rcases List.mem_cons.mp hc with rfl | hc
  · rfl
  · rw [List.mem_singleton.mp hc]
    exact he

theorem IsChipAssignment.find_assignments {a : Tree} (h : a.IsChipAssignment) :
    a.find isAssignment = [a] := by
  cases a with
  | leaf k v =>
    obtain ⟨w, e, hchildren, -⟩ := h.parts
    cases hchildren
  | branch k v cs =>
    have hroot : isAssignment (.branch k v cs) = true := by
      rw [isAssignment, h.kind_eq]
      rfl
    -- an assignment in an expression would be a statement in it
    have hbelow : cs.flatMap (find isAssignment) = [] := by
      rw [List.flatMap_eq_nil_iff]
      intro c hc
      refine find_eq_nil_of_imp (q := isStatement) ?_ c (h.find_child hc)
      intro t ht
      rw [isStatement, Bool.or_eq_true]
      exact .inl ht
    rw [find_branch, if_pos hroot, hbelow]
    rfl

theorem IsChipLine.find_assignments {l : Tree} (h : l.IsChipLine) :
    l.find isAssignment = l.children := by
  cases l with
  | leaf k v => cases h.not_leaf
  | branch k v cs =>
    have hroot : isAssignment (.branch k v cs) = false := by
      rw [isAssignment, h.kind_eq]
      rfl
    rw [find_branch, hroot]
    show cs.flatMap (find isAssignment) = cs
    calc cs.flatMap (find isAssignment)
        = cs.flatMap fun a => [a] :=
          List.flatMap_congr fun a ha => (h.assignments a ha).find_assignments
      _ = cs := List.flatMap_singleton' cs

/-- The assignments that are found anywhere in a chip program are those on its lines. -/
theorem IsChip.assignments_eq {program : Tree} (h : program.IsChip) :
    program.assignments = program.statements := by
  have hroot : isAssignment program = false := by
    rw [isAssignment, h.kind_eq]
    rfl
  have hlines : program.children.flatMap (find isAssignment) = program.children.flatMap children :=
    List.flatMap_congr fun l hl => (h.lines l hl).find_assignments
  cases program with
  | leaf k v => rw [assignments, find_leaf, hroot]; rfl
  | branch k v cs =>
    rw [assignments, find_branch, hroot]
    exact hlines

theorem IsChip.of_mem_statements {program a : Tree} (h : program.IsChip)
    (ha : a ∈ program.statements) : a.IsChipAssignment := by
  obtain ⟨l, hl, hal⟩ := List.mem_flatMap.mp ha
  exact (h.lines l hl).assignments a hal

theorem IsChipAssignment.parts_eq {a : Tree} (h : a.IsChipAssignment) :
    ∃ x, a.assignmentParts = .ok (x, a.rightSide) ∧ x.name = a.targetName := by
  obtain ⟨v, e, hchildren, -⟩ := h.parts
  refine ⟨.leaf "variable" v, ?_, ?_⟩
  · rw [assignmentParts, rightSide, hchildren]
  · rw [targetName, hchildren]

end Tree

end Scalarize
