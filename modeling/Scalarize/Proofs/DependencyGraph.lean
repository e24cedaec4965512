import Scalarize.Proofs.ChipSemantics

/-!
# Scalarize — what live names depend on

* **`dependencies_eq`** — the graph of a chip program is built from its statements, the last
  assignment of a name deciding what it depends on.
* **`DependencyGraph.alive_closed`** — the live names are closed under the graph: what a live name
  depends on is alive. The worklist forgets the entries of the names it has visited, so the closure
  is stated for the names that were not yet known when the work began.
-/

namespace Scalarize

namespace DependencyGraph

/-! ## Entries -/

theorem lookup_set (g : DependencyGraph) (n x : String) (ds : List String) :
    (g.set n ds).lookup x = if x = n then some ds else g.lookup x := by
  induction g with
  | nil =>
    rw [set, List.lookup_cons]
    by_cases h : x = n
    · rw [if_pos h, h, beq_self_eq_true]
    · rw [if_neg h, beq_eq_false_iff_ne.mpr h]
  | cons e rest ih =>
    obtain ⟨m, es⟩ := e
    rw [set]
    by_cases hm : m = n
    · -- the entry is there and is overwritten
      rw [hm, beq_self_eq_true, if_pos rfl, List.lookup_cons, List.lookup_cons]
      by_cases h : x = n
      · rw [if_pos h, h, beq_self_eq_true]
      · rw [if_neg h, beq_eq_false_iff_ne.mpr h]
    · -- the entry belongs to another name and is passed over
      rw [beq_eq_false_iff_ne.mpr hm, List.lookup_cons]
      simp only [Bool.false_eq_true, if_false, List.lookup_cons]
      by_cases h : x = m
      · have hne : x ≠ n := by rwa [h]
        rw [h, beq_self_eq_true, if_neg (by rwa [h] at hne)]
      · rw [beq_eq_false_iff_ne.mpr h]
        exact ih

theorem reads_set (g : DependencyGraph) (n x : String) (ds : List String) :
    (g.set n ds).reads x = if x = n then ds else g.reads x := by
  rw [reads, lookup_set]
  split
  · rfl
  · rfl

theorem reads_without (g : DependencyGraph) {x y : String} (h : y ≠ x) :
    (g.without x).reads y = g.reads y := by
  rw [reads, reads]
  congr 1
  induction g with
  | nil => rfl
  | cons e rest ih =>
    obtain ⟨n, ds⟩ := e
    rw [without] at ih ⊢
    by_cases hx : x = n
    · rw [List.filter_cons, hx, beq_self_eq_true, List.lookup_cons,
        beq_eq_false_iff_ne.mpr (hx ▸ h)]
      rw [hx] at ih
      exact ih
    · rw [List.filter_cons, beq_eq_false_iff_ne.mpr hx]
      simp only [Bool.not_false, if_true, List.lookup_cons]
      cases y == n with
      | true => rfl
      | false => exact ih

/-! ## The worklist -/

/-- What is known stays known. -/
theorem subset_reachable_known (g : DependencyGraph) (queue known : List String) :
    known ⊆ g.reachable queue known := by
  fun_induction reachable g queue known with
  | case1 g known => exact List.Subset.refl known
  | case2 g known x rest hx ih => exact ih
  | case3 g known x rest hx ih => exact fun y hy => ih (List.mem_append_left _ hy)

/-- Every name of the queue is visited. -/
theorem subset_reachable_queue (g : DependencyGraph) (queue known : List String) :
    queue ⊆ g.reachable queue known := by
  fun_induction reachable g queue known with
  | case1 g known => exact List.nil_subset _
  | case2 g known x rest hx ih =>
    refine List.cons_subset.mpr ⟨?_, ih⟩
    exact subset_reachable_known g rest known (List.contains_iff_mem.mp hx)
  | case3 g known x rest hx ih =>
    refine List.cons_subset.mpr ⟨?_, fun y hy => ih (List.mem_append_right _ hy)⟩
    exact subset_reachable_known _ _ _ (List.mem_append_right _ (List.mem_singleton_self x))

/-- What a newly visited name depends on is visited too. -/
theorem reachable_closed (g : DependencyGraph) (queue known : List String) {x : String}
    (hx : x ∈ g.reachable queue known) (hnew : x ∉ known) :
    g.reads x ⊆ g.reachable queue known := by
  fun_induction reachable g queue known with
  | case1 g known => exact absurd hx hnew
  | case2 g known y rest hy ih => exact ih hx hnew
  | case3 g known y rest hy ih =>
    by_cases hxy : x = y
    · -- the name is visited now, and its dependencies enter the queue
      subst hxy
      intro z hz
      exact subset_reachable_queue _ _ _ (List.mem_append_left _ hz)
    · -- the name is visited later; its entry is still in the graph
      have hnew' : x ∉ known ++ [y] := by
        rw [List.mem_append, List.mem_singleton]
        rintro (h | h)
        · exact hnew h
        · exact hxy h
      rw [← reads_without g hxy]
      exact ih hx hnew'

theorem subset_alive (g : DependencyGraph) (keep : List String) : keep ⊆ g.alive keep :=
  subset_reachable_queue g keep []

/-- The live names are closed under the graph. -/
theorem alive_closed (g : DependencyGraph) (keep : List String) {x : String}
    (hx : x ∈ g.alive keep) : g.reads x ⊆ g.alive keep :=
  reachable_closed g keep [] hx List.not_mem_nil

/-! ## The graph of a chip program -/

/-- The graph after statements, from the one before them. -/
def addStatements (g : DependencyGraph) (ts : List Tree) : DependencyGraph :=
  ts.foldl (fun g t => g.set t.targetName t.rightSide.variableNames.eraseDups) g

theorem addStatements_cons (g : DependencyGraph) (t : Tree) (ts : List Tree) :
    g.addStatements (t :: ts) =
      (g.set t.targetName t.rightSide.variableNames.eraseDups).addStatements ts :=
  rfl

/-- A name that the statements do not assign keeps its entry. -/
theorem reads_addStatements_of_not_mem (g : DependencyGraph) (ts : List Tree) {x : String}
    (h : x ∉ ts.map Tree.targetName) : (g.addStatements ts).reads x = g.reads x := by
  induction ts generalizing g with
  | nil => rfl
  | cons t ts ih =>
    rw [List.map_cons, List.mem_cons, not_or] at h
    rw [addStatements_cons, ih _ h.2, reads_set, if_neg h.1]

/-- Where no name is assigned twice, a name depends on what its assignment reads. -/
theorem mem_reads_addStatements {g : DependencyGraph} {ts : List Tree} {t : Tree} {y : String}
    (honce : (ts.map Tree.targetName).Nodup) (ht : t ∈ ts) (hy : y ∈ t.rightSide.variableNames) :
    y ∈ (g.addStatements ts).reads t.targetName := by
  induction ts generalizing g with
  | nil => cases ht
  | cons a ts ih =>
    rw [List.map_cons, List.nodup_cons] at honce
    rw [addStatements_cons]
    rcases List.mem_cons.mp ht with rfl | ht
    · rw [reads_addStatements_of_not_mem _ ts honce.1, reads_set, if_pos rfl]
      exact List.mem_eraseDups.mpr hy
    · exact ih honce.2 ht

end DependencyGraph

/-- The graph of a chip program is built from its statements in their order. -/
theorem Tree.IsChip.dependencies_eq {program : Tree} (h : program.IsChip) :
    program.dependencies = .ok (DependencyGraph.addStatements [] program.statements) := by
  have hkind : (program.kind != "program") = false := by rw [h.kind_eq]; rfl
  rw [dependencies, hkind, h.assignments_eq]
  have hparts : ∀ t ∈ program.statements, t.IsChipAssignment := fun t => h.of_mem_statements
  generalize program.statements = ts at hparts
  -- the loop adds its statements to any graph, not only to the empty one
  generalize ([] : DependencyGraph) = g
  show ts.foldlM _ g = _
  induction ts generalizing g with
  | nil => rfl
  | cons t ts ih =>
    obtain ⟨x, hpair, hx⟩ := (hparts t List.mem_cons_self).parts_eq
    rw [List.foldlM_cons, hpair]
    show ts.foldlM _ (DependencyGraph.set x.name t.rightSide.variableNames.eraseDups g) = _
    rw [hx, ih (fun a ha => hparts a (List.mem_cons_of_mem t ha))]
    rfl

end Scalarize
