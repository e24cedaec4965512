import Scalarize.Proofs.Elimination
import Scalarize.Proofs.Worklist

/-!
# Scalarize — which assignments are live

Dropping dead assignments is exact: what remains are the assignments of the names that the wanted
ones depend on, in their places. A name may be assigned many times; it depends on what its last
assignment reads. Dropping is done after one pass, although the pass changes the graph: a name that
is needed keeps all its assignments, hence also the last one, and a name that is not needed loses
its entry, which no path from a wanted name goes through.

* **`DependsOn`**, **`Needed`** — dependence between the names of a program.
* **`mem_reads_iff_dependsOn`** — the graph of a program.
* **`needed_keepWhere_iff`** — what is needed before and after.
* **`eliminateDead_exact`** — what remains, and that nothing more is dropped then.
-/

namespace Scalarize

open Relation

namespace Tree

/-! ## Dependence -/

/-- The last of the assignments to a name. -/
def lastAssignment? (ts : List Tree) (x : String) : Option Tree :=
  (ts.filter fun a => a.targetName == x).getLast?

/-- A name depends on those that its last assignment in the program reads. -/
def DependsOn (program : Tree) (x y : String) : Prop :=
  ∃ a, lastAssignment? program.statements x = some a ∧ y ∈ a.rightSide.variableNames

/-- A name is wanted, or a wanted name depends on it, directly or through other names. -/
def Needed (program : Tree) (keep : List String) (x : String) : Prop :=
  ∃ k ∈ keep, ReflTransGen program.DependsOn k x

theorem lastAssignment?_cons (t : Tree) (ts : List Tree) (x : String) :
    lastAssignment? (t :: ts) x =
      (lastAssignment? ts x).or (if t.targetName = x then some t else none) := by
  unfold lastAssignment?
  by_cases h : t.targetName = x
  · rw [if_pos h, List.filter_cons_of_pos (by simpa using h), List.getLast?_cons]
    cases (ts.filter fun a => a.targetName == x).getLast? <;> rfl
  · rw [if_neg h, List.filter_cons_of_neg (by simpa using h), Option.or_none]

/-- The entry of a name, after statements, is what its last assignment reads. -/
theorem lookup_addStatements (g : DependencyGraph) (ts : List Tree) (x : String) :
    (g.addStatements ts).lookup x =
      ((lastAssignment? ts x).map fun a => a.rightSide.variableNames.eraseDups).or
        (g.lookup x) := by
  induction ts generalizing g with
  | nil => rfl
  | cons t ts ih =>
    rw [DependencyGraph.addStatements_cons, ih, DependencyGraph.lookup_set, lastAssignment?_cons]
    by_cases h : x = t.targetName
    · rw [if_pos h, if_pos h.symm]
      cases lastAssignment? ts x <;> rfl
    · rw [if_neg h, if_neg (Ne.symm h), Option.or_none]

theorem mem_reads_iff_dependsOn {program : Tree} {x y : String} :
    y ∈ (DependencyGraph.addStatements [] program.statements).reads x
      ↔ program.DependsOn x y := by
  rw [DependencyGraph.mem_reads_iff, lookup_addStatements, List.lookup_nil, Option.or_none]
  constructor
  · rintro ⟨ds, hds, hy⟩
    obtain ⟨a, ha, rfl⟩ := Option.map_eq_some_iff.mp hds
    exact ⟨a, ha, List.mem_eraseDups.mp hy⟩
  · rintro ⟨a, ha, hy⟩
    exact ⟨_, Option.map_eq_some_iff.mpr ⟨a, ha, rfl⟩, List.mem_eraseDups.mpr hy⟩

theorem mem_alive_iff_needed {program : Tree} {keep : List String} {x : String} :
    x ∈ (DependencyGraph.addStatements [] program.statements).alive keep
      ↔ program.Needed keep x := by
  have hrelation : (fun y z => z ∈ (DependencyGraph.addStatements [] program.statements).reads y)
      = program.DependsOn := by
    funext y z
    exact propext mem_reads_iff_dependsOn
  rw [DependencyGraph.mem_alive_iff, hrelation]
  rfl

instance (program : Tree) (keep : List String) (x : String) : Decidable (program.Needed keep x) :=
  decidable_of_iff _ mem_alive_iff_needed

/-- Eliminating dead assignments keeps those whose names are needed. -/
theorem IsChip.eliminateDead_eq {program : Tree} (h : program.IsChip) (keep : List String) :
    program.eliminateDead keep
      = .ok (program.keepWhere fun a => program.Needed keep a.targetName) := by
  have hpredicate : (fun a : Tree =>
      ((DependencyGraph.addStatements [] program.statements).alive keep).contains a.targetName)
      = fun a : Tree => decide (program.Needed keep a.targetName) := by
    funext a
    rw [Bool.eq_iff_iff, List.contains_iff_mem, decide_eq_true_iff]
    exact mem_alive_iff_needed
  rw [eliminateDead, h.dependencies_eq, ← hpredicate]
  exact h.dropDead_eq _

/-! ## After the elimination -/

theorem keepOnLine_keepOnLine (p : Tree → Bool) (l : Tree) :
    keepOnLine p (keepOnLine p l) = keepOnLine p l := by
  cases l with
  | leaf k v => rfl
  | branch k v cs =>
    show branch k v ((cs.filter p).filter p) = branch k v (cs.filter p)
    rw [List.filter_filter]
    simp only [Bool.and_self]

/-- What has been kept is kept again. -/
theorem keepWhere_keepWhere (p : Tree → Bool) (program : Tree) :
    (program.keepWhere p).keepWhere p = program.keepWhere p := by
  cases program with
  | leaf k v => rfl
  | branch k v ls =>
    set ls' := (ls.map (keepOnLine p)).filter fun l => !l.children.isEmpty with hls'
    have hmap : ls'.map (keepOnLine p) = ls' := by
      refine (List.map_congr_left fun l hl => ?_).trans (List.map_id ls')
      obtain ⟨m, -, rfl⟩ := List.mem_map.mp (List.mem_of_mem_filter hl)
      exact keepOnLine_keepOnLine p m
    show branch k v ((ls'.map (keepOnLine p)).filter fun l => !l.children.isEmpty)
      = branch k v ls'
    rw [hmap, hls', List.filter_filter]
    simp only [Bool.and_self]

/-- Where a property of names decides which assignments are kept, a name keeps its last assignment
or has none. -/
theorem lastAssignment?_filter (p : String → Prop) [DecidablePred p] (ts : List Tree) (x : String) :
    lastAssignment? (ts.filter fun a => p a.targetName) x
      = if p x then lastAssignment? ts x else none := by
  unfold lastAssignment?
  rw [List.filter_filter]
  split
  · next hx =>
    congr 1
    refine List.filter_congr fun a _ => ?_
    by_cases ha : a.targetName = x
    · simp [ha, hx]
    · simp [ha]
  · next hx =>
    rw [List.getLast?_eq_none_iff, List.filter_eq_nil_iff]
    intro a _ ha
    rw [Bool.and_eq_true, beq_iff_eq, decide_eq_true_iff] at ha
    exact hx (ha.1 ▸ ha.2)

theorem dependsOn_keepWhere_iff {program : Tree} {p : String → Prop} [DecidablePred p]
    {x y : String} :
    (program.keepWhere fun a => p a.targetName).DependsOn x y ↔ p x ∧ program.DependsOn x y := by
  unfold DependsOn
  rw [statements_keepWhere, lastAssignment?_filter]
  by_cases hx : p x <;> simp [hx]

/-- The elimination leaves the needed names as they are. -/
theorem needed_keepWhere_iff {program : Tree} {keep : List String} {x : String} :
    (program.keepWhere fun a => program.Needed keep a.targetName).Needed keep x
      ↔ program.Needed keep x := by
  constructor
  · rintro ⟨k, hk, hpath⟩
    refine ⟨k, hk, ReflTransGen.mono (fun y z hyz => ?_) k x hpath⟩
    exact ((dependsOn_keepWhere_iff (p := program.Needed keep)).mp hyz).2
  · rintro ⟨k, hk, hpath⟩
    -- every name on the way from a wanted name is needed itself
    refine ⟨k, hk, ?_⟩
    induction hpath with
    | refl => exact .refl
    | @tail y z hy hyz ih =>
      exact ih.tail ((dependsOn_keepWhere_iff (p := program.Needed keep)).mpr ⟨⟨k, hk, hy⟩, hyz⟩)

/-- Eliminating dead assignments leaves exactly the assignments of the names that are reached from
the wanted ones, in their order and on their lines, without the lines on which none is left. A
second elimination with the same wanted names changes nothing. -/
theorem eliminateDead_exact {program : Tree} (h : program.IsChip) (keep : List String) :
    ∃ kept, program.eliminateDead keep = .ok kept ∧
      kept = program.keepWhere (fun a => program.Needed keep a.targetName) ∧
      kept.eliminateDead keep = .ok kept := by
  refine ⟨_, h.eliminateDead_eq keep, rfl, ?_⟩
  rw [(h.keepWhere _).eliminateDead_eq keep]
  simp only [needed_keepWhere_iff]
  rw [keepWhere_keepWhere]

/-- A chip program in which `x` is assigned twice. Its last assignment reads `b`, which reads `x`
again; the name `a` is read by the first one only. -/
def reassigningChip : Tree :=
  let assign (x : String) (e : Tree) := node "assignment" [variableNamed x, e]
  node "program" [
    node "line" [assign "x" (variableNamed "a"), assign "a" (numberOf (.int 1))],
    node "line" [assign "d" (variableNamed "x")],
    node "line" [assign "x" (variableNamed "b"), assign "b" (variableNamed "x")]]

theorem reassigningChip_isChip : reassigningChip.IsChip := by
  have hassign : ∀ x e, e.find isStatement = [] →
      (node "assignment" [variableNamed x, e]).IsChipAssignment :=
    fun x e he => ⟨rfl, _, e, rfl, he⟩
  refine ⟨rfl, fun l hl => ⟨?_, ?_, fun a ha => ?_⟩⟩ <;>
    simp only [reassigningChip, node, children, List.mem_cons, List.not_mem_nil, or_false] at hl
  · rcases hl with rfl | rfl | rfl <;> rfl
  · rcases hl with rfl | rfl | rfl <;> rfl
  · rcases hl with rfl | rfl | rfl <;>
      simp only [children, List.mem_cons, List.not_mem_nil, or_false] at ha <;>
      rcases ha with rfl | rfl <;> exact hassign _ _ rfl

theorem eliminateDead_exact_reassigningChip :
    reassigningChip.IsChip ∧
      ∃ kept, reassigningChip.eliminateDead ["x"] = .ok kept ∧
        kept = reassigningChip.keepWhere (fun a => reassigningChip.Needed ["x"] a.targetName) ∧
        kept.eliminateDead ["x"] = .ok kept :=
  ⟨reassigningChip_isChip, eliminateDead_exact reassigningChip_isChip ["x"]⟩

end Tree

end Scalarize
