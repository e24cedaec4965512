import Mathlib
import Scalarize.Tree.Basic

/-!
# Scalarize — searching in trees

An induction principle for trees, and what the functions that go through a whole tree do at a leaf
and at a branch. Lists of trees are handled by `flatMap` and `map` everywhere, so no later proof has
to look at the functions on lists.
-/

namespace Scalarize

namespace Tree

/-- Induction on a tree: a branch may use the statement for all its children. -/
@[elab_as_elim, induction_eliminator]
theorem induction {motive : Tree → Prop} (leaf : ∀ k v, motive (leaf k v))
    (branch : ∀ k v cs, (∀ c ∈ cs, motive c) → motive (branch k v cs)) (t : Tree) : motive t := by
  -- the second motive is for the lists of children
  refine @Tree.rec motive (fun cs => ∀ c ∈ cs, motive c) leaf branch ?_ ?_ t
  · intro c hc
    cases hc
  · intro t ts ht hts c hc
    rcases List.mem_cons.mp hc with rfl | h
    · exact ht
    · exact hts c h

/-! ## Searching -/

theorem findAll_eq_flatMap (p : Tree → Bool) (ts : List Tree) :
    findAll p ts = ts.flatMap (find p) := by
  induction ts with
  | nil => rfl
  | cons t ts ih => rw [findAll, ih, List.flatMap_cons]

theorem find_leaf (p : Tree → Bool) (k : String) (v : Option Scalar) :
    (leaf k v).find p = if p (leaf k v) then [leaf k v] else [] := by
  rw [find]

theorem find_branch (p : Tree → Bool) (k : String) (v : Option Scalar) (cs : List Tree) :
    (branch k v cs).find p
      = (if p (branch k v cs) then [branch k v cs] else []) ++ cs.flatMap (find p) := by
  rw [find, findAll_eq_flatMap]
  split <;> simp

/-- What a weaker predicate does not find, a stronger one does not find either. -/
theorem find_eq_nil_of_imp {p q : Tree → Bool} (hpq : ∀ t, p t = true → q t = true) (t : Tree)
    (h : t.find q = []) : t.find p = [] := by
  induction t with
  | leaf k v =>
    rw [find_leaf] at h ⊢
    by_cases hp : p (.leaf k v) = true
    · rw [if_pos (hpq _ hp)] at h
      cases h
    · rw [if_neg hp]
  | branch k v cs ih =>
    rw [find_branch, List.append_eq_nil_iff] at h ⊢
    obtain ⟨hroot, hbelow⟩ := h
    refine ⟨?_, ?_⟩
    · by_cases hp : p (.branch k v cs) = true
      · rw [if_pos (hpq _ hp)] at hroot
        cases hroot
      · rw [if_neg hp]
    · rw [List.flatMap_eq_nil_iff] at hbelow ⊢
      intro c hc
      exact ih c hc (hbelow c hc)

/-- Where nothing is found, nothing is found below a child. -/
theorem find_child_eq_nil {p : Tree → Bool} {t c : Tree} (h : t.find p = [])
    (hc : c ∈ t.children) : c.find p = [] := by
  cases t with
  | leaf k v => cases hc
  | branch k v cs =>
    rw [find_branch, List.append_eq_nil_iff, List.flatMap_eq_nil_iff] at h
    exact h.2 c hc

/-- Where nothing is found, the root does not satisfy the predicate. -/
theorem not_of_find_eq_nil {p : Tree → Bool} {t : Tree} (h : t.find p = []) : p t = false := by
  cases t with
  | leaf k v =>
    rw [find_leaf] at h
    by_contra hp
    rw [if_pos (by simpa using hp)] at h
    cases h
  | branch k v cs =>
    rw [find_branch, List.append_eq_nil_iff] at h
    by_contra hp
    rw [if_pos (by simpa using hp)] at h
    cases h.1

theorem self_mem_find {p : Tree → Bool} {t : Tree} (h : p t = true) : t ∈ t.find p := by
  cases t with
  | leaf k v => rw [find_leaf, if_pos h]; exact List.mem_singleton_self _
  | branch k v cs =>
    rw [find_branch, if_pos h]
    exact List.mem_append_left _ (List.mem_singleton_self _)

theorem mem_find_of_child {p : Tree → Bool} {t c u : Tree} (hc : c ∈ t.children)
    (hu : u ∈ c.find p) : u ∈ t.find p := by
  cases t with
  | leaf k v => cases hc
  | branch k v cs =>
    rw [find_branch]
    exact List.mem_append_right _ (List.mem_flatMap.mpr ⟨c, hc, hu⟩)

/-! ## The variables of a tree -/

theorem variableNames_leaf (k : String) (v : Option Scalar) :
    (leaf k v).variableNames = if k == "variable" then [valueText v] else [] := by
  rw [variableNames, variableNodes, find_leaf]
  show List.map name (if k == "variable" then _ else _) = _
  split <;> rfl

theorem variableNames_branch (k : String) (v : Option Scalar) (cs : List Tree) :
    (branch k v cs).variableNames
      = (if k == "variable" then [valueText v] else []) ++ cs.flatMap variableNames := by
  rw [variableNames, variableNodes, find_branch, List.map_append, List.map_flatMap]
  congr 1
  show List.map name (if k == "variable" then _ else _) = _
  split <;> rfl

theorem mem_variableNames_of_child {t c : Tree} {x : String} (hc : c ∈ t.children)
    (hx : x ∈ c.variableNames) : x ∈ t.variableNames := by
  cases t with
  | leaf k v => cases hc
  | branch k v cs =>
    rw [variableNames_branch]
    exact List.mem_append_right _ (List.mem_flatMap.mpr ⟨c, hc, hx⟩)

/-! ## The size of a tree -/

theorem size_branch (k : String) (v : Option Scalar) (cs : List Tree) :
    (branch k v cs).size = 1 + (cs.map size).sum := by
  have hall : ∀ ts : List Tree, sizeAll ts = (ts.map size).sum := by
    intro ts
    induction ts with
    | nil => rfl
    | cons t ts ih => rw [sizeAll, ih, List.map_cons, List.sum_cons]
  rw [size, hall]

theorem sum_size_children_le (t : Tree) : (t.children.map size).sum ≤ t.size := by
  cases t with
  | leaf k v => exact Nat.zero_le _
  | branch k v cs =>
    rw [size_branch]
    exact Nat.le_add_left ..

theorem size_lt_of_mem_children {t c : Tree} (hc : c ∈ t.children) : c.size < t.size := by
  cases t with
  | leaf k v => cases hc
  | branch k v cs =>
    have hle : c.size ≤ (cs.map size).sum := List.le_sum_of_mem (List.mem_map_of_mem hc)
    rw [size_branch]
    omega

theorem size_pos (t : Tree) : 0 < t.size := by
  cases t with
  | leaf k v => exact Nat.one_pos
  | branch k v cs =>
    rw [size_branch]
    omega

end Tree

end Scalarize
