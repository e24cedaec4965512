import Scalarize.Proofs.Statements
import Scalarize.Proofs.ValueNames

/-!
# Scalarize — single assignment

Chip programs that come out of lowering assign each name once and use a name only after the line
that assigns it. Two facts carry this along a run. An index is used for one variable only, so the
names of a new variable differ from all names before it. And what the environment keeps of a
variable is nothing but names that its line has assigned.

* **`Lowers.targets`** — the names assigned by a run are those of different components.
* **`Lowers.forall₂_lines`** — each `let` gives one line, with as many assignments as its value has
  parts.
* **`Lowers.reads`** — a line reads names of earlier lines and names of externals.
-/

namespace Scalarize

/-! ## One assignment line -/

theorem Num.targetName_assignTo (x : Num) (n : String) : (x.assignTo n).targetName = n :=
  rfl

theorem Value.targets_assign (index : Nat) (v : Value) :
    (v.assign index).1.map Tree.targetName = (v.components index).map Component.name := by
  rw [assign_fst, List.map_zipWith]
  have hlen : (v.components index).length = v.parts.length := by
    rw [length_components, length_parts]
  refine List.ext_getElem (by simp [hlen]) fun i h₁ h₂ => ?_
  simp [Num.targetName_assignTo]

theorem Value.mem_assign {index : Nat} {v : Value} {a : Tree} (h : a ∈ (v.assign index).1) :
    ∃ n, ∃ x ∈ v.parts, a = x.assignTo n := by
  rw [assign_fst] at h
  obtain ⟨i, hi, rfl⟩ := List.getElem_of_mem h
  rw [List.length_zipWith] at hi
  exact ⟨_, v.parts[i], List.getElem_mem _, List.getElem_zipWith⟩

theorem Value.length_assign (index : Nat) (v : Value) :
    (v.assign index).1.length = v.componentCount := by
  rw [assign_fst, List.length_zipWith, length_components, length_parts, Nat.min_self]

/-- The assignments of a value read the names in it. -/
theorem Value.Within.of_reads {p : String → Prop} {index : Nat} {v : Value} {a : Tree} {x : String}
    (h : v.Within p) (ha : a ∈ (v.assign index).1) (hx : x ∈ a.reads) : p x := by
  obtain ⟨n, y, hy, rfl⟩ := Value.mem_assign ha
  exact Num.within_iff.mp (Value.within_iff.mp h y hy) x hx

/-- What is kept of an assigned value has the names of its components in it. -/
theorem Value.within_assign {p : String → Prop} {index : Nat} {v : Value}
    (h : ∀ c ∈ v.components index, p c.name) : (v.assign index).2.Within p := by
  rw [within_iff, parts_assign]
  intro y hy
  obtain ⟨c, hc, rfl⟩ := List.mem_map.mp hy
  exact h c hc

theorem Env.nextIndex_of_bind {env env' : Env} {name : String} {v : Value}
    {statements : List Tree} (h : env.bind name v = .ok (env', statements)) (s : ValueSort) :
    env'.nextIndex s = env.nextIndex s + if s = v.sort then 1 else 0 := by
  rw [(Env.bind_eq_ok.mp h).2.2.1]
  cases v.sort <;> cases s <;> rfl

theorem Env.binding_of_bind {env env' : Env} {name : String} {v : Value}
    {statements : List Tree} (h : env.bind name v = .ok (env', statements)) :
    env'.binding? name
      = some ⟨name, (v.assign (env.nextIndex v.sort)).2, env.nextIndex v.sort⟩ := by
  have hnone := (Env.bind_eq_ok.mp h).1
  rw [Env.binding?] at hnone
  rw [Env.binding?, Env.bindings_of_bind h, List.find?_append, hnone]
  simp

/-! ## Runs -/

namespace Lowers

variable {env env' : Env} {ls : List SourceLet} {lines : List Tree}

/-- The names that a run assigns are those of different components, and none of their indices has
been used before. -/
theorem targets (h : Lowers env ls env' lines) :
    ∃ cs : List Component, (lines.flatMap Tree.children).map Tree.targetName
        = cs.map Component.name ∧ cs.Nodup ∧ ∀ c ∈ cs, env.nextIndex c.sort ≤ c.index := by
  induction h with
  | done => exact ⟨[], rfl, List.nodup_nil, fun c hc => by cases hc⟩
  | declare hd _ ih =>
    obtain ⟨cs, htargets, hnodup, hindex⟩ := ih
    refine ⟨cs, htargets, hnodup, fun c hc => ?_⟩
    rw [← hd.nextIndex_eq]
    exact hindex c hc
  | @bind env env₁ env' v statements ls lines l hsort hv hbind _ ih =>
    obtain ⟨cs, htargets, hnodup, hindex⟩ := ih
    obtain rfl := Env.statements_of_bind hbind
    have hnext := Env.nextIndex_of_bind hbind
    refine ⟨v.components (env.nextIndex v.sort) ++ cs, ?_, ?_, ?_⟩
    · rw [List.flatMap_cons, List.map_append, htargets, List.map_append, ← Value.targets_assign]
      rfl
    · refine (v.nodup_components _).append hnodup fun c hc hc' => ?_
      obtain ⟨hs, hi⟩ := Value.of_mem_components hc
      have hle := hindex c hc'
      rw [hnext, if_pos hs, hi, hs] at hle
      omega
    · intro c hc
      rcases List.mem_append.mp hc with hc | hc
      · obtain ⟨hs, hi⟩ := Value.of_mem_components hc
        rw [hs, hi]
      · have hle := hindex c hc
        rw [hnext] at hle
        omega

/-- A run assigns no name twice. -/
theorem nodup_targets (h : Lowers env ls env' lines) :
    ((lines.flatMap Tree.children).map Tree.targetName).Nodup := by
  obtain ⟨cs, htargets, hnodup, -⟩ := h.targets
  rw [htargets]
  exact hnodup.map Component.name_injective

/-- Each `let` gives one line, which assigns the parts of its value. -/
theorem forall₂_lines (h : Lowers env ls env' lines) :
    List.Forall₂ (fun l line => ∃ (index : Nat) (v : Value), v.sort = l.sort ∧
        env'.binding? l.name = some ⟨l.name, (v.assign index).2, index⟩ ∧
        line = .node "line" (v.assign index).1) ls lines := by
  induction h with
  | done => exact .nil
  | declare _ _ ih => exact ih
  | bind hsort hv hbind rest ih =>
    refine .cons ⟨_, _, hsort, rest.binding_eq (Env.binding_of_bind hbind), ?_⟩ ih
    rw [Env.statements_of_bind hbind]

theorem line_eq (h : Lowers env ls env' lines) {line : Tree} (hline : line ∈ lines) :
    ∃ index v, line = .node "line" (Value.assign index v).1 := by
  obtain ⟨i, hi, rfl⟩ := List.getElem_of_mem hline
  have hi' : i < ls.length := by rw [h.forall₂_lines.length_eq]; exact hi
  obtain ⟨index, v, -, -, heq⟩ := h.forall₂_lines.get hi' hi
  exact ⟨index, v, heq⟩

/-- What a line reads was known before the run, is assigned on an earlier line, or is the name of an
external. The induction adds the names of the first line to those known before. -/
theorem reads (h : Lowers env ls env' lines) {known : String → Prop}
    (hknown : ∀ b ∈ env.bindings, b.value.Within known) {i : Nat} {l : SourceLet} {line a : Tree}
    {x : String} (hl : ls[i]? = some l) (hline : lines[i]? = some line) (ha : a ∈ line.children)
    (hx : x ∈ a.reads) :
    known x ∨ (∃ earlier ∈ lines.take i, x ∈ earlier.children.map Tree.targetName) ∨
      ∃ u, Occurs env'.macros l.expr u ∧ u.kind = "external" ∧ u.name = x := by
  induction h generalizing i known with
  | done => cases hl
  | declare hd _ ih =>
    rw [← hd.bindings_eq] at hknown
    exact ih hknown hl hline
  | @bind env env₁ env' v statements ls lines l₀ hsort hv hbind rest ih =>
    have hextends := (Lowers.bind hsort hv hbind rest).extends_macros
    obtain rfl := Env.statements_of_bind hbind
    cases i with
    | zero =>
      cases hl
      cases hline
      have hwithin : v.Within fun n => known n ∨
          ∃ u, Occurs env'.macros l.expr u ∧ u.kind = "external" ∧ u.name = n :=
        hv.within (fun b hb => (hknown b hb).imp fun n hn => .inl hn)
          fun u hu hkind => .inr ⟨u, hu.of_extends hextends, hkind, rfl⟩
      exact (hwithin.of_reads ha hx).imp_right .inr
    | succ i =>
      -- the rest of the run knows the names of this line too
      have hknown₁ : ∀ b ∈ env₁.bindings, b.value.Within fun n =>
          known n ∨ n ∈ (v.assign (env.nextIndex v.sort)).1.map Tree.targetName := by
        rw [Env.bindings_of_bind hbind, Value.targets_assign]
        intro b hb
        rcases List.mem_append.mp hb with hb | hb
        · exact (hknown b hb).imp fun n hn => .inl hn
        · rw [List.mem_singleton.mp hb]
          exact Value.within_assign fun c hc => .inr (List.mem_map_of_mem hc)
      rcases ih hknown₁ hl hline with (hk | htarget) | ⟨earlier, hearlier, hmem⟩ | hext
      · exact .inl hk
      · exact .inr (.inl ⟨_, List.mem_cons_self, htarget⟩)
      · exact .inr (.inl ⟨earlier, List.mem_cons_of_mem _ hearlier, hmem⟩)
      · exact .inr (.inr hext)

end Lowers

/-! ## Programs -/

/-- The line of a `let` statement: one assignment for each part of the value of the variable. -/
structure LetLine (env : Env) (l : SourceLet) (line : Tree) : Prop where
  kind_eq : line.kind = "line"
  assignments : ∀ a ∈ line.children, ∃ x e, a = .node "assignment" [.variableNamed x, e]
  count : ∃ b, env.binding? l.name = some b ∧ b.value.sort = l.sort ∧
    line.children.length = b.value.componentCount

theorem LetLine.of_assign {env : Env} {l : SourceLet} {index : Nat} {v : Value}
    (hsort : v.sort = l.sort)
    (hb : env.binding? l.name = some ⟨l.name, (v.assign index).2, index⟩) :
    LetLine env l (.node "line" (v.assign index).1) := by
  refine ⟨rfl, fun a ha => ?_, _, hb, ?_, ?_⟩
  · obtain ⟨n, x, -, rfl⟩ := Value.mem_assign ha
    exact ⟨n, x.toTree, rfl⟩
  · exact (v.sort_assign index).trans hsort
  · exact (v.length_assign index).trans (v.componentCount_assign index).symm

theorem children_chipProgram (lines : List Tree) : (chipProgram lines).children = lines := by
  cases lines <;> rfl

theorem statements_chipProgram (lines : List Tree) :
    (chipProgram lines).statements = lines.flatMap Tree.children := by
  rw [Tree.statements, children_chipProgram]

/-- Chip programs in the form that lowering gives them. -/
structure SingleAssignment (macros : Macros) (lets : List SourceLet) (env : Env) (chip : Tree) :
    Prop where
  once : chip.AssignsOnce
  lines : List.Forall₂ (LetLine env) lets chip.children
  reads : ∀ i l line, lets[i]? = some l → chip.children[i]? = some line →
    ∀ a ∈ line.children, ∀ x ∈ a.reads,
      (∃ earlier ∈ chip.children.take i, x ∈ earlier.children.map Tree.targetName) ∨
      ∃ u, Occurs macros l.expr u ∧ u.kind = "external" ∧ u.name = x

end Scalarize
