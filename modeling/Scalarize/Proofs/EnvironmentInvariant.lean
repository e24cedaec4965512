import Scalarize.Proofs.SingleAssignment

/-!
# Scalarize — what holds of every environment

Each operation on the environment looks at some of what is there and not at the rest. What they keep
together, along every sequence of them, is `Env.Consistent`: one lemma for each operation, and an
induction on the sequence.

* **`Env.Reachable`** — environments that sequences of operations lead to.
* **`Env.Reachable.consistent`** — names and targets differ, exports are defined, indices count up
  in the order of definition, and what is kept of a variable is its generated names.
* **`Lowers.reachable`** — lowering goes through such environments only.
-/

namespace Scalarize

/-- The value consists of names alone, each number being the name that is generated for its place in
the variable of the given index. -/
def Value.IsReference (index : Nat) : Value → Prop
  | .number x => x = .name (numName index)
  | .vector v => ∀ i (x : Num), v.elems[i]? = some x → x = .name (vecName index i)
  | .matrix m => ∀ i (v : Vec), m.rows[i]? = some v →
      ∀ j (x : Num), v.elems[j]? = some x → x = .name (matName index i j)

/-- What is kept of an assigned value is a reference. -/
theorem Value.isReference_assign (index : Nat) (v : Value) :
    (v.assign index).2.IsReference index := by
  cases v with
  | number x => rfl
  | vector v =>
    intro i x hx
    obtain ⟨_, -, rfl⟩ := Option.map_eq_some_iff.mp (List.getElem?_mapIdx.symm.trans hx)
    rfl
  | matrix m =>
    intro i v hv j x hx
    obtain ⟨i', hi', rfl⟩ := Option.map_eq_some_iff.mp (List.getElem?_map.symm.trans hv)
    obtain ⟨j', hj', rfl⟩ := Option.map_eq_some_iff.mp (List.getElem?_map.symm.trans hx)
    obtain rfl : i = i' := by simpa using (List.getElem?_eq_some_iff.mp hi').2
    obtain rfl : j = j' := by simpa using (List.getElem?_eq_some_iff.mp hj').2
    rfl

namespace Env

/-- Environments that sequences of operations lead to from the empty one. -/
inductive Reachable : Env → Prop where
  | empty : Reachable .empty
  | bind {env env' name v statements} (h : Reachable env)
      (hbind : env.bind name v = .ok (env', statements)) : Reachable env'
  | define {env env' name m} (h : Reachable env) (hdefine : env.define name m = .ok env') :
      Reachable env'
  | addImport {env env' name target} (h : Reachable env)
      (hadd : env.addImport name target = .ok env') : Reachable env'
  | addExport {env env' name target} (h : Reachable env)
      (hadd : env.addExport name target = .ok env') : Reachable env'

/-- The variables of a sort, in the order of definition. -/
def bindingsOf (env : Env) (s : ValueSort) : List Binding :=
  env.bindings.filter fun b => b.value.sort = s

/-- What the operations keep. -/
structure Consistent (env : Env) : Prop where
  /-- No two variables or macros have one name, and no variable has the name of a macro. -/
  names : (env.bindings.map Binding.name ++ env.macros.map Prod.fst).Nodup
  targets : (env.importTargets ++ env.exportTargets).Nodup
  exported : ∀ e ∈ env.exports, ∃ b ∈ env.bindings, b.name = e.1
  /-- The variables of a sort have the indices below the next one, in order. -/
  indices : ∀ s, (env.bindingsOf s).map Binding.index = List.range (env.nextIndex s)
  references : ∀ b ∈ env.bindings, b.value.IsReference b.index

theorem name_mem_of_binding? {env : Env} {name : String} {b : Binding}
    (h : env.binding? name = some b) : b ∈ env.bindings ∧ b.name = name :=
  ⟨List.mem_of_find?_eq_some h, by simpa using List.find?_some h⟩

theorem not_mem_names {env : Env} {name : String} (hb : env.binding? name = none)
    (hm : env.findMacro? name = none) :
    name ∉ env.bindings.map Binding.name ++ env.macros.map Prod.fst := by
  intro h
  rcases List.mem_append.mp h with h | h
  · obtain ⟨b, hmem, rfl⟩ := List.mem_map.mp h
    exact absurd (List.find?_eq_none.mp hb b hmem) (by simp)
  · obtain ⟨p, hmem, rfl⟩ := List.mem_map.mp h
    exact absurd (List.lookup_eq_none_iff.mp hm p hmem) (by simp)

namespace Consistent

variable {env env' : Env} {name target : String}

theorem empty : Consistent .empty where
  names := List.nodup_nil
  targets := List.nodup_nil
  exported := fun _ he => by cases he
  indices := fun s => by cases s <;> rfl
  references := fun _ hb => by cases hb

theorem addImport (h : env.Consistent) (hadd : env.addImport name target = .ok env') :
    env'.Consistent := by
  obtain ⟨-, himport, hexport, rfl⟩ := addImport_eq_ok.mp hadd
  refine ⟨h.names, ?_, h.exported, fun s => ?_, h.references⟩
  · have hnew : target ∉ env.importTargets ++ env.exportTargets := by
      simpa using ⟨himport, hexport⟩
    show ((env.imports ++ [(name, target)]).map Prod.snd ++ env.exportTargets).Nodup
    rw [List.map_append, List.append_assoc, List.map_cons, List.map_nil, List.singleton_append,
      List.nodup_middle]
    exact List.nodup_cons.mpr ⟨hnew, h.targets⟩
  · have hs := h.indices s
    cases s <;> exact hs

theorem addExport (h : env.Consistent) (hadd : env.addExport name target = .ok env') :
    env'.Consistent := by
  obtain ⟨⟨b, hb⟩, -, hexport, -, himport, rfl⟩ := addExport_eq_ok.mp hadd
  refine ⟨h.names, ?_, ?_, fun s => ?_, h.references⟩
  · have hnew : target ∉ env.importTargets ++ env.exportTargets := by
      simpa using ⟨himport, hexport⟩
    show (env.importTargets ++ (env.exports ++ [(name, target)]).map Prod.snd).Nodup
    rw [List.map_append, ← List.append_assoc]
    exact List.nodup_append_comm.mp (List.nodup_cons.mpr ⟨hnew, h.targets⟩)
  · intro e he
    rcases List.mem_append.mp he with he | he
    · exact h.exported e he
    · rw [List.mem_singleton.mp he]
      exact ⟨b, name_mem_of_binding? hb⟩
  · have hs := h.indices s
    cases s <;> exact hs

theorem define {m : MacroDef} (h : env.Consistent) (hdefine : env.define name m = .ok env') :
    env'.Consistent := by
  obtain ⟨hm, hb, rfl⟩ := define_eq_ok.mp hdefine
  refine ⟨?_, h.targets, h.exported, fun s => ?_, h.references⟩
  · show (env.bindings.map Binding.name ++ (env.macros ++ [(name, m)]).map Prod.fst).Nodup
    rw [List.map_append, ← List.append_assoc]
    exact List.nodup_append_comm.mp (List.nodup_cons.mpr ⟨not_mem_names hb hm, h.names⟩)
  · have hs := h.indices s
    cases s <;> exact hs

/-- A new variable takes the next index of its sort and leaves the other sorts alone. -/
theorem bind {v : Value} {statements : List Tree} (h : env.Consistent)
    (hbind : env.bind name v = .ok (env', statements)) : env'.Consistent := by
  have hbindings := bindings_of_bind hbind
  have hnext := nextIndex_of_bind hbind
  obtain ⟨hb, hm, henv, -⟩ := bind_eq_ok.mp hbind
  have hother : env'.macros = env.macros ∧ env'.imports = env.imports ∧
      env'.exports = env.exports := by
    rw [henv]
    cases v.sort <;> exact ⟨rfl, rfl, rfl⟩
  refine ⟨?_, ?_, ?_, ?_, ?_⟩
  · rw [hbindings, hother.1, List.map_append, List.append_assoc, List.map_cons, List.map_nil,
      List.singleton_append, List.nodup_middle]
    exact List.nodup_cons.mpr ⟨not_mem_names hb hm, h.names⟩
  · rw [importTargets, exportTargets, hother.2.1, hother.2.2]
    exact h.targets
  · rw [hother.2.2, hbindings]
    intro e he
    obtain ⟨b, hb, hname⟩ := h.exported e he
    exact ⟨b, List.mem_append_left _ hb, hname⟩
  · intro s
    rw [bindingsOf, hbindings, List.filter_append, List.map_append, ← bindingsOf, h.indices s,
      hnext s]
    by_cases hs : s = v.sort
    · subst hs
      rw [if_pos rfl, List.range_succ, List.filter_cons_of_pos (by simp [Value.sort_assign])]
      rfl
    · rw [if_neg hs, List.filter_cons_of_neg (by simpa [Value.sort_assign] using Ne.symm hs)]
      exact List.append_nil _
  · rw [hbindings]
    intro b hb
    rcases List.mem_append.mp hb with hb | hb
    · exact h.references b hb
    · rw [List.mem_singleton.mp hb]
      exact v.isReference_assign _

end Consistent

/-- Every environment that successful operations lead to is consistent. -/
theorem Reachable.consistent {env : Env} (h : env.Reachable) : env.Consistent := by
  induction h with
  | empty => exact .empty
  | bind _ hbind ih => exact ih.bind hbind
  | define _ hdefine ih => exact ih.define hdefine
  | addImport _ hadd ih => exact ih.addImport hadd
  | addExport _ hadd ih => exact ih.addExport hadd

/-- An environment with variables of each sort, a macro, an import and an export. -/
theorem consistent_sample :
    ∃ env : Env, env.Reachable ∧ env.Consistent ∧
      env.bindings.map Binding.name = ["X", "V", "Y", "M"] ∧ env.numNext = 2 ∧
      env.exportTargets = ["out"] := by
  have h := Reachable.addImport .empty (rfl : addImport .empty "speed" "v" = _)
  have h := h.bind (rfl : bind _ "X" (.number (.ofInt 3)) = _)
  have h := h.bind (rfl : bind _ "V" (.vector ⟨[.ofInt 1, .name "speed"], by simp⟩) = _)
  have h := h.define (rfl : define _ "two" ⟨[], "number", .numberOf (.int 2)⟩ = _)
  have h := h.bind (rfl : bind _ "Y" (.number (.name "speed")) = _)
  have h := h.bind
    (rfl : bind _ "M" (.matrix ⟨[⟨[.ofInt 1], by simp⟩], by simp, by simp⟩) = _)
  have h := h.addExport (rfl : addExport _ "V" "out" = _)
  exact ⟨_, h, h.consistent, rfl, rfl, rfl⟩

/-- No two imports have one alias, and no variable is exported twice. -/
theorem Reachable.nodup_aliases {env : Env} (h : env.Reachable) :
    (env.imports.map Prod.fst).Nodup ∧ (env.exports.map Prod.fst).Nodup := by
  have hnew : ∀ {l : List (String × String)} {name target : String}, l.lookup name = none →
      (l.map Prod.fst).Nodup → ((l ++ [(name, target)]).map Prod.fst).Nodup := by
    intro l name target hnone hl
    have hmem : name ∉ l.map Prod.fst := by
      rintro h
      obtain ⟨p, hp, rfl⟩ := List.mem_map.mp h
      exact absurd (List.lookup_eq_none_iff.mp hnone p hp) (by simp)
    rw [List.map_append]
    exact List.nodup_append_comm.mp (List.nodup_cons.mpr ⟨hmem, hl⟩)
  induction h with
  | empty => exact ⟨List.nodup_nil, List.nodup_nil⟩
  | @bind env env' name v statements _ hbind ih =>
    rw [(bind_eq_ok.mp hbind).2.2.1]
    cases v.sort <;> exact ih
  | define _ hdefine ih =>
    rw [(define_eq_ok.mp hdefine).2.2]
    exact ih
  | addImport _ hadd ih =>
    obtain ⟨hnone, -, -, rfl⟩ := addImport_eq_ok.mp hadd
    exact ⟨hnew hnone ih.1, ih.2⟩
  | addExport _ hadd ih =>
    obtain ⟨-, hnone, -, -, -, rfl⟩ := addExport_eq_ok.mp hadd
    exact ⟨ih.1, hnew hnone ih.2⟩

theorem Declares.preserves_consistent {env env' : Env} (hd : env.Declares env')
    (h : env.Consistent) : env'.Consistent := by
  cases hd with
  | addImport hadd => exact h.addImport hadd
  | addExport hadd => exact h.addExport hadd
  | define hdefine => exact h.define hdefine

theorem Declares.reachable {env env' : Env} (hd : env.Declares env') (h : env.Reachable) :
    env'.Reachable := by
  cases hd with
  | addImport hadd => exact h.addImport hadd
  | addExport hadd => exact h.addExport hadd
  | define hdefine => exact h.define hdefine

end Env

/-- A run of declarations and bindings leads from a reachable environment to another. -/
theorem Lowers.reachable {env env' : Env} {ls : List SourceLet} {lines : List Tree}
    (h : Lowers env ls env' lines) (hr : env.Reachable) : env'.Reachable := by
  induction h with
  | done => exact hr
  | declare hd _ ih => exact ih (hd.reachable hr)
  | bind _ _ hbind _ ih => exact ih (hr.bind hbind)

theorem Lowers.preserves_consistent {env env' : Env} {ls : List SourceLet} {lines : List Tree}
    (h : Lowers env ls env' lines) (hc : env.Consistent) : env'.Consistent := by
  induction h with
  | done => exact hc
  | declare hd _ ih => exact ih (hd.preserves_consistent hc)
  | bind _ _ hbind _ ih => exact ih (hc.bind hbind)

end Scalarize
