import Scalarize.Proofs.EvaluationLevels

/-!
# Scalarize — what the evaluators compute

One lemma for each evaluator goes through the forms of its sort; no other proof looks into the
evaluators.

* **`number_ends`**, **`vector_ends`**, **`matrix_ends`** — one level, given that the levels below
  return only what their expressions yield.
* **`yields_of_returns`**, **`evaluates_of_returns`** — a result of an evaluator is derived. The
  induction is on the depth.
* **`levelEnds_of_ends`** — what a level can end with, for all sorts at once.
-/

namespace Scalarize

open Traced

/-- The levels below, given that they return only what their expressions yield. -/
theorem levelsBelow {env : Env} {n : Nat}
    (ihn : ∀ t x, (numberAt env n t).Returns x → Yields env .number t (.number x))
    (ihv : ∀ t v, (vectorAt env n t).Returns v → Yields env .vector t (.vector v))
    (ihm : ∀ t m, (matrixAt env n t).Returns m → Yields env .matrix t (.matrix m)) :
    LevelBelow env n .number (numberAt env n) .number ∧
      LevelBelow env n .vector (vectorAt env n) .vector ∧
      LevelBelow env n .matrix (matrixAt env n) .matrix :=
  ⟨⟨fun _ => rfl, ihn, fun _ _ h => h.eq_number, fun _ _ => Value.number.inj⟩,
    ⟨fun _ => rfl, ihv, fun _ _ h => h.eq_vector, fun _ _ => Value.vector.inj⟩,
    ⟨fun _ => rfl, ihm, fun _ _ h => h.eq_matrix, fun _ _ => Value.matrix.inj⟩⟩

section

variable {env : Env} {n : Nat} (hn : LevelBelow env n .number (numberAt env n) .number)
  (hv : LevelBelow env n .vector (vectorAt env n) .vector)
  (hm : LevelBelow env n .matrix (matrixAt env n) .matrix)

include hn hv hm

/-- One level of the evaluator of number expressions. -/
theorem number_ends {t : Tree} {r : Except Failure Num} (h : (numberAt env (n + 1) t).Ends r) :
    LevelEnds env n .number t (r.map .number) := by
  rw [numberAt] at h
  replace h := h.of_note
  cases hf : NumForm.ofKind? t.kind with
  | none =>
    rw [hf] at h
    rw [h.of_reject]
    refine .rejected (Yields.not_of_kind ?_ ?_ (by rw [operands, hf]; rfl)) <;>
    · intro hkind
      rw [hkind] at hf
      cases hf
  | some f =>
    rw [hf] at h
    -- each form has operands and makes something of their values; too few children are a fault
    cases f with
    | chain =>
      rcases hc : t.children with _ | ⟨e, rest⟩ <;> rw [hc] at h
      case cons =>
        have hops : operands .number t = some ((.number, e) :: (pairs rest).map fun p => (.number, p.2)) :=
          NumForm.operands_eq hf (by rw [hc]; rfl)
        refine .of_chain (e := fun p : Tree × Tree => p.2)
          (k := fun x p y => .ok (Num.binary p.1.kind x y)) hn hops (fun x ys _ => ?_) h
        refine NumForm.build_eq hf ?_
        unfold NumForm.build
        rw [hc]
        show ((ys.map Value.number).mapM Value.number?).map _ = _
        rw [Value.mapM_number?]
        exact congrArg Except.toOption (List.foldlM_pure (m := Except Diagnostic)).symm
      all_goals exact .of_number_missing hf (by simp) (by simp) (by rw [hc]; rfl) h
    | unaryChain =>
      cases hl : t.children.getLast? with
      | none =>
        rw [hl] at h
        exact .of_number_missing hf (by simp) (by simp) (by rw [NumForm.operands, hl]; rfl) h
      | some e =>
        rw [hl] at h
        have hops : operands .number t = some [(.number, e)] :=
          NumForm.operands_eq hf (by rw [NumForm.operands, hl]; rfl)
        exact .of_one (F := fun _ => .ok _) hn hops (fun _ => NumForm.build_eq hf rfl) h
    | reduce =>
      rcases hc : t.children with _ | ⟨op, _ | ⟨e, rest⟩⟩ <;> rw [hc] at h
      case cons.cons =>
        have hops : operands .number t = some [(.vector, e)] :=
          NumForm.operands_eq hf (by rw [hc]; rfl)
        exact .of_one (F := fun _ => .ok _) hv hops
          (fun _ => NumForm.build_eq hf (by unfold NumForm.build; rw [hc]; rfl)) h
      all_goals exact .of_number_missing hf (by simp) (by simp) (by rw [hc]; rfl) h
    | dot =>
      rcases hc : t.children with _ | ⟨e₁, _ | ⟨e₂, rest⟩⟩ <;> rw [hc] at h
      case cons.cons =>
        have hops : operands .number t = some [(.vector, e₁), (.vector, e₂)] :=
          NumForm.operands_eq hf (by rw [hc]; rfl)
        exact .of_two (F := fun _ _ => .ok _) hv hv hops
          (fun _ _ => NumForm.build_eq hf rfl) h
      all_goals exact .of_number_missing hf (by simp) (by simp) (by rw [hc]; rfl) h
    | len =>
      rcases hc : t.children with _ | ⟨e, rest⟩ <;> rw [hc] at h
      case cons =>
        have hops : operands .number t = some [(.vector, e)] :=
          NumForm.operands_eq hf (by rw [hc]; rfl)
        exact .of_one (F := fun _ => .ok _) hv hops
          (fun _ => NumForm.build_eq hf rfl) h
      all_goals exact .of_number_missing hf (by simp) (by simp) (by rw [hc]; rfl) h
    | rows =>
      rcases hc : t.children with _ | ⟨e, rest⟩ <;> rw [hc] at h
      case cons =>
        have hops : operands .number t = some [(.matrix, e)] :=
          NumForm.operands_eq hf (by rw [hc]; rfl)
        exact .of_one (F := fun _ => .ok _) hm hops
          (fun _ => NumForm.build_eq hf rfl) h
      all_goals exact .of_number_missing hf (by simp) (by simp) (by rw [hc]; rfl) h
    | cols =>
      rcases hc : t.children with _ | ⟨e, rest⟩ <;> rw [hc] at h
      case cons =>
        have hops : operands .number t = some [(.matrix, e)] :=
          NumForm.operands_eq hf (by rw [hc]; rfl)
        exact .of_one (F := fun _ => .ok _) hm hops
          (fun _ => NumForm.build_eq hf rfl) h
      all_goals exact .of_number_missing hf (by simp) (by simp) (by rw [hc]; rfl) h
    | vecElem =>
      rcases hc : t.children with _ | ⟨e, _ | ⟨i, rest⟩⟩ <;> rw [hc] at h
      case cons.cons =>
        have hops : operands .number t = some [(.vector, e)] :=
          NumForm.operands_eq hf (by rw [hc]; rfl)
        exact .of_index hv hops
          (fun _ => NumForm.build_eq hf (by unfold NumForm.build; rw [hc])) h
      all_goals exact .of_number_missing hf (by simp) (by simp) (by rw [hc]; rfl) h
    | matElem =>
      rcases hc : t.children with _ | ⟨e, _ | ⟨i, _ | ⟨j, rest⟩⟩⟩ <;> rw [hc] at h
      case cons.cons.cons =>
        have hops : operands .number t = some [(.matrix, e)] :=
          NumForm.operands_eq hf (by rw [hc]; rfl)
        have hbuild : ∀ m, NumForm.build env .matElem t [.matrix m] = (indexOf? i.value).bind fun k =>
            (indexOf? j.value).bind fun l => (m.elem k l).toOption := by
          intro m
          unfold NumForm.build
          rw [hc]
        dsimp only at h
        -- the cell is looked up only if both indices are whole numbers
        cases hi : indexOf? i.value with
        | none =>
          rw [hi] at h hbuild
          exact .of_one (F := fun _ => .error _) hm hops (fun m => NumForm.build_eq hf (hbuild m)) h
        | some k =>
          cases hj : indexOf? j.value with
          | none =>
            rw [hi, hj] at h hbuild
            exact .of_one (F := fun _ => .error _) hm hops
              (fun m => NumForm.build_eq hf (hbuild m)) h
          | some l =>
            rw [hi, hj] at h hbuild
            exact .of_one hm hops (fun m => NumForm.build_eq hf (hbuild m)) h
      all_goals exact .of_number_missing hf (by simp) (by simp) (by rw [hc]; rfl) h
    | external =>
      have hlast : (check (env.target t.name) >>= fun _ => pure (Num.name t.name)) =
          check ((env.target t.name).map fun _ => Num.name t.name) := by
        cases env.target t.name <;> rfl
      refine .of_built (NumForm.operands_eq hf rfl) .nil (NumForm.build_eq hf ?_) (hlast ▸ h)
      show (env.target t.name).toOption.map _ = _
      cases env.target t.name <;> rfl
    | reference =>
      exact .of_reference (NumForm.kind_of_reference hf) Binding.toOption_number h
    | call => exact .of_call hn (NumForm.kind_of_call hf) h
    | literal =>
      have hbuild : NumForm.build env .literal t [] =
          (literalOf t.value).toOption.map .literal := rfl
      dsimp only at h
      cases hk : literalOf t.value with
      | ok k =>
        rw [hk] at h hbuild
        exact .of_built (x := .ok _) (NumForm.operands_eq hf rfl) .nil
          (NumForm.build_eq hf hbuild) h
      | error f =>
        rw [hk] at h
        refine .of_give h (.literal (NumForm.kind_of_literal hf) ?_) (ne_endless_of_literalOf hk)
        rw [hk]
        rfl

/-- One level of the evaluator of vector expressions. -/
theorem vector_ends {t : Tree} {r : Except Failure Vec} (h : (vectorAt env (n + 1) t).Ends r) :
    LevelEnds env n .vector t (r.map .vector) := by
  rw [vectorAt] at h
  replace h := h.of_note
  cases hf : VecForm.ofKind? t.kind with
  | none =>
    rw [hf] at h
    rw [h.of_reject]
    refine .rejected (Yields.not_of_kind ?_ ?_ (by rw [operands, hf]; rfl)) <;>
    · intro hkind
      rw [hkind] at hf
      cases hf
  | some f =>
    rw [hf] at h
    cases f with
    | chain =>
      rcases hc : t.children with _ | ⟨e, rest⟩ <;> rw [hc] at h
      case cons =>
        have hops : operands .vector t = some ((.vector, e) :: (pairs rest).map fun p => (.vector, p.2)) :=
          VecForm.operands_eq hf (by rw [hc]; rfl)
        refine .of_chain (e := fun p : Tree × Tree => p.2)
          (k := fun u p w => Vec.chainStep p.1.kind u w) hv hops (fun u ws _ => ?_) h
        refine VecForm.build_eq hf ?_
        unfold VecForm.build
        rw [hc]
        show ((ws.map Value.vector).mapM Value.vector?).bind _ = _
        rw [Value.mapM_vector?]
        rfl
      all_goals exact .of_vector_missing hf (by simp) (by simp) (by rw [hc]; rfl) h
    | map =>
      rcases hc : t.children with _ | ⟨op, _ | ⟨e, rest⟩⟩ <;> rw [hc] at h
      case cons.cons =>
        have hops : operands .vector t = some [(.vector, e)] :=
          VecForm.operands_eq hf (by rw [hc]; rfl)
        exact .of_one (F := fun _ => .ok _) hv hops
          (fun _ => VecForm.build_eq hf (by unfold VecForm.build; rw [hc]; rfl)) h
      all_goals exact .of_vector_missing hf (by simp) (by simp) (by rw [hc]; rfl) h
    | premap =>
      rcases hc : t.children with _ | ⟨op, _ | ⟨e₁, _ | ⟨e₂, rest⟩⟩⟩ <;> rw [hc] at h
      case cons.cons.cons =>
        have hops : operands .vector t = some [(.number, e₁), (.vector, e₂)] :=
          VecForm.operands_eq hf (by rw [hc]; rfl)
        exact .of_two (F := fun _ _ => .ok _) hn hv hops
          (fun _ _ => VecForm.build_eq hf (by unfold VecForm.build; rw [hc]; rfl)) h
      all_goals exact .of_vector_missing hf (by simp) (by simp) (by rw [hc]; rfl) h
    | postmap =>
      rcases hc : t.children with _ | ⟨e₁, _ | ⟨op, _ | ⟨e₂, rest⟩⟩⟩ <;> rw [hc] at h
      case cons.cons.cons =>
        have hops : operands .vector t = some [(.number, e₁), (.vector, e₂)] :=
          VecForm.operands_eq hf (by rw [hc]; rfl)
        exact .of_two (F := fun _ _ => .ok _) hn hv hops
          (fun _ _ => VecForm.build_eq hf (by unfold VecForm.build; rw [hc]; rfl)) h
      all_goals exact .of_vector_missing hf (by simp) (by simp) (by rw [hc]; rfl) h
    | apply =>
      rcases hc : t.children with _ | ⟨op, _ | ⟨e, rest⟩⟩ <;> rw [hc] at h
      case cons.cons =>
        have hops : operands .vector t = some ((e :: rest).map fun e => (.vector, e)) :=
          VecForm.operands_eq hf (by rw [hc]; rfl)
        refine .of_apply (k := Vec.apply op.kind) hv hops (fun u ws => ?_) h
        refine VecForm.build_eq hf ?_
        unfold VecForm.build
        rw [hc]
        show ((ws.map Value.vector).mapM Value.vector?).bind _ = _
        rw [Value.mapM_vector?]
        rfl
      all_goals exact .of_vector_missing hf (by simp) (by simp) (by rw [hc]; rfl) h
    | concat =>
      rcases hc : t.children with _ | ⟨e, rest⟩ <;> rw [hc] at h
      case cons =>
        have hops : operands .vector t = some ((.vector, e) :: rest.map fun e => (.vector, e)) :=
          VecForm.operands_eq hf (by rw [hc]; rfl)
        refine .of_chain (e := fun e => e) (k := fun u _ w => .ok (Vec.concat u w)) hv hops
          (fun u ws hlen => ?_) h
        refine VecForm.build_eq hf ?_
        show ((ws.map Value.vector).mapM Value.vector?).map _ = _
        rw [Value.mapM_vector?]
        show some (ws.foldl Vec.concat u) = _
        -- nothing but the vectors is used in a step, so the loop is one over them alone
        rw [← foldl_zip_snd hlen]
        exact congrArg Except.toOption (List.foldlM_pure (m := Except Diagnostic)).symm
      all_goals exact .of_vector_missing hf (by simp) (by simp) (by rw [hc]; rfl) h
    | reverse =>
      rcases hc : t.children with _ | ⟨e, rest⟩ <;> rw [hc] at h
      case cons =>
        have hops : operands .vector t = some [(.vector, e)] :=
          VecForm.operands_eq hf (by rw [hc]; rfl)
        exact .of_one (F := fun _ => .ok _) hv hops
          (fun _ => VecForm.build_eq hf rfl) h
      all_goals exact .of_vector_missing hf (by simp) (by simp) (by rw [hc]; rfl) h
    | row =>
      rcases hc : t.children with _ | ⟨e, _ | ⟨i, rest⟩⟩ <;> rw [hc] at h
      case cons.cons =>
        have hops : operands .vector t = some [(.matrix, e)] :=
          VecForm.operands_eq hf (by rw [hc]; rfl)
        exact .of_index hm hops
          (fun _ => VecForm.build_eq hf (by unfold VecForm.build; rw [hc])) h
      all_goals exact .of_vector_missing hf (by simp) (by simp) (by rw [hc]; rfl) h
    | col =>
      rcases hc : t.children with _ | ⟨e, _ | ⟨i, rest⟩⟩ <;> rw [hc] at h
      case cons.cons =>
        have hops : operands .vector t = some [(.matrix, e)] :=
          VecForm.operands_eq hf (by rw [hc]; rfl)
        exact .of_index hm hops
          (fun _ => VecForm.build_eq hf (by unfold VecForm.build; rw [hc])) h
      all_goals exact .of_vector_missing hf (by simp) (by simp) (by rw [hc]; rfl) h
    | reference =>
      exact .of_reference (VecForm.kind_of_reference hf) Binding.toOption_vector h
    | call => exact .of_call hv (VecForm.kind_of_call hf) h
    | literal =>
      have hops : operands .vector t = some (t.children.map fun e => (.number, e)) :=
        VecForm.operands_eq hf rfl
      refine .of_mapM_bind hn hops h fun xs hxs h => ?_
      cases hx : Vec.ofList? xs with
      | some v =>
        rw [hx] at h
        refine .of_built (x := .ok v) hops (forall₂_operands.mpr hxs) (VecForm.build_eq hf ?_) h
        show ((xs.map Value.number).mapM Value.number?).bind _ = _
        rw [Value.mapM_number?]
        exact hx
      | none =>
        -- the grammar has no literal without elements
        rw [hx] at h
        rw [Vec.eq_nil_of_ofList? hx] at hxs
        refine .of_give h (.empty (.inl (VecForm.kind_of_literal hf)) ?_) (by simp)
        exact List.forall₂_nil_right_iff.mp hxs

/-- One level of the evaluator of matrix expressions. -/
theorem matrix_ends {t : Tree} {r : Except Failure Mat} (h : (matrixAt env (n + 1) t).Ends r) :
    LevelEnds env n .matrix t (r.map .matrix) := by
  rw [matrixAt] at h
  replace h := h.of_note
  cases hf : MatForm.ofKind? t.kind with
  | none =>
    rw [hf] at h
    rw [h.of_reject]
    refine .rejected (Yields.not_of_kind ?_ ?_ (by rw [operands, hf]; rfl)) <;>
    · intro hkind
      rw [hkind] at hf
      cases hf
  | some f =>
    rw [hf] at h
    cases f with
    | chain =>
      rcases hc : t.children with _ | ⟨e, rest⟩ <;> rw [hc] at h
      case cons =>
        have hops : operands .matrix t = some ((.matrix, e) :: (pairs rest).map fun p => (.matrix, p.2)) :=
          MatForm.operands_eq hf (by rw [hc]; rfl)
        refine .of_chain (e := fun p : Tree × Tree => p.2)
          (k := fun u p w => Mat.chainStep p.1.kind u w) hm hops (fun u ws _ => ?_) h
        refine MatForm.build_eq hf ?_
        unfold MatForm.build
        rw [hc]
        show ((ws.map Value.matrix).mapM Value.matrix?).bind _ = _
        rw [Value.mapM_matrix?]
        rfl
      all_goals exact .of_matrix_missing hf (by simp) (by simp) (by rw [hc]; rfl) h
    | map =>
      rcases hc : t.children with _ | ⟨op, _ | ⟨e, rest⟩⟩ <;> rw [hc] at h
      case cons.cons =>
        have hops : operands .matrix t = some [(.matrix, e)] :=
          MatForm.operands_eq hf (by rw [hc]; rfl)
        exact .of_one (F := fun _ => .ok _) hm hops
          (fun _ => MatForm.build_eq hf (by unfold MatForm.build; rw [hc]; rfl)) h
      all_goals exact .of_matrix_missing hf (by simp) (by simp) (by rw [hc]; rfl) h
    | premap =>
      rcases hc : t.children with _ | ⟨op, _ | ⟨e₁, _ | ⟨e₂, rest⟩⟩⟩ <;> rw [hc] at h
      case cons.cons.cons =>
        have hops : operands .matrix t = some [(.number, e₁), (.matrix, e₂)] :=
          MatForm.operands_eq hf (by rw [hc]; rfl)
        exact .of_two (F := fun _ _ => .ok _) hn hm hops
          (fun _ _ => MatForm.build_eq hf (by unfold MatForm.build; rw [hc]; rfl)) h
      all_goals exact .of_matrix_missing hf (by simp) (by simp) (by rw [hc]; rfl) h
    | postmap =>
      rcases hc : t.children with _ | ⟨e₁, _ | ⟨op, _ | ⟨e₂, rest⟩⟩⟩ <;> rw [hc] at h
      case cons.cons.cons =>
        have hops : operands .matrix t = some [(.number, e₁), (.matrix, e₂)] :=
          MatForm.operands_eq hf (by rw [hc]; rfl)
        exact .of_two (F := fun _ _ => .ok _) hn hm hops
          (fun _ _ => MatForm.build_eq hf (by unfold MatForm.build; rw [hc]; rfl)) h
      all_goals exact .of_matrix_missing hf (by simp) (by simp) (by rw [hc]; rfl) h
    | apply =>
      rcases hc : t.children with _ | ⟨op, _ | ⟨e, rest⟩⟩ <;> rw [hc] at h
      case cons.cons =>
        have hops : operands .matrix t = some ((e :: rest).map fun e => (.matrix, e)) :=
          MatForm.operands_eq hf (by rw [hc]; rfl)
        refine .of_apply (k := Mat.apply op.kind) hm hops (fun u ws => ?_) h
        refine MatForm.build_eq hf ?_
        unfold MatForm.build
        rw [hc]
        show ((ws.map Value.matrix).mapM Value.matrix?).bind _ = _
        rw [Value.mapM_matrix?]
        rfl
      all_goals exact .of_matrix_missing hf (by simp) (by simp) (by rw [hc]; rfl) h
    | transpose =>
      rcases hc : t.children with _ | ⟨e, rest⟩ <;> rw [hc] at h
      case cons =>
        have hops : operands .matrix t = some [(.matrix, e)] :=
          MatForm.operands_eq hf (by rw [hc]; rfl)
        exact .of_one (F := fun _ => .ok _) hm hops
          (fun _ => MatForm.build_eq hf rfl) h
      all_goals exact .of_matrix_missing hf (by simp) (by simp) (by rw [hc]; rfl) h
    | product =>
      rcases hc : t.children with _ | ⟨e₁, _ | ⟨e₂, rest⟩⟩ <;> rw [hc] at h
      case cons.cons =>
        have hops : operands .matrix t = some [(.matrix, e₁), (.matrix, e₂)] :=
          MatForm.operands_eq hf (by rw [hc]; rfl)
        exact .of_two hm hm hops
          (fun _ _ => MatForm.build_eq hf rfl) h
      all_goals exact .of_matrix_missing hf (by simp) (by simp) (by rw [hc]; rfl) h
    | reference =>
      exact .of_reference (MatForm.kind_of_reference hf) Binding.toOption_matrix h
    | call => exact .of_call hm (MatForm.kind_of_call hf) h
    | literal =>
      have hops : operands .matrix t = some (t.children.map fun e => (.vector, e)) :=
        MatForm.operands_eq hf rfl
      refine .of_mapM_bind hv hops h fun ws hws h => ?_
      have hbuild : build env .matrix t (ws.map .vector) = (Mat.ofRows ws).toOption.map .matrix := by
        refine MatForm.build_eq hf ?_
        show ((ws.map Value.vector).mapM Value.vector?).bind _ = _
        rw [Value.mapM_vector?]
        rfl
      rw [h.of_lift]
      cases hrows : Mat.ofRows ws with
      | ok m =>
        rw [hrows] at hbuild
        exact .value (.of_forall₂ hops (forall₂_operands.mpr hws) hbuild)
      | error e =>
        rw [hrows] at hbuild
        -- no rows are a fault of the node, rows of different lengths one of the program
        rcases Mat.ofRows_eq_error hrows with ⟨rfl, rfl⟩ | rfl
        · refine .malformed (.empty (.inr (MatForm.kind_of_literal hf)) ?_) (by simp)
          exact List.forall₂_nil_right_iff.mp hws
        · exact .rejected (Yields.not_of_build hops (forall₂_operands.mpr hws) hbuild)

end

/-- Where an evaluator succeeds, its result is derived from the bottom up. -/
theorem yields_of_returns (env : Env) (n : Nat) :
    (∀ t x, (numberAt env n t).Returns x → Yields env .number t (.number x)) ∧
    (∀ t v, (vectorAt env n t).Returns v → Yields env .vector t (.vector v)) ∧
    (∀ t m, (matrixAt env n t).Returns m → Yields env .matrix t (.matrix m)) := by
  induction n with
  | zero =>
    refine ⟨fun t x h => ?_, fun t v h => ?_, fun t m h => ?_⟩
    · rw [numberAt] at h; exact absurd h not_returns_give
    · rw [vectorAt] at h; exact absurd h not_returns_give
    · rw [matrixAt] at h; exact absurd h not_returns_give
  | succ n ih =>
    obtain ⟨hn, hv, hm⟩ := levelsBelow ih.1 ih.2.1 ih.2.2
    refine ⟨fun t x h => ?_, fun t v h => ?_, fun t m h => ?_⟩
    · cases number_ends hn hv hm h.ends with | value h => exact h
    · cases vector_ends hn hv hm h.ends with | value h => exact h
    · cases matrix_ends hn hv hm h.ends with | value h => exact h

theorem evaluates_of_returns (env : Env) (n : Nat) :
    (∀ t x, (numberAt env n t).Returns x → Evaluates env .number t (.number x)) ∧
    (∀ t v, (vectorAt env n t).Returns v → Evaluates env .vector t (.vector v)) ∧
    (∀ t m, (matrixAt env n t).Returns m → Evaluates env .matrix t (.matrix m)) := by
  obtain ⟨hn, hv, hm⟩ := yields_of_returns env n
  exact ⟨fun t x h => (hn t x h).evaluates, fun t v h => (hv t v h).evaluates,
    fun t m h => (hm t m h).evaluates⟩

/-- The levels of any depth, with what is known of them. -/
theorem levels (env : Env) (n : Nat) :
    LevelBelow env n .number (numberAt env n) .number ∧
      LevelBelow env n .vector (vectorAt env n) .vector ∧
      LevelBelow env n .matrix (matrixAt env n) .matrix := by
  obtain ⟨hn, hv, hm⟩ := yields_of_returns env n
  exact levelsBelow hn hv hm

/-- What a level of an evaluator ends with. -/
theorem levelEnds_of_ends {env : Env} {s : ValueSort} {n : Nat} {t : Tree}
    {r : Except Failure Value} (h : (evaluateAt env s (n + 1) t).Ends r) :
    LevelEnds env n s t r := by
  obtain ⟨hn, hv, hm⟩ := levels env n
  cases s with
  | number =>
    obtain ⟨r', h', rfl⟩ := ends_map.mp h
    exact number_ends hn hv hm h'
  | vector =>
    obtain ⟨r', h', rfl⟩ := ends_map.mp h
    exact vector_ends hn hv hm h'
  | matrix =>
    obtain ⟨r', h', rfl⟩ := ends_map.mp h
    exact matrix_ends hn hv hm h'

/-- Without any depth left nothing is evaluated. -/
theorem evaluateAt_zero_ends {env : Env} {s : ValueSort} {t : Tree} {r : Except Failure Value}
    (h : (evaluateAt env s 0 t).Ends r) : r = .error (.fault .endlessExpansion) := by
  cases s with
  | number =>
    obtain ⟨r', h', rfl⟩ := ends_map.mp h
    rw [numberAt] at h'
    rw [h'.of_give]
    rfl
  | vector =>
    obtain ⟨r', h', rfl⟩ := ends_map.mp h
    rw [vectorAt] at h'
    rw [h'.of_give]
    rfl
  | matrix =>
    obtain ⟨r', h', rfl⟩ := ends_map.mp h
    rw [matrixAt] at h'
    rw [h'.of_give]
    rfl

end Scalarize
