import Scalarize.Proofs.DeclaredFailures
import Scalarize.Proofs.EvaluationFocus

/-!
# Scalarize — where lowering fails

An error is reported with the statement and the expression that the compiler has come to. If the
expression of a `let` has no value, the statement is the `let` itself. The expression is the node
that is rejected if the check is one of those on entry. If the check is about the values of the
operands it is never this node, but the one that was entered last for the operand that was evaluated
last.

* **`number_focus`**, **`vector_focus`**, **`matrix_focus`** — one level of each evaluator.
* **`triple_evaluateAt`** — all levels, by induction on the depth.
* **`lowering_failure_focus`** — the focus of a program that is not lowered.
-/

namespace Scalarize

open Traced

theorem Binding.complaintOf_number (b : Binding) : complaintOf b.number =
    if b.value.sort = .number then none
    else some (.variableSort b.name .number b.value.sort) := by
  unfold Binding.number
  cases b.value <;> rfl

theorem Binding.complaintOf_vector (b : Binding) : complaintOf b.vector =
    if b.value.sort = .vector then none
    else some (.variableSort b.name .vector b.value.sort) := by
  unfold Binding.vector
  cases b.value <;> rfl

theorem Binding.complaintOf_matrix (b : Binding) : complaintOf b.matrix =
    if b.value.sort = .matrix then none
    else some (.variableSort b.name .matrix b.value.sort) := by
  unfold Binding.matrix
  cases b.value <;> rfl

/-- Steps that cannot fail give no diagnostic. -/
theorem complaintOf_foldlM_ok {α β : Type} (f : α → β → α) (a : α) (bs : List β) :
    complaintOf (bs.foldlM (fun a b => (.ok (f a b) : Except Diagnostic α)) a) = none :=
  congrArg complaintOf (List.foldlM_pure (m := Except Diagnostic))

/-! ## The evaluators -/

section

variable {env : Env} {n : Nat} {st : Option Tree}

theorem triple_enter (t : Tree) {E : Failure → Trace → Prop} :
    Triple (·.statement = st) (enterExpression t) (AtNode st t) E :=
  triple_note fun _ h => ⟨h, rfl⟩

variable (hn : FocusBelow env n st .number (numberAt env n) .number)
  (hv : FocusBelow env n st .vector (vectorAt env n) .vector)
  (hm : FocusBelow env n st .matrix (matrixAt env n) .matrix)

include hn hv hm

/-- One level of the evaluator of number expressions. -/
theorem number_focus (t : Tree) :
    Triple (·.statement = st) (numberAt env (n + 1) t) (Focused env st [(.number, t)])
      (FailsAt env st .number t) := by
  rw [numberAt]
  refine (triple_enter t).bind fun _ => ?_
  -- a form that rejects nothing goes on with steps that are always `.ok`
  cases hf : NumForm.ofKind? t.kind with
  | none => exact triple_unadmitted (by rw [ValueSort.admits, hf]; rfl)
  | some f =>
    have hadmits : ValueSort.number.admits t.kind = true := by rw [ValueSort.admits, hf]; rfl
    cases f with
    | chain =>
      rcases hc : t.children with _ | ⟨e, rest⟩
      case cons =>
        refine triple_chain (e := fun p : Tree × Tree => p.2)
          (k := fun x p y => .ok (Num.binary p.1.kind x y)) hn
          (NumForm.operands_eq hf (by rw [hc]; rfl)) fun x ys _ => ?_
        exact (NumForm.complaint?_eq hf rfl).trans (complaintOf_foldlM_ok _ _ _).symm
      all_goals exact triple_give
    | unaryChain =>
      cases hl : t.children.getLast? with
      | none => exact triple_give
      | some e =>
        exact triple_one (F := fun _ => .ok _) hn
          (NumForm.operands_eq hf (by rw [NumForm.operands, hl]; rfl))
          fun _ => NumForm.complaint?_eq hf rfl
    | reduce =>
      rcases hc : t.children with _ | ⟨op, _ | ⟨e, rest⟩⟩
      case cons.cons =>
        exact triple_one (F := fun _ => .ok _) hv (NumForm.operands_eq hf (by rw [hc]; rfl))
          fun _ => NumForm.complaint?_eq hf rfl
      all_goals exact triple_give
    | dot =>
      rcases hc : t.children with _ | ⟨e₁, _ | ⟨e₂, rest⟩⟩
      case cons.cons =>
        exact triple_two (F := fun _ _ => .ok _) hv hv (NumForm.operands_eq hf (by rw [hc]; rfl))
          (fun _ => NumForm.complaint?_eq hf rfl) fun _ _ => NumForm.complaint?_eq hf rfl
      all_goals exact triple_give
    | len =>
      rcases hc : t.children with _ | ⟨e, rest⟩
      case cons =>
        exact triple_one (F := fun _ => .ok _) hv (NumForm.operands_eq hf (by rw [hc]; rfl))
          fun _ => NumForm.complaint?_eq hf rfl
      all_goals exact triple_give
    | rows =>
      rcases hc : t.children with _ | ⟨e, rest⟩
      case cons =>
        exact triple_one (F := fun _ => .ok _) hm (NumForm.operands_eq hf (by rw [hc]; rfl))
          fun _ => NumForm.complaint?_eq hf rfl
      all_goals exact triple_give
    | cols =>
      rcases hc : t.children with _ | ⟨e, rest⟩
      case cons =>
        exact triple_one (F := fun _ => .ok _) hm (NumForm.operands_eq hf (by rw [hc]; rfl))
          fun _ => NumForm.complaint?_eq hf rfl
      all_goals exact triple_give
    | vecElem =>
      rcases hc : t.children with _ | ⟨e, _ | ⟨i, rest⟩⟩
      case cons.cons =>
        refine triple_index hv (NumForm.operands_eq hf (by rw [hc]; rfl)) fun v =>
          NumForm.complaint?_eq hf ?_
        unfold NumForm.complaint?
        rewrite [hc]
        rfl
      all_goals exact triple_give
    | matElem =>
      rcases hc : t.children with _ | ⟨e, _ | ⟨i, _ | ⟨j, rest⟩⟩⟩
      case cons.cons.cons =>
        have hops : operands .number t = some [(.matrix, e)] :=
          NumForm.operands_eq hf (by rw [hc]; rfl)
        dsimp only
        cases hi : indexOf? i.value with
        | none =>
          exact triple_one (F := fun _ => .error _) hm hops fun m =>
            NumForm.complaint?_eq hf (NumForm.complaint?_matElem_bad hc (.inl hi) m)
        | some k =>
          cases hj : indexOf? j.value with
          | none =>
            exact triple_one (F := fun _ => .error _) hm hops fun m =>
              NumForm.complaint?_eq hf (NumForm.complaint?_matElem_bad hc (.inr hj) m)
          | some l =>
            exact triple_one (F := fun m => m.elem k l) hm hops fun m =>
              NumForm.complaint?_eq hf (NumForm.complaint?_matElem hc hi hj m)
      all_goals exact triple_give
    | external =>
      have hkind : t.kind = "external" := by simpa [NumForm.table] using mem_of_lookup hf
      refine ((triple_entry fun d hd => ?_).bind fun _ => triple_pure _).mono
        (fun _ h => h.focused (.inr (.inl hkind))) fun _ _ => id
      rw [entryComplaint?, if_pos hadmits, if_neg (by rw [hkind]; decide), if_pos hkind, hd]
      rfl
    | reference =>
      exact triple_reference (NumForm.kind_of_reference hf) hadmits Binding.complaintOf_number
    | call => exact triple_call hn (NumForm.kind_of_call hf) hadmits
    | literal =>
      cases hk : literalOf t.value with
      | ok k =>
        exact (triple_pure _).mono
          (fun _ h => h.focused (.inr (.inr (NumForm.kind_of_literal hf)))) fun _ _ => id
      | error f => exact triple_give

/-- One level of the evaluator of vector expressions. -/
theorem vector_focus (t : Tree) :
    Triple (·.statement = st) (vectorAt env (n + 1) t) (Focused env st [(.vector, t)])
      (FailsAt env st .vector t) := by
  rw [vectorAt]
  refine (triple_enter t).bind fun _ => ?_
  cases hf : VecForm.ofKind? t.kind with
  | none => exact triple_unadmitted (by rw [ValueSort.admits, hf]; rfl)
  | some f =>
    have hadmits : ValueSort.vector.admits t.kind = true := by rw [ValueSort.admits, hf]; rfl
    cases f with
    | chain =>
      rcases hc : t.children with _ | ⟨e, rest⟩
      case cons =>
        refine triple_chain (e := fun p : Tree × Tree => p.2)
          (k := fun u p w => Vec.chainStep p.1.kind u w) hv
          (VecForm.operands_eq hf (by rw [hc]; rfl)) fun u ws _ => VecForm.complaint?_eq hf ?_
        unfold VecForm.complaint?
        rw [hc]
        show ((ws.map Value.vector).mapM Value.vector?).bind _ = _
        rw [Value.mapM_vector?]
        rfl
      all_goals exact triple_give
    | map =>
      rcases hc : t.children with _ | ⟨op, _ | ⟨e, rest⟩⟩
      case cons.cons =>
        exact triple_one (F := fun _ => .ok _) hv (VecForm.operands_eq hf (by rw [hc]; rfl))
          fun _ => VecForm.complaint?_eq hf rfl
      all_goals exact triple_give
    | premap =>
      rcases hc : t.children with _ | ⟨op, _ | ⟨e₁, _ | ⟨e₂, rest⟩⟩⟩
      case cons.cons.cons =>
        exact triple_two (F := fun _ _ => .ok _) hn hv (VecForm.operands_eq hf (by rw [hc]; rfl))
          (fun _ => VecForm.complaint?_eq hf rfl) fun _ _ => VecForm.complaint?_eq hf rfl
      all_goals exact triple_give
    | postmap =>
      rcases hc : t.children with _ | ⟨e₁, _ | ⟨op, _ | ⟨e₂, rest⟩⟩⟩
      case cons.cons.cons =>
        exact triple_two (F := fun _ _ => .ok _) hn hv (VecForm.operands_eq hf (by rw [hc]; rfl))
          (fun _ => VecForm.complaint?_eq hf rfl) fun _ _ => VecForm.complaint?_eq hf rfl
      all_goals exact triple_give
    | apply =>
      rcases hc : t.children with _ | ⟨op, _ | ⟨e, rest⟩⟩
      case cons.cons =>
        refine triple_apply (k := Vec.apply op.kind) hv (VecForm.operands_eq hf (by rw [hc]; rfl))
          fun u ws => VecForm.complaint?_eq hf ?_
        unfold VecForm.complaint?
        rw [hc]
        show ((ws.map Value.vector).mapM Value.vector?).bind _ = _
        rw [Value.mapM_vector?]
        rfl
      all_goals exact triple_give
    | concat =>
      rcases hc : t.children with _ | ⟨e, rest⟩
      case cons =>
        refine triple_chain (e := fun e => e) (k := fun u _ w => .ok (Vec.concat u w)) hv
          (VecForm.operands_eq hf (by rw [hc]; rfl)) fun u ws _ => ?_
        exact (VecForm.complaint?_eq hf rfl).trans (complaintOf_foldlM_ok _ _ _).symm
      all_goals exact triple_give
    | reverse =>
      rcases hc : t.children with _ | ⟨e, rest⟩
      case cons =>
        exact triple_one (F := fun _ => .ok _) hv (VecForm.operands_eq hf (by rw [hc]; rfl))
          fun _ => VecForm.complaint?_eq hf rfl
      all_goals exact triple_give
    | row =>
      rcases hc : t.children with _ | ⟨e, _ | ⟨i, rest⟩⟩
      case cons.cons =>
        refine triple_index hm (VecForm.operands_eq hf (by rw [hc]; rfl)) fun m =>
          VecForm.complaint?_eq hf ?_
        unfold VecForm.complaint?
        rewrite [hc]
        rfl
      all_goals exact triple_give
    | col =>
      rcases hc : t.children with _ | ⟨e, _ | ⟨i, rest⟩⟩
      case cons.cons =>
        refine triple_index hm (VecForm.operands_eq hf (by rw [hc]; rfl)) fun m =>
          VecForm.complaint?_eq hf ?_
        unfold VecForm.complaint?
        rewrite [hc]
        rfl
      all_goals exact triple_give
    | reference =>
      exact triple_reference (VecForm.kind_of_reference hf) hadmits Binding.complaintOf_vector
    | call => exact triple_call hv (VecForm.kind_of_call hf) hadmits
    | literal =>
      have hops : operands .vector t = some (t.children.map fun e => (.number, e)) :=
        VecForm.operands_eq hf rfl
      refine (triple_row hn hops fun _ _ => VecForm.complaint?_eq hf rfl).bind_returns
        fun xs hxs => ?_
      cases hx : Vec.ofList? xs with
      | none => exact triple_give
      | some v =>
        -- a vector has elements, so the node has operands
        have hne : (t.children.map fun e => (ValueSort.number, e)) ≠ [] := by
          intro hnil
          have hlen := hxs.of_mapM.length_eq
          rw [List.map_eq_nil_iff.mp hnil] at hlen
          rw [List.length_eq_zero_iff.mp hlen.symm] at hx
          cases hx
        exact (triple_pure v).mono (fun _ => Focused.whole hops hne) fun _ _ => id

omit hn hm in
/-- A matrix literal. Its rows are compared when the last one has been evaluated. -/
theorem triple_matrixLiteral {t : Tree} (hf : MatForm.ofKind? t.kind = some .literal) :
    Triple (AtNode st t) (t.children.mapM (vectorAt env n) >>= fun vs => lift (Mat.ofRows vs))
      (Focused env st [(.matrix, t)]) (FailsAt env st .matrix t) := by
  have hops : operands .matrix t = some (t.children.map fun e => (.vector, e)) :=
    MatForm.operands_eq hf rfl
  have hcomplaint : ∀ vs, complaint? .matrix t vs =
      if vs.length = t.children.length then (vs.mapM Value.vector?).bind rowsComplaint?
      else none := fun vs => MatForm.complaint?_eq hf rfl
  have hfree : ∀ us, us.length < t.children.length → complaint? .matrix t us = none := by
    intro us hus
    rw [hcomplaint]
    exact if_neg (Nat.ne_of_lt hus)
  refine (triple_row hv hops hfree).bind_returns fun ws hws => ?_
  have hyields := hws.of_mapM.imp fun e w hw => hv.yields e w hw
  cases hm : Mat.ofRows ws with
  | ok m =>
    -- a matrix has rows, so the node has operands
    have hne : (t.children.map fun e => (ValueSort.vector, e)) ≠ [] := by
      intro hnil
      have hlen := hyields.length_eq
      rw [List.map_eq_nil_iff.mp hnil] at hlen
      rw [List.length_eq_zero_iff.mp hlen.symm] at hm
      cases hm
    exact (triple_pure m).mono (fun _ => Focused.whole hops hne) fun _ _ => id
  | error e =>
    refine triple_throw fun T hT d hd => ?_
    subst hd
    have hlen : (ws.map Value.vector).length = t.children.length := by
      rw [List.length_map, hyields.length_eq]
    have hd : complaint? .matrix t (ws.map .vector) = some d := by
      rw [hcomplaint, if_pos hlen, Value.mapM_vector?, Option.bind_some, rowsComplaint?, hm]
    obtain ⟨p, hlast, hrejects⟩ := RejectsAfter.of_last hops (forall₂_operands.mpr hyields)
      (fun us hus => hfree us (hlen ▸ hus)) hd
    obtain ⟨w, hw, hexpr⟩ := hT.2 p hlast
    exact ⟨hT.1, .matrix, t, w, .here _ _, .values hrejects hw, hexpr⟩

/-- One level of the evaluator of matrix expressions. -/
theorem matrix_focus (t : Tree) :
    Triple (·.statement = st) (matrixAt env (n + 1) t) (Focused env st [(.matrix, t)])
      (FailsAt env st .matrix t) := by
  rw [matrixAt]
  refine (triple_enter t).bind fun _ => ?_
  cases hf : MatForm.ofKind? t.kind with
  | none => exact triple_unadmitted (by rw [ValueSort.admits, hf]; rfl)
  | some f =>
    have hadmits : ValueSort.matrix.admits t.kind = true := by rw [ValueSort.admits, hf]; rfl
    cases f with
    | chain =>
      rcases hc : t.children with _ | ⟨e, rest⟩
      case cons =>
        refine triple_chain (e := fun p : Tree × Tree => p.2)
          (k := fun u p w => Mat.chainStep p.1.kind u w) hm
          (MatForm.operands_eq hf (by rw [hc]; rfl)) fun u ws _ => MatForm.complaint?_eq hf ?_
        unfold MatForm.complaint?
        rw [hc]
        show ((ws.map Value.matrix).mapM Value.matrix?).bind _ = _
        rw [Value.mapM_matrix?]
        rfl
      all_goals exact triple_give
    | map =>
      rcases hc : t.children with _ | ⟨op, _ | ⟨e, rest⟩⟩
      case cons.cons =>
        exact triple_one (F := fun _ => .ok _) hm (MatForm.operands_eq hf (by rw [hc]; rfl))
          fun _ => MatForm.complaint?_eq hf rfl
      all_goals exact triple_give
    | premap =>
      rcases hc : t.children with _ | ⟨op, _ | ⟨e₁, _ | ⟨e₂, rest⟩⟩⟩
      case cons.cons.cons =>
        exact triple_two (F := fun _ _ => .ok _) hn hm (MatForm.operands_eq hf (by rw [hc]; rfl))
          (fun _ => MatForm.complaint?_eq hf rfl) fun _ _ => MatForm.complaint?_eq hf rfl
      all_goals exact triple_give
    | postmap =>
      rcases hc : t.children with _ | ⟨e₁, _ | ⟨op, _ | ⟨e₂, rest⟩⟩⟩
      case cons.cons.cons =>
        exact triple_two (F := fun _ _ => .ok _) hn hm (MatForm.operands_eq hf (by rw [hc]; rfl))
          (fun _ => MatForm.complaint?_eq hf rfl) fun _ _ => MatForm.complaint?_eq hf rfl
      all_goals exact triple_give
    | apply =>
      rcases hc : t.children with _ | ⟨op, _ | ⟨e, rest⟩⟩
      case cons.cons =>
        refine triple_apply (k := Mat.apply op.kind) hm (MatForm.operands_eq hf (by rw [hc]; rfl))
          fun u ws => MatForm.complaint?_eq hf ?_
        unfold MatForm.complaint?
        rw [hc]
        show ((ws.map Value.matrix).mapM Value.matrix?).bind _ = _
        rw [Value.mapM_matrix?]
        rfl
      all_goals exact triple_give
    | transpose =>
      rcases hc : t.children with _ | ⟨e, rest⟩
      case cons =>
        exact triple_one (F := fun _ => .ok _) hm (MatForm.operands_eq hf (by rw [hc]; rfl))
          fun _ => MatForm.complaint?_eq hf rfl
      all_goals exact triple_give
    | product =>
      rcases hc : t.children with _ | ⟨e₁, _ | ⟨e₂, rest⟩⟩
      case cons.cons =>
        exact triple_two (F := Mat.product) hm hm (MatForm.operands_eq hf (by rw [hc]; rfl))
          (fun _ => MatForm.complaint?_eq hf rfl) fun _ _ => MatForm.complaint?_eq hf rfl
      all_goals exact triple_give
    | reference =>
      exact triple_reference (MatForm.kind_of_reference hf) hadmits Binding.complaintOf_matrix
    | call => exact triple_call hm (MatForm.kind_of_call hf) hadmits
    | literal => exact triple_matrixLiteral hv hf

end

/-- The levels of all depths. -/
theorem focusBelow (env : Env) (st : Option Tree) (n : Nat) :
    FocusBelow env n st .number (numberAt env n) .number ∧
      FocusBelow env n st .vector (vectorAt env n) .vector ∧
      FocusBelow env n st .matrix (matrixAt env n) .matrix := by
  induction n with
  | zero =>
    obtain ⟨hn, hv, hm⟩ := levels env 0
    refine ⟨⟨hn, fun e => ?_⟩, ⟨hv, fun e => ?_⟩, ⟨hm, fun e => ?_⟩⟩
    · rw [numberAt]
      exact triple_give
    · rw [vectorAt]
      exact triple_give
    · rw [matrixAt]
      exact triple_give
  | succ n ih =>
    obtain ⟨hn, hv, hm⟩ := ih
    obtain ⟨hn', hv', hm'⟩ := levels env (n + 1)
    exact ⟨⟨hn', number_focus hn hv hm⟩, ⟨hv', vector_focus hn hv hm⟩,
      ⟨hm', matrix_focus hn hv hm⟩⟩

/-- The focus of an evaluation. -/
theorem triple_evaluateAt (env : Env) (st : Option Tree) (s : ValueSort) (n : Nat) (t : Tree) :
    Triple (·.statement = st) (evaluateAt env s n t) (Focused env st [(s, t)])
      (FailsAt env st s t) := by
  obtain ⟨hn, hv, hm⟩ := focusBelow env st n
  cases s with
  | number =>
    rw [evaluateAt, map_eq_pure_bind]
    exact (hn.triple t).bind fun _ => triple_pure _
  | vector =>
    rw [evaluateAt, map_eq_pure_bind]
    exact (hv.triple t).bind fun _ => triple_pure _
  | matrix =>
    rw [evaluateAt, map_eq_pure_bind]
    exact (hm.triple t).bind fun _ => triple_pure _

/-! ## Statements and programs -/

section

variable {env : Env} {t : Tree} {l : SourceLet} {I : Trace → Prop}

/-- A `let` whose expression has no value fails with its expression. -/
theorem triple_lowerLet (hlet : t.asLet? = some l) (hno : ∀ v, ¬ Yields env l.sort l.expr v) :
    Triple I (lowerLet env t) (fun _ => False) (FailsAt env (some t) l.sort l.expr) := by
  unfold Tree.asLet? at hlet
  split at hlet
  · next s x e rest hs hc =>
    cases hlet
    refine (triple_note (J := (·.statement = some t)) fun _ _ => rfl).bind fun _ => ?_
    rw [hc]
    dsimp only
    rw [letValue_eq hs, evaluate_eq_evaluateAt]
    -- a result would be a value of the expression, so there is no second part
    refine (triple_evaluateAt env (some t) s _ e).bind_returns fun v hv => ?_
    exact absurd (yields_of_evaluateAt hv) (hno v)
  · cases hlet

theorem triple_lowerStatement {files : FileStore} (hlet : t.asLet? = some l)
    (hno : ∀ v, ¬ Yields env l.sort l.expr v) :
    Triple I (lowerStatement files env t) (fun _ => False)
      (FailsAt env (some t) l.sort l.expr) := by
  obtain ⟨s, hs⟩ : ∃ s, letSort? t.kind = some s := by
    by_contra hnone
    rw [asLet?_eq_none (Option.eq_none_iff_forall_ne_some.mpr fun s hs => hnone ⟨s, hs⟩)] at hlet
    cases hlet
  have hstep : Triple I (lowerLet env t >>= fun p => pure (p.1, some p.2)) (fun _ => False)
      (FailsAt env (some t) l.sort l.expr) :=
    (triple_lowerLet hlet hno).bind fun _ => triple_pure _
  unfold lowerStatement
  rcases kind_of_letSort? hs with ⟨hkind, -⟩ | ⟨hkind, -⟩ | ⟨hkind, -⟩ <;>
  · rw [hkind]
    exact hstep

end

/-- Only the lowering of its statements rejects a program; what comes before can but be a fault. -/
theorem error_of_lowerProgram {files : FileStore} {env : Env} {program : Tree} {d : Diagnostic}
    {trace trace' : Trace}
    (h : (lowerProgram files env program).runFrom trace = (.error (.diagnostic d), trace')) :
    ∃ statements, Library.statements program = .ok statements ∧
      (lowerStatements files env statements).runFrom trace = (.error (.diagnostic d), trace') := by
  unfold lowerProgram at h
  split at h
  · cases h
  · split at h
    · cases h
    · next statements hstatements =>
      refine ⟨statements, hstatements, ?_⟩
      rw [runFrom_bind] at h
      cases hx : (lowerStatements files env statements).runFrom trace with
      | mk r trace₁ =>
        rw [hx] at h
        cases r with
        | ok a => cases h
        | error e =>
          cases h
          rfl

/-- A program that is rejected is rejected at one of its statements. If this is a `let` whose
expression has no value, the statement in focus is the `let`, and evaluation has come to a node that
is rejected. The expression in focus is this node if it is rejected on entry. If it rejects the
value of an operand, the expression in focus is another one: the last one that was entered for this
operand. -/
theorem lowering_failure_focus {files : FileStore} {env : Env} {program : Tree} {d : Diagnostic}
    {trace trace' : Trace}
    (h : (lowerProgram files env program).runFrom trace = (.error (.diagnostic d), trace')) :
    ∃ before t after env₁ lines trace₁, Library.statements program = .ok (before ++ t :: after) ∧
      (lowerStatements files env before).runFrom trace = (.ok (env₁, lines), trace₁) ∧
      (lowerStatement files env₁ t).runFrom trace₁ = (.error (.diagnostic d), trace') ∧
      ∀ l, t.asLet? = some l → (∀ v, ¬ Yields env₁ l.sort l.expr v) →
        trace'.statement = some t ∧ ∃ s u, Reaches env₁ l.sort l.expr s u ∧
          ((entryComplaint? env₁ s u = some d ∧ trace'.expression = some u) ∨
            ∃ p w, RejectsAfter env₁ s u d p ∧ LastEntered env₁ p.1 p.2 w ∧
              trace'.expression = some w ∧ w ≠ u) := by
  obtain ⟨statements, hstatements, hrun⟩ := error_of_lowerProgram h
  obtain ⟨before, t, after, env₁, lines, trace₁, rfl, hbefore, ht⟩ := error_of_lowerStatements hrun
  refine ⟨before, t, after, env₁, lines, trace₁, hstatements, hbefore, ht, fun l hl hno => ?_⟩
  -- the statements before have left some trace; entering the `let` sets the whole focus
  have hfails : FailsAt env₁ (some t) l.sort l.expr (.diagnostic d) trace' :=
    (triple_lowerStatement (I := fun _ => True) hl hno).error trivial ht
  obtain ⟨hst, s, u, w, hreaches, hrejected, hexpr⟩ := hfails d rfl
  refine ⟨hst, s, u, hreaches, ?_⟩
  cases hrejected with
  | entry hentry => exact .inl ⟨hentry, hexpr⟩
  | @values p _ hrejects hlast =>
    exact .inr ⟨p, w, hrejects, hlast, hexpr, hrejects.ne_lastEntered hlast⟩

/-! ## The sum of vectors of two lengths -/

/-- A vector of numbers as they are written. -/
def writtenVector (numbers : List String) : Tree :=
  .node "vector" (numbers.map fun n => .leaf "number" (some (.text n)))

/-- The expression `[1, 2] + [3]`. -/
def unequalSum : Tree :=
  .node "vec_binary" [writtenVector ["1", "2"], .leaf "vec_add" none, writtenVector ["3"]]

/-- The statement `let vector V = [1, 2] + [3]`. -/
def unequalLet : Tree :=
  .node "let_vec" [.leaf "variable" (some (.text "V")), unequalSum]

/-- A program with this statement alone. -/
def unequalProgram : Tree :=
  .node "program" [.node "line" [unequalLet]]

theorem yields_writtenVector :
    Yields .empty .vector (writtenVector ["1", "2"])
        (.vector ⟨[.literal (.int 1), .literal (.int 2)], by simp⟩) ∧
      Yields .empty .vector (writtenVector ["3"]) (.vector ⟨[.literal (.int 3)], by simp⟩) := by
  have hv := (yields_of_returns .empty 2).2.1
  exact ⟨hv _ _ ⟨.start, _, rfl⟩, hv _ _ ⟨.start, _, rfl⟩⟩

/-- The sum rejects its second operand. -/
theorem rejectsAfter_unequalSum :
    RejectsAfter .empty .vector unequalSum (.lengthMismatch "vec_add")
      (.vector, writtenVector ["3"]) := by
  obtain ⟨h₁, h₂⟩ := yields_writtenVector
  exact ⟨[(.vector, writtenVector ["1", "2"])], _, [], _, ⟨rfl, .cons h₁ .nil, rfl⟩, h₂, rfl⟩

theorem not_yields_unequalSum (v : Value) : ¬ Yields .empty .vector unequalSum v := by
  obtain ⟨h₁, h₂⟩ := yields_writtenVector
  have hops : operands .vector unequalSum =
      some [(.vector, writtenVector ["1", "2"]), (.vector, writtenVector ["3"])] := rfl
  exact Yields.not_of_build hops (.cons h₁ (.cons h₂ .nil)) rfl v

/-- The node that is rejected is not the one in focus, which is the last number. -/
theorem unequalSum_out_of_focus :
    ∃ trace, (lowerProgram [] .empty unequalProgram).runFrom .start =
        (.error (.diagnostic (.lengthMismatch "vec_add")), trace) ∧
      RejectsAfter .empty .vector unequalSum (.lengthMismatch "vec_add")
        (.vector, writtenVector ["3"]) ∧
      trace.expression = some (.leaf "number" (some (.text "3"))) ∧
      trace.expression ≠ some unequalSum :=
  ⟨_, rfl, rejectsAfter_unequalSum, rfl, fun h => by cases h⟩

theorem lowering_failure_focus_unequalSum :
    ∃ trace, (lowerProgram [] .empty unequalProgram).runFrom .start =
        (.error (.diagnostic (.lengthMismatch "vec_add")), trace) ∧
      trace.statement = some unequalLet ∧
      ∃ s u, Reaches .empty .vector unequalSum s u ∧
        ((entryComplaint? .empty s u = some (.lengthMismatch "vec_add") ∧
            trace.expression = some u) ∨
          ∃ p w, RejectsAfter .empty s u (.lengthMismatch "vec_add") p ∧
            LastEntered .empty p.1 p.2 w ∧ trace.expression = some w ∧ w ≠ u) := by
  have hrun : (lowerProgram [] .empty unequalProgram).runFrom .start =
      (.error (.diagnostic (.lengthMismatch "vec_add")),
        ⟨some unequalLet, some (.leaf "number" (some (.text "3"))), none, false⟩) := rfl
  refine ⟨_, hrun, ?_⟩
  obtain ⟨before, t, after, env₁, lines, trace₁, hstatements, hbefore, -, hfocus⟩ :=
    lowering_failure_focus hrun
  have hlist : [unequalLet] = before ++ t :: after := Except.ok.inj hstatements
  cases before with
  | nil =>
    obtain ⟨rfl, -⟩ := List.cons.inj hlist
    cases hbefore
    exact hfocus ⟨.vector, "V", unequalSum⟩ rfl not_yields_unequalSum
  | cons b bs => exact absurd (congrArg List.length hlist) (by simp)

end Scalarize
