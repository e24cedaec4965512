import Scalarize.Proofs.Unfolding

/-!
# Scalarize — more depth changes no value

The evaluators are given a limit of depth, and a form is given more of it than its operands have on
their own. A value that has been found with little depth is found again with more, whatever macros
there are.

* **`unfolds_of_evaluateAt`** — an evaluator that succeeds has gone down every operand and every
  body below its node, so the expression unfolds within the limit. The induction is on the depth.
* **`evaluate_of_operands`** — a form whose operands have values on their own has what it makes of
  these values.
-/

namespace Scalarize

open Traced

/-! ## The parts of a computation that succeeds -/

namespace Traced

variable {α β γ : Type}

/-- Entering an expression decides nothing. -/
theorem Returns.of_enterExpression {e : Tree} {f : Unit → Traced β} {b : β}
    (h : (enterExpression e >>= f).Returns b) : (f ()).Returns b :=
  h.ends.of_note

/-- A loop that succeeds has computed something for each element. -/
theorem Returns.each_of_foldlM {f : β → Traced γ} {k : α → β → γ → Traced α} {bs : List β} {a z : α}
    (h : (bs.foldlM (fun a b => f b >>= k a b) a).Returns z) : ∀ b ∈ bs, ∃ c, (f b).Returns c := by
  induction bs generalizing a with
  | nil => exact fun b hb => absurd hb List.not_mem_nil
  | cons b bs ih =>
    rw [List.foldlM_cons] at h
    obtain ⟨a', ha', h⟩ := h.of_bind
    obtain ⟨c, hc, -⟩ := ha'.of_bind
    exact List.forall_mem_cons.mpr ⟨⟨c, hc⟩, ih h⟩

end Traced

/-- Expressions have values at a depth, each in its sort. -/
def AllReturn (env : Env) (n : Nat) (ops : List (ValueSort × Tree)) : Prop :=
  ∀ p ∈ ops, ∃ v, (evaluateAt env p.1 n p.2).Returns v

section

variable {env : Env} {n : Nat} {s s' : ValueSort} {t e e' : Tree} {α β γ : Type}
  {eval : Tree → Traced β} {eval' : Tree → Traced γ} {a : α}

/-- The evaluator is the one of a sort, with values of a type of its own. -/
def EvaluatorOf (env : Env) (n : Nat) (s : ValueSort) (eval : Tree → Traced β) : Prop :=
  ∀ e b, (eval e).Returns b → ∃ v, (evaluateAt env s n e).Returns v

theorem evaluatorOf_number : EvaluatorOf env n .number (numberAt env n) :=
  fun _ x h => ⟨.number x, ends_map.mpr ⟨.ok x, h, rfl⟩⟩

theorem evaluatorOf_vector : EvaluatorOf env n .vector (vectorAt env n) :=
  fun _ v h => ⟨.vector v, ends_map.mpr ⟨.ok v, h, rfl⟩⟩

theorem evaluatorOf_matrix : EvaluatorOf env n .matrix (matrixAt env n) :=
  fun _ m h => ⟨.matrix m, ends_map.mpr ⟨.ok m, h, rfl⟩⟩

theorem AllReturn.of_one {k : β → Traced α} (heval : EvaluatorOf env n s eval)
    (h : (eval e >>= k).Returns a) : AllReturn env n [(s, e)] := by
  obtain ⟨b, hb, -⟩ := h.of_bind
  exact List.forall_mem_singleton.mpr (heval e b hb)

theorem AllReturn.of_two {k : β → γ → Traced α} (heval : EvaluatorOf env n s eval)
    (heval' : EvaluatorOf env n s' eval')
    (h : (eval e >>= fun b => eval' e' >>= k b).Returns a) :
    AllReturn env n [(s, e), (s', e')] := by
  obtain ⟨b, hb, h⟩ := h.of_bind
  exact List.forall_mem_cons.mpr ⟨heval e b hb, AllReturn.of_one heval' h⟩

/-- The first operand, and then a loop through the others. -/
theorem AllReturn.of_loop {e : γ → Tree} {e₀ : Tree} {k : β → γ → β → Traced β} {bs : List γ}
    {z : β} (heval : EvaluatorOf env n s eval)
    (h : (eval e₀ >>= fun b => bs.foldlM (fun b c => eval (e c) >>= k b c) b).Returns z) :
    AllReturn env n ((s, e₀) :: bs.map fun c => (s, e c)) := by
  obtain ⟨b, hb, h⟩ := h.of_bind
  refine List.forall_mem_cons.mpr ⟨heval e₀ b hb, List.forall_mem_map.mpr fun c hc => ?_⟩
  obtain ⟨b', hb'⟩ := h.each_of_foldlM c hc
  exact heval (e c) b' hb'

/-- Operands that are evaluated in a row. -/
theorem AllReturn.of_row {es : List Tree} {k : List β → Traced α}
    (heval : EvaluatorOf env n s eval) (h : (es.mapM eval >>= k).Returns a) :
    AllReturn env n (es.map fun e => (s, e)) := by
  obtain ⟨bs, hbs, -⟩ := h.of_bind
  refine List.forall_mem_map.mpr fun e he => ?_
  obtain ⟨b, -, hb⟩ := exists_of_forall₂ hbs.of_mapM he
  exact heval e b hb

end

/-! ## One level -/

section

variable {env : Env} {n : Nat} {t : Tree} {ops : List (ValueSort × Tree)}

/-- A number expression with a value has evaluated its operands. -/
theorem allReturn_of_numberAt {x : Num} (h : (numberAt env (n + 1) t).Returns x)
    (hops : operands .number t = some ops) : AllReturn env n ops := by
  rw [numberAt] at h
  replace h := h.of_enterExpression
  obtain ⟨f, hf, hops⟩ := Option.bind_eq_some_iff.mp hops
  rw [hf] at h
  cases f with
  | chain =>
    rcases hc : t.children with _ | ⟨e, rest⟩ <;> rw [hc] at h hops <;> cases hops
    exact .of_loop evaluatorOf_number h
  | unaryChain =>
    cases hl : t.children.getLast? with
    | none => rw [NumForm.operands, hl] at hops; cases hops
    | some e =>
      rw [hl] at h
      rw [NumForm.operands, hl] at hops
      cases hops
      exact .of_one evaluatorOf_number h
  | reduce =>
    rcases hc : t.children with _ | ⟨op, _ | ⟨e, rest⟩⟩ <;> rw [hc] at h hops <;> cases hops
    exact .of_one evaluatorOf_vector h
  | dot =>
    rcases hc : t.children with _ | ⟨e, _ | ⟨e', rest⟩⟩ <;> rw [hc] at h hops <;> cases hops
    exact .of_two evaluatorOf_vector evaluatorOf_vector h
  | len =>
    rcases hc : t.children with _ | ⟨e, rest⟩ <;> rw [hc] at h hops <;> cases hops
    exact .of_one evaluatorOf_vector h
  | rows | cols =>
    rcases hc : t.children with _ | ⟨e, rest⟩ <;> rw [hc] at h hops <;> cases hops
    exact .of_one evaluatorOf_matrix h
  | vecElem =>
    rcases hc : t.children with _ | ⟨e, _ | ⟨i, rest⟩⟩ <;> rw [hc] at h hops <;> cases hops
    exact .of_one evaluatorOf_vector h
  | matElem =>
    rcases hc : t.children with _ | ⟨e, _ | ⟨i, _ | ⟨j, rest⟩⟩⟩ <;> rw [hc] at h hops <;>
      cases hops
    exact .of_one evaluatorOf_matrix h
  | external | literal =>
    cases hops
    exact fun p hp => absurd hp List.not_mem_nil
  | reference | call => cases hops

/-- A vector expression with a value has evaluated its operands. -/
theorem allReturn_of_vectorAt {v : Vec} (h : (vectorAt env (n + 1) t).Returns v)
    (hops : operands .vector t = some ops) : AllReturn env n ops := by
  rw [vectorAt] at h
  replace h := h.of_enterExpression
  obtain ⟨f, hf, hops⟩ := Option.bind_eq_some_iff.mp hops
  rw [hf] at h
  cases f with
  | chain =>
    rcases hc : t.children with _ | ⟨e, rest⟩ <;> rw [hc] at h hops <;> cases hops
    exact .of_loop evaluatorOf_vector h
  | map =>
    rcases hc : t.children with _ | ⟨op, _ | ⟨e, rest⟩⟩ <;> rw [hc] at h hops <;> cases hops
    exact .of_one evaluatorOf_vector h
  | premap | postmap =>
    rcases hc : t.children with _ | ⟨c, _ | ⟨c', _ | ⟨e, rest⟩⟩⟩ <;> rw [hc] at h hops <;>
      cases hops
    exact .of_two evaluatorOf_number evaluatorOf_vector h
  | apply =>
    rcases hc : t.children with _ | ⟨op, _ | ⟨e, rest⟩⟩ <;> rw [hc] at h hops <;> cases hops
    -- the loop goes through all operands, the first one included
    have hall := AllReturn.of_loop evaluatorOf_vector h
    exact fun p hp => hall p (List.mem_cons_of_mem _ hp)
  | concat =>
    rcases hc : t.children with _ | ⟨e, rest⟩ <;> rw [hc] at h hops <;> cases hops
    exact .of_loop evaluatorOf_vector h
  | reverse =>
    rcases hc : t.children with _ | ⟨e, rest⟩ <;> rw [hc] at h hops <;> cases hops
    exact .of_one evaluatorOf_vector h
  | row | col =>
    rcases hc : t.children with _ | ⟨e, _ | ⟨i, rest⟩⟩ <;> rw [hc] at h hops <;> cases hops
    exact .of_one evaluatorOf_matrix h
  | literal =>
    cases hops
    exact .of_row evaluatorOf_number h
  | reference | call => cases hops

/-- A matrix expression with a value has evaluated its operands. -/
theorem allReturn_of_matrixAt {m : Mat} (h : (matrixAt env (n + 1) t).Returns m)
    (hops : operands .matrix t = some ops) : AllReturn env n ops := by
  rw [matrixAt] at h
  replace h := h.of_enterExpression
  obtain ⟨f, hf, hops⟩ := Option.bind_eq_some_iff.mp hops
  rw [hf] at h
  cases f with
  | chain =>
    rcases hc : t.children with _ | ⟨e, rest⟩ <;> rw [hc] at h hops <;> cases hops
    exact .of_loop evaluatorOf_matrix h
  | map =>
    rcases hc : t.children with _ | ⟨op, _ | ⟨e, rest⟩⟩ <;> rw [hc] at h hops <;> cases hops
    exact .of_one evaluatorOf_matrix h
  | premap | postmap =>
    rcases hc : t.children with _ | ⟨c, _ | ⟨c', _ | ⟨e, rest⟩⟩⟩ <;> rw [hc] at h hops <;>
      cases hops
    exact .of_two evaluatorOf_number evaluatorOf_matrix h
  | apply =>
    rcases hc : t.children with _ | ⟨op, _ | ⟨e, rest⟩⟩ <;> rw [hc] at h hops <;> cases hops
    have hall := AllReturn.of_loop evaluatorOf_matrix h
    exact fun p hp => hall p (List.mem_cons_of_mem _ hp)
  | transpose =>
    rcases hc : t.children with _ | ⟨e, rest⟩ <;> rw [hc] at h hops <;> cases hops
    exact .of_one evaluatorOf_matrix h
  | product =>
    rcases hc : t.children with _ | ⟨e, _ | ⟨e', rest⟩⟩ <;> rw [hc] at h hops <;> cases hops
    exact .of_two evaluatorOf_matrix evaluatorOf_matrix h
  | literal =>
    cases hops
    exact .of_row evaluatorOf_vector h
  | reference | call => cases hops

/-- A call with a value has evaluated the body of its macro. -/
theorem returns_of_expandCall {s : ValueSort} {α : Type} {eval : Tree → Traced α} {a : α}
    {body : Tree} (heval : EvaluatorOf env n s eval)
    (h : (expandCall env s t.children >>= eval).Returns a)
    (hbody : expansion? env.macros t = some body) :
    ∃ v, (evaluateAt env s n body).Returns v := by
  obtain ⟨body', hbody', h⟩ := h.of_bind
  rcases ends_expandCall hbody'.ends with ⟨_, heq, hexp⟩ | ⟨_, heq, -⟩ | ⟨-, heq⟩ <;> cases heq
  obtain rfl := Option.some.inj (hbody.symm.trans (expansion_of_sorted hexp))
  exact heval body a h

end

/-! ## All levels -/

variable {env : Env} {s : ValueSort} {n : Nat} {t : Tree} {v : Value}

theorem allReturn_of_evaluateAt {ops : List (ValueSort × Tree)}
    (h : (evaluateAt env s (n + 1) t).Returns v) (hops : operands s t = some ops) :
    AllReturn env n ops := by
  cases s with
  | number =>
    obtain ⟨_ | x, hx, hv⟩ := ends_map.mp h.ends <;> cases hv
    exact allReturn_of_numberAt hx hops
  | vector =>
    obtain ⟨_ | x, hx, hv⟩ := ends_map.mp h.ends <;> cases hv
    exact allReturn_of_vectorAt hx hops
  | matrix =>
    obtain ⟨_ | x, hx, hv⟩ := ends_map.mp h.ends <;> cases hv
    exact allReturn_of_matrixAt hx hops

theorem body_of_evaluateAt {body : Tree} (h : (evaluateAt env s (n + 1) t).Returns v)
    (hkind : t.kind = "call") (hbody : expansion? env.macros t = some body) :
    ∃ w, (evaluateAt env s n body).Returns w := by
  cases s with
  | number =>
    obtain ⟨_ | x, hx, hv⟩ := ends_map.mp h.ends <;> cases hv
    rw [numberAt, hkind] at hx
    exact returns_of_expandCall evaluatorOf_number (Returns.of_enterExpression hx) hbody
  | vector =>
    obtain ⟨_ | x, hx, hv⟩ := ends_map.mp h.ends <;> cases hv
    rw [vectorAt, hkind] at hx
    exact returns_of_expandCall evaluatorOf_vector (Returns.of_enterExpression hx) hbody
  | matrix =>
    obtain ⟨_ | x, hx, hv⟩ := ends_map.mp h.ends <;> cases hv
    rw [matrixAt, hkind] at hx
    exact returns_of_expandCall evaluatorOf_matrix (Returns.of_enterExpression hx) hbody

/-- An expression that has a value at a depth unfolds within it. -/
theorem unfolds_of_evaluateAt (h : (evaluateAt env s n t).Returns v) : Unfolds env.macros n t := by
  induction n generalizing s t v with
  | zero => cases evaluateAt_zero_ends h.ends
  | succ n ih =>
    refine ⟨fun s' ops hops p hp => ?_, fun hkind body hbody => ?_⟩
    · -- the operands are those of the sort in which the expression has its value
      obtain ⟨vs, hvs⟩ : ∃ ops', operands s t = some ops' := by
        cases yields_of_evaluateAt h with
        | reference hkind => rw [operands_variable hkind] at hops; cases hops
        | call hkind => rw [operands_call hkind] at hops; cases hops
        | form hops' => exact ⟨_, hops'⟩
      obtain ⟨rfl, -⟩ := operands_unique hops hvs
      obtain ⟨w, hw⟩ := allReturn_of_evaluateAt h hops p hp
      exact ih hw
    · obtain ⟨w, hw⟩ := body_of_evaluateAt h hkind hbody
      exact ih hw

theorem depthBound_pos (env : Env) (t : Tree) : 0 < depthBound env t :=
  Nat.pow_pos (by omega)

theorem depthBound_lt (env : Env) {c : Tree} (hc : c ∈ t.children) :
    depthBound env c < depthBound env t := by
  have hsize := Tree.size_lt_of_mem_children hc
  exact Nat.pow_lt_pow_left (by omega) (by omega)

/-- A form over operands that have values has what it makes of these. -/
theorem evaluate_of_operands {ops : List (ValueSort × Tree)} {vs : List Value}
    (hops : operands s t = some ops)
    (h : List.Forall₂ (fun p w => (evaluate env p.1 p.2).Returns w) ops vs)
    (hbuild : build env s t vs = some v) (trace : Trace) :
    ((evaluate env s t).runFrom trace).1 = .ok v := by
  simp only [evaluate_eq_evaluateAt] at h ⊢
  have hyields : Yields env s t v :=
    .of_forall₂ hops (h.imp fun p w hw => yields_of_evaluateAt hw) hbuild
  obtain ⟨k, hk⟩ := Nat.exists_eq_add_one_of_ne_zero (depthBound_pos env t).ne'
  refine hyields.ok_of_ends ?_ (ends_runFrom _ trace)
  rw [hk]
  refine .of_operands hops fun p hp => ?_
  obtain ⟨w, -, hw⟩ := exists_of_forall₂ h hp
  have hlt := depthBound_lt env (mem_children_of_mem_operands hops hp)
  exact (unfolds_of_evaluateAt hw).mono (by omega)

end Scalarize
