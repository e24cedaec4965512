import Scalarize.Proofs.Evaluators
import Scalarize.Proofs.NodeChecks

/-!
# Scalarize — where evaluation stands

An evaluator enters a node before it looks at it and does not set the focus back when it leaves one.
So after the evaluation of an expression the focus is on the node that was entered last. A check
that is made on entry finds the focus on its own node; a check of the values of the operands finds
it inside the operand that was evaluated last.

* **`Focused`** — the focus after the evaluation of some operands.
* **`FailsAt`** — the focus after a failure, by the node that is rejected.
* **`triple_one`**, **`triple_two`**, **`triple_chain`**, **`triple_apply`**, **`triple_row`** — the
  forms, by the way in which they go through their operands.
* **`triple_reference`**, **`triple_call`** — variables and macro calls.
-/

namespace Scalarize

open Traced

/-! ## The focus -/

/-- The statement is as before, and the focus is on the node that was entered last for the last one
of the operands. -/
def Focused (env : Env) (st : Option Tree) (done : List (ValueSort × Tree)) (T : Trace) : Prop :=
  T.statement = st ∧
    ∀ p, done.getLast? = some p → ∃ w, LastEntered env p.1 p.2 w ∧ T.expression = some w

/-- The statement is as before, and the focus is on the node. -/
def AtNode (st : Option Tree) (t : Tree) (T : Trace) : Prop :=
  T.statement = st ∧ T.expression = some t

/-- A node is rejected while the focus is on `w`. -/
inductive RejectedAt (env : Env) (s : ValueSort) (t : Tree) (d : Diagnostic) : Tree → Prop where
  | entry (h : entryComplaint? env s t = some d) : RejectedAt env s t d t
  | values {p w} (h : RejectsAfter env s t d p) (hlast : LastEntered env p.1 p.2 w) :
      RejectedAt env s t d w

/-- If the failure is a diagnostic, the statement is as before, and evaluation of the expression has
come to a node that is rejected with it. -/
def FailsAt (env : Env) (st : Option Tree) (s : ValueSort) (t : Tree) (e : Failure) (T : Trace) :
    Prop :=
  ∀ d, e = .diagnostic d → T.statement = st ∧
    ∃ s' u w, Reaches env s t s' u ∧ RejectedAt env s' u d w ∧ T.expression = some w

section

variable {env : Env} {st : Option Tree} {s : ValueSort} {t : Tree} {T : Trace}
  {done ops : List (ValueSort × Tree)}

theorem AtNode.focused_nil (h : AtNode st t T) : Focused env st [] T :=
  ⟨h.1, fun _ hp => by cases hp⟩

theorem AtNode.focused (hplain : IsPlain t) (h : AtNode st t T) : Focused env st [(s, t)] T := by
  refine ⟨h.1, fun p hp => ?_⟩
  cases hp
  exact ⟨t, .plain hplain, h.2⟩

theorem focused_concat {p : ValueSort × Tree} :
    Focused env st (done ++ [p]) T ↔ Focused env st [p] T := by
  unfold Focused
  rw [List.getLast?_concat, List.getLast?_singleton]

/-- The operands of a node are the last thing that is evaluated for it. -/
theorem Focused.whole (hops : operands s t = some ops) (hne : ops ≠ [])
    (h : Focused env st ops T) : Focused env st [(s, t)] T := by
  obtain ⟨p, hlast⟩ := Option.ne_none_iff_exists'.mp (mt List.getLast?_eq_none_iff.mp hne)
  obtain ⟨w, hw, hexpr⟩ := h.2 p hlast
  refine ⟨h.1, fun q hq => ?_⟩
  cases hq
  exact ⟨w, .operand hops hlast hw, hexpr⟩

theorem Focused.of_body {body : Tree} (hkind : t.kind = "call")
    (hbody : sortedExpansion? env.macros s t = some body) (h : Focused env st [(s, body)] T) :
    Focused env st [(s, t)] T := by
  obtain ⟨w, hw, hexpr⟩ := h.2 _ rfl
  refine ⟨h.1, fun q hq => ?_⟩
  cases hq
  exact ⟨w, .body hkind hbody hw, hexpr⟩

variable {I J : Trace → Prop} {α : Type}

/-- A fault is no diagnostic. -/
theorem triple_give {f : Fault} : Triple I (give f : Traced α) J (FailsAt env st s t) :=
  triple_throw fun _ _ _ h => by cases h

/-- A check that looks at the node alone. -/
theorem triple_entry {x : Except Diagnostic α}
    (hx : ∀ d, x = .error d → entryComplaint? env s t = some d) :
    Triple (AtNode st t) (check x) (AtNode st t) (FailsAt env st s t) := by
  refine triple_check fun d T hd hT d' hd' => ?_
  cases hd'
  exact ⟨hT.1, s, t, t, .here s t, .entry (hx d hd), hT.2⟩

/-- A check of the values of the first operands. -/
theorem triple_values {x : Except Diagnostic α} {vs : List Value} {v : Value}
    {p : ValueSort × Tree} {rest : List (ValueSort × Tree)}
    (hprogress : Progress env s t done vs (p :: rest)) (hv : Yields env p.1 p.2 v)
    (hx : complaint? s t (vs ++ [v]) = complaintOf x) :
    Triple (Focused env st (done ++ [p])) (check x) (Focused env st (done ++ [p]))
      (FailsAt env st s t) := by
  refine triple_check fun d T hd hT d' hd' => ?_
  cases hd'
  obtain ⟨w, hw, hexpr⟩ := (focused_concat.mp hT).2 p rfl
  rw [hd] at hx
  exact ⟨hT.1, s, t, w, .here s t, .values ⟨done, vs, rest, v, hprogress, hv, hx⟩ hw, hexpr⟩

end

/-! ## One level -/

/-- The levels below for one sort, with what is known of the focus. -/
structure FocusBelow (env : Env) (n : Nat) (st : Option Tree) (s : ValueSort) {β : Type}
    (eval : Tree → Traced β) (val : β → Value) : Prop extends LevelBelow env n s eval val where
  triple : ∀ e, Triple (·.statement = st) (eval e) (Focused env st [(s, e)]) (FailsAt env st s e)

section

variable {env : Env} {n : Nat} {st : Option Tree} {s s' : ValueSort} {t e : Tree}
  {done rest ops : List (ValueSort × Tree)} {vs : List Value} {α β γ : Type}
  {eval : Tree → Traced β} {val : β → Value}

/-- The next operand of a node is evaluated. -/
theorem triple_operand (hbelow : FocusBelow env n st s' eval val)
    (hprogress : Progress env s t done vs ((s', e) :: rest)) :
    Triple (·.statement = st) (eval e) (Focused env st (done ++ [(s', e)]))
      (FailsAt env st s t) := by
  refine (hbelow.triple e).mono (fun T => focused_concat.mpr) fun f T hf d hd => ?_
  obtain ⟨hst, s'', u, w, hreaches, hrejected, hexpr⟩ := hf d hd
  exact ⟨hst, s'', u, w, .operand hprogress hreaches, hrejected, hexpr⟩

/-- A form with one operand. -/
theorem triple_one {F : β → Except Diagnostic α} (hbelow : FocusBelow env n st s' eval val)
    (hops : operands s t = some [(s', e)])
    (hF : ∀ b, complaint? s t [val b] = complaintOf (F b)) :
    Triple (AtNode st t) (eval e >>= fun b => check (F b)) (Focused env st [(s, t)])
      (FailsAt env st s t) := by
  have hstart : Progress env s t [] [] [(s', e)] := .start hops
  have hpair : Triple (AtNode st t) (eval e >>= fun b => check (F b)) (Focused env st [(s', e)])
      (FailsAt env st s t) :=
    ((triple_operand hbelow hstart).weaken fun _ h => h.1).bind_returns fun b hb =>
      triple_values hstart (hbelow.yields e b hb) (hF b)
  exact hpair.mono (fun _ => Focused.whole hops (List.cons_ne_nil _ _)) fun _ _ => id

/-- A form with one operand and an index. -/
theorem triple_index {F : β → Int → Except Diagnostic α} {i : Option Int} {d : Diagnostic}
    (hbelow : FocusBelow env n st s' eval val) (hops : operands s t = some [(s', e)])
    (hF : ∀ b, complaint? s t [val b] =
      match i with
      | some k => complaintOf (F b k)
      | none => some d) :
    Triple (AtNode st t)
      (eval e >>= fun b =>
        match i with
        | some k => check (F b k)
        | none => reject d)
      (Focused env st [(s, t)]) (FailsAt env st s t) := by
  cases i with
  | some k => exact triple_one hbelow hops hF
  | none => exact triple_one (F := fun _ => .error d) hbelow hops hF

/-- A form with two operands; the first one alone is not rejected. -/
theorem triple_two {s'' : ValueSort} {e' : Tree} {eval' : Tree → Traced γ} {val' : γ → Value}
    {F : β → γ → Except Diagnostic α} (hbelow : FocusBelow env n st s' eval val)
    (hbelow' : FocusBelow env n st s'' eval' val')
    (hops : operands s t = some [(s', e), (s'', e')])
    (hfirst : ∀ b, complaint? s t [val b] = none)
    (hF : ∀ b c, complaint? s t [val b, val' c] = complaintOf (F b c)) :
    Triple (AtNode st t) (eval e >>= fun b => eval' e' >>= fun c => check (F b c))
      (Focused env st [(s, t)]) (FailsAt env st s t) := by
  have hstart : Progress env s t [] [] [(s', e), (s'', e')] := .start hops
  refine ((triple_operand hbelow hstart).weaken fun _ h => h.1).bind_returns fun b hb => ?_
  have hnext := hstart.next (hbelow.yields e b hb) (hfirst b)
  refine ((triple_operand hbelow' hnext).weaken fun _ h => h.1).bind_returns fun c hc => ?_
  refine (triple_values hnext (hbelow'.yields e' c hc) (hF b c)).mono (fun _ => ?_) fun _ _ => id
  exact Focused.whole hops (List.cons_ne_nil _ _)

/-- A form that goes through its other operands in a loop. The induction is on these operands; the
values so far and what the loop has made of them vary along it. -/
theorem triple_loop {e : γ → Tree} {k : α → γ → β → Except Diagnostic α} {bs : List γ} {a : α}
    (hbelow : FocusBelow env n st s' eval val)
    (hprogress : Progress env s t done vs (bs.map fun b => (s', e b))) (hne : done ≠ [])
    (hk : ∀ cs, cs.length ≤ bs.length → complaint? s t (vs ++ cs.map val) =
      complaintOf ((bs.zip cs).foldlM (fun a q => k a q.1 q.2) a)) :
    Triple (Focused env st done) (bs.foldlM (fun a b => eval (e b) >>= fun c => check (k a b c)) a)
      (Focused env st [(s, t)]) (FailsAt env st s t) := by
  induction bs generalizing done vs a with
  | nil =>
    have hops := hprogress.operands_eq
    rw [List.map_nil, List.append_nil] at hops
    exact (triple_pure a).mono (fun _ => Focused.whole hops hne) fun _ _ => id
  | cons b bs ih =>
    -- one more value: the node says what the step of the loop says
    have hstep : ∀ c, complaint? s t (vs ++ [val c]) = complaintOf (k a b c) := by
      intro c
      refine (hk [c] (Nat.le_add_left _ _)).trans ?_
      rw [List.zip_cons_cons, List.zip_nil_right, List.foldlM_cons]
      cases k a b c <;> rfl
    rw [List.foldlM_cons]
    refine Triple.bind_returns (J := Focused env st (done ++ [(s', e b)])) ?_ fun a' ha' => ?_
    · refine ((triple_operand hbelow hprogress).weaken fun _ h => h.1).bind_returns fun c hc => ?_
      exact triple_values hprogress (hbelow.yields _ c hc) (hstep c)
    · obtain ⟨c, hc, hcheck⟩ := ha'.of_bind
      have hok : k a b c = .ok a' := hcheck.of_check
      have hnone : complaint? s t (vs ++ [val c]) = none := by rw [hstep, hok]; rfl
      refine ih (hprogress.next (hbelow.yields _ c hc) hnone) (by simp) fun cs hcs => ?_
      rw [List.append_assoc]
      refine (hk (c :: cs) (Nat.succ_le_succ hcs)).trans ?_
      rw [List.zip_cons_cons, List.foldlM_cons, hok]
      rfl

/-- A form that starts with its first operand and goes through the others. -/
theorem triple_chain {e₀ : Tree} {e : γ → Tree} {k : β → γ → β → Except Diagnostic β} {bs : List γ}
    (hbelow : FocusBelow env n st s' eval val)
    (hops : operands s t = some ((s', e₀) :: bs.map fun b => (s', e b)))
    (hk : ∀ a cs, cs.length ≤ bs.length → complaint? s t (val a :: cs.map val) =
      complaintOf ((bs.zip cs).foldlM (fun a q => k a q.1 q.2) a)) :
    Triple (AtNode st t) (eval e₀ >>= fun a =>
      bs.foldlM (fun a b => eval (e b) >>= fun c => check (k a b c)) a)
      (Focused env st [(s, t)]) (FailsAt env st s t) := by
  have hstart : Progress env s t [] [] _ := .start hops
  refine ((triple_operand hbelow hstart).weaken fun _ h => h.1).bind_returns fun a ha => ?_
  have hnone : complaint? s t [val a] = none := by
    refine (hk a [] (Nat.zero_le _)).trans ?_
    rw [List.zip_nil_right]
    rfl
  exact triple_loop hbelow (hstart.next (hbelow.yields e₀ a ha) hnone) (List.cons_ne_nil _ _) (hk a)

/-- A form that starts with its first operand and goes through all of them, the first one
included. -/
theorem triple_apply {e₀ : Tree} {es : List Tree} {k : β → β → Except Diagnostic β}
    (hbelow : FocusBelow env n st s' eval val)
    (hops : operands s t = some ((s', e₀) :: es.map fun e => (s', e)))
    (hk : ∀ a cs, complaint? s t (val a :: cs.map val) = complaintOf ((a :: cs).foldlM k a)) :
    Triple (AtNode st t) (eval e₀ >>= fun a =>
      (e₀ :: es).foldlM (fun a e => eval e >>= fun c => check (k a c)) a)
      (Focused env st [(s, t)]) (FailsAt env st s t) := by
  have hstart : Progress env s t [] [] _ := .start hops
  have hfirst : Triple (·.statement = st) (eval e₀) (Focused env st [(s', e₀)])
      (FailsAt env st s t) := triple_operand hbelow hstart
  refine (hfirst.weaken fun _ h => h.1).bind_returns fun a ha => ?_
  have hstep : complaint? s t [val a] = complaintOf (k a a) := by
    refine (hk a []).trans ?_
    rw [List.foldlM_cons]
    cases k a a <;> rfl
  -- the first operand is evaluated twice, with one value
  have hagain : ∀ c, (eval e₀).Returns c → a = c := fun c hc =>
    hbelow.injective ((hbelow.yields e₀ a ha).unique (hbelow.yields e₀ c hc))
  rw [List.foldlM_cons]
  refine Triple.bind_returns (J := Focused env st [(s', e₀)]) ?_ fun a' ha' => ?_
  · refine (hfirst.weaken fun _ h => h.1).bind_returns fun c hc => ?_
    obtain rfl := hagain c hc
    exact triple_values hstart (hbelow.yields e₀ a ha) hstep
  · obtain ⟨c, hc, hcheck⟩ := ha'.of_bind
    obtain rfl := hagain c hc
    have hok : k a a = .ok a' := hcheck.of_check
    have hnone : complaint? s t [val a] = none := by rw [hstep, hok]; rfl
    refine triple_loop (e := fun e => e) (k := fun a _ c => k a c) hbelow
      (hstart.next (hbelow.yields e₀ a ha) hnone) (List.cons_ne_nil _ _) fun cs hcs => ?_
    refine (hk a cs).trans ?_
    rw [List.foldlM_cons, hok, foldlM_zip_snd hcs]
    rfl

/-- The last operands of a node are evaluated in a row, and it rejects nothing before it has the
last value. The induction is on these operands. -/
theorem triple_mapM {es : List Tree} (hbelow : FocusBelow env n st s' eval val)
    (hops : operands s t = some (done ++ es.map fun e => (s', e)))
    (hvs : List.Forall₂ (fun p v => Yields env p.1 p.2 v) done vs)
    (hfree : ∀ us, us.length < es.length → complaint? s t (vs ++ us) = none) :
    Triple (Focused env st done) (es.mapM eval) (Focused env st (done ++ es.map fun e => (s', e)))
      (FailsAt env st s t) := by
  induction es generalizing done vs with
  | nil =>
    rw [List.map_nil, List.append_nil]
    exact triple_pure []
  | cons e es ih =>
    have hnone : complaint? s t vs = none := by
      rw [← List.append_nil vs]
      exact hfree [] (Nat.zero_lt_succ _)
    have hassoc : done ++ (e :: es).map (fun e => (s', e)) =
        done ++ [(s', e)] ++ es.map fun e => (s', e) := by
      rw [List.append_assoc]
      rfl
    rw [List.mapM_cons, hassoc]
    refine ((triple_operand hbelow ⟨hops, hvs, hnone⟩).weaken fun _ h => h.1).bind_returns
      fun b hb => ?_
    refine (ih (hassoc ▸ hops) (List.rel_append hvs (.cons (hbelow.yields e b hb) .nil))
      fun us hus => ?_).bind fun _ => triple_pure _
    rw [List.append_assoc]
    exact hfree (val b :: us) (Nat.succ_lt_succ hus)

/-- A node whose operands are evaluated in a row. -/
theorem triple_row {es : List Tree} (hbelow : FocusBelow env n st s' eval val)
    (hops : operands s t = some (es.map fun e => (s', e)))
    (hfree : ∀ us, us.length < es.length → complaint? s t us = none) :
    Triple (AtNode st t) (es.mapM eval) (Focused env st (es.map fun e => (s', e)))
      (FailsAt env st s t) :=
  have hrow : Triple (Focused env st []) (es.mapM eval) (Focused env st (es.map fun e => (s', e)))
      (FailsAt env st s t) := triple_mapM hbelow hops .nil hfree
  hrow.weaken fun _ h => h.focused_nil

/-- A variable. -/
theorem triple_reference {get : Binding → Except Diagnostic α} (hkind : t.kind = "variable")
    (hadmits : s.admits t.kind = true)
    (hget : ∀ b, complaintOf (get b) =
      if b.value.sort = s then none else some (.variableSort b.name s b.value.sort)) :
    Triple (AtNode st t) (check (env.lookup t.name) >>= fun b => check (get b))
      (Focused env st [(s, t)]) (FailsAt env st s t) := by
  have hcheck : Triple (AtNode st t) (check (env.lookup t.name) >>= fun b => check (get b))
      (AtNode st t) (FailsAt env st s t) := by
    refine (triple_entry fun d hd => ?_).bind_returns fun b hb => triple_entry fun d hd => ?_
    · exact entryComplaint?_undefined hadmits hkind hd
    · rw [entryComplaint?_bound hadmits hkind hb.of_check, ← hget, hd]
      rfl
  exact hcheck.mono (fun _ h => h.focused (.inl hkind)) fun _ _ => id

/-- The search for the body of a macro call. -/
theorem triple_expandCall (hkind : t.kind = "call") (hadmits : s.admits t.kind = true) :
    Triple (AtNode st t) (expandCall env s t.children) (AtNode st t) (FailsAt env st s t) := by
  have hentry : entryComplaint? env s t = callComplaint? env s t.children := by
    unfold entryComplaint?
    rw [if_pos hadmits, if_neg (by rw [hkind]; decide), if_neg (by rw [hkind]; decide),
      if_pos hkind]
  unfold expandCall
  cases hc : t.children with
  | nil => exact triple_give
  | cons callee rest =>
    rw [hc] at hentry
    refine (triple_entry fun d hd => ?_).bind_returns fun m hm => ?_
    · rw [hentry, callComplaint?, hd]
    · have hlookup : env.lookupMacro callee.name = .ok m := hm.of_check
      split
      · next hs =>
        cases rest with
        | nil => exact triple_give
        | cons args rest =>
          refine triple_entry fun d hd => ?_
          rw [hentry, callComplaint?, hlookup]
          dsimp only
          rw [if_pos hs, List.head?_cons, Option.bind_some, hd]
          rfl
      · next hs =>
        refine triple_entry (x := .error (.macroSort s m.returns)) fun d hd => ?_
        cases hd
        rw [hentry, callComplaint?, hlookup]
        exact if_neg hs

/-- A macro call. -/
theorem triple_call (hbelow : FocusBelow env n st s eval val) (hkind : t.kind = "call")
    (hadmits : s.admits t.kind = true) :
    Triple (AtNode st t) (expandCall env s t.children >>= eval) (Focused env st [(s, t)])
      (FailsAt env st s t) := by
  refine (triple_expandCall hkind hadmits).bind_returns fun body hbody => ?_
  obtain hexp : sortedExpansion? env.macros s t = some body := by
    rcases ends_expandCall hbody.ends with ⟨_, heq, hexp⟩ | ⟨_, heq, -⟩ | ⟨-, heq⟩ <;> cases heq
    exact hexp
  refine ((hbelow.triple body).weaken fun _ h => h.1).mono
    (fun _ => Focused.of_body hkind hexp) fun f T hf d hd => ?_
  obtain ⟨hst, s'', u, w, hreaches, hrejected, hexpr⟩ := hf d hd
  exact ⟨hst, s'', u, w, .body hkind hexp hreaches, hrejected, hexpr⟩

/-- A node that is no expression of the sort. -/
theorem triple_unadmitted (h : s.admits t.kind = false) :
    Triple (AtNode st t) (reject (.expressionSort s t.kind) : Traced α) (Focused env st [(s, t)])
      (FailsAt env st s t) := by
  refine triple_throw fun T hT d hd => ?_
  cases hd
  refine ⟨hT.1, s, t, t, .here s t, .entry ?_, hT.2⟩
  rw [entryComplaint?, if_neg (by rw [h]; decide)]

end

end Scalarize
