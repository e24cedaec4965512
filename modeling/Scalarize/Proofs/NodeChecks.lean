import Scalarize.Proofs.EvaluationLevels

/-!
# Scalarize — the checks of an expression node

A node of an expression can be rejected in two ways. Some checks are made when the node is entered
and look at the node alone: is it an expression of the sort, is its variable, its external name or
its macro defined. The others look at the values of the operands: sizes that must agree, indices
that must be in range. This module says which diagnostic each check gives and in which order the
evaluators come to the checks, without traces and without a limit of depth.

* **`entryComplaint?`** — what a node is rejected with on entry.
* **`complaint?`** — what a node is rejected with, given the values of its first operands.
* **`Progress`** — a node has accepted the values of its first operands.
* **`Reaches`** — evaluation of an expression comes to a node.
* **`LastEntered`** — the node that is entered last when an expression is evaluated.
-/

namespace Scalarize

/-- The diagnostic that a check gives. -/
def complaintOf {α : Type} : Except Diagnostic α → Option Diagnostic
  | .ok _ => none
  | .error d => some d

/-! ## Checks on entry -/

/-- What a macro call of the given sort is rejected with. -/
def callComplaint? (env : Env) (s : ValueSort) (children : List Tree) : Option Diagnostic :=
  match children with
  | callee :: rest =>
    match env.lookupMacro callee.name with
    | .ok m =>
      if m.returns == s.word then rest.head?.bind fun args => complaintOf (m.call args.children)
      else some (.macroSort s m.returns)
    | .error d => some d
  | [] => none

/-- What a node is rejected with when it is entered. -/
def entryComplaint? (env : Env) (s : ValueSort) (t : Tree) : Option Diagnostic :=
  if s.admits t.kind then
    if t.kind = "variable" then
      match env.lookup t.name with
      | .ok b => if b.value.sort = s then none else some (.variableSort b.name s b.value.sort)
      | .error d => some d
    else if t.kind = "external" then complaintOf (env.target t.name)
    else if t.kind = "call" then callComplaint? env s t.children
    else none
  else some (.expressionSort s t.kind)

section

variable {env : Env} {s : ValueSort} {t : Tree}

theorem entryComplaint?_undefined {d : Diagnostic} (hadmits : s.admits t.kind = true)
    (hkind : t.kind = "variable") (h : env.lookup t.name = .error d) :
    entryComplaint? env s t = some d := by
  rw [entryComplaint?, if_pos hadmits, if_pos hkind, h]

theorem entryComplaint?_bound {b : Binding} (hadmits : s.admits t.kind = true)
    (hkind : t.kind = "variable") (h : env.lookup t.name = .ok b) :
    entryComplaint? env s t =
      if b.value.sort = s then none else some (.variableSort b.name s b.value.sort) := by
  rw [entryComplaint?, if_pos hadmits, if_pos hkind, h]

end

/-! ## Checks of the operands -/

/-- What a number expression is rejected with, given the values of its first operands. -/
def NumForm.complaint? (f : NumForm) (t : Tree) (vs : List Value) : Option Diagnostic :=
  match f, t.children, vs with
  | .vecElem, _ :: i :: _, [.vector v] =>
    match indexOf? i.value with
    | some k => complaintOf (v.elem k)
    | none => some (.badElementIndex i.name)
  | .matElem, _ :: i :: j :: _, [.matrix m] =>
    match indexOf? i.value, indexOf? j.value with
    | some k, some l => complaintOf (m.elem k l)
    | _, _ => some (.badCellIndices i.name j.name)
  | _, _, _ => none

/-- What a vector expression is rejected with, given the values of its first operands. -/
def VecForm.complaint? (f : VecForm) (t : Tree) (vs : List Value) : Option Diagnostic :=
  match f, t.children, vs with
  | .chain, _ :: rest, .vector v :: vs =>
    (vs.mapM Value.vector?).bind fun ws =>
      complaintOf (((pairs rest).zip ws).foldlM (fun v p => Vec.chainStep p.1.1.kind v p.2) v)
  | .apply, op :: _, .vector v :: vs =>
    (vs.mapM Value.vector?).bind fun ws => complaintOf ((v :: ws).foldlM (Vec.apply op.kind) v)
  | .row, _ :: i :: _, [.matrix m] =>
    match indexOf? i.value with
    | some k => complaintOf (m.row k)
    | none => some (.badRowIndex i.name)
  | .col, _ :: i :: _, [.matrix m] =>
    match indexOf? i.value with
    | some k => complaintOf (m.col k)
    | none => some (.badColumnIndex i.name)
  | _, _, _ => none

/-- What the rows of a matrix literal are rejected with. -/
def rowsComplaint? (rows : List Vec) : Option Diagnostic :=
  match Mat.ofRows rows with
  | .error (.diagnostic d) => some d
  | _ => none

/-- What a matrix expression is rejected with, given the values of its first operands. The rows of a
literal are compared when all of them are there. -/
def MatForm.complaint? (f : MatForm) (t : Tree) (vs : List Value) : Option Diagnostic :=
  match f, t.children, vs with
  | .chain, _ :: rest, .matrix m :: vs =>
    (vs.mapM Value.matrix?).bind fun ns =>
      complaintOf (((pairs rest).zip ns).foldlM (fun m p => Mat.chainStep p.1.1.kind m p.2) m)
  | .apply, op :: _, .matrix m :: vs =>
    (vs.mapM Value.matrix?).bind fun ns => complaintOf ((m :: ns).foldlM (Mat.apply op.kind) m)
  | .product, _, [.matrix m, .matrix n] => complaintOf (m.product n)
  | .literal, cs, vs =>
    if vs.length = cs.length then (vs.mapM Value.vector?).bind rowsComplaint? else none
  | _, _, _ => none

/-- What an expression of the given sort is rejected with, given the values of its first
operands. -/
def complaint? (s : ValueSort) (t : Tree) (vs : List Value) : Option Diagnostic :=
  match s with
  | .number => (NumForm.ofKind? t.kind).bind (·.complaint? t vs)
  | .vector => (VecForm.ofKind? t.kind).bind (·.complaint? t vs)
  | .matrix => (MatForm.ofKind? t.kind).bind (·.complaint? t vs)

section

variable {t : Tree} {vs : List Value} {x : Option Diagnostic}

theorem NumForm.complaint?_eq {f : NumForm} (hf : NumForm.ofKind? t.kind = some f)
    (h : f.complaint? t vs = x) : Scalarize.complaint? .number t vs = x := by
  rw [Scalarize.complaint?, hf]
  exact h

theorem VecForm.complaint?_eq {f : VecForm} (hf : VecForm.ofKind? t.kind = some f)
    (h : f.complaint? t vs = x) : Scalarize.complaint? .vector t vs = x := by
  rw [Scalarize.complaint?, hf]
  exact h

theorem MatForm.complaint?_eq {f : MatForm} (hf : MatForm.ofKind? t.kind = some f)
    (h : f.complaint? t vs = x) : Scalarize.complaint? .matrix t vs = x := by
  rw [Scalarize.complaint?, hf]
  exact h

end

section

variable {t e i j : Tree} {rest : List Tree}

theorem NumForm.complaint?_matElem {k l : Int} (hc : t.children = e :: i :: j :: rest)
    (hi : indexOf? i.value = some k) (hj : indexOf? j.value = some l) (m : Mat) :
    NumForm.complaint? .matElem t [.matrix m] = complaintOf (m.elem k l) := by
  unfold NumForm.complaint?
  rewrite [hc]
  dsimp only
  rewrite [hi, hj]
  rfl

theorem NumForm.complaint?_matElem_bad (hc : t.children = e :: i :: j :: rest)
    (h : indexOf? i.value = none ∨ indexOf? j.value = none) (m : Mat) :
    NumForm.complaint? .matElem t [.matrix m] = some (.badCellIndices i.name j.name) := by
  unfold NumForm.complaint?
  rewrite [hc]
  dsimp only
  rcases h with h | h
  · rewrite [h]
    rfl
  · rewrite [h]
    cases indexOf? i.value <;> rfl

end

/-- Without the value of an operand nothing is rejected. -/
theorem complaint?_nil (s : ValueSort) (t : Tree) : complaint? s t [] = none := by
  cases s with
  | number =>
    rw [complaint?]
    cases NumForm.ofKind? t.kind with
    | none => rfl
    | some f =>
      show f.complaint? t [] = none
      unfold NumForm.complaint?
      split <;> simp_all
  | vector =>
    rw [complaint?]
    cases VecForm.ofKind? t.kind with
    | none => rfl
    | some f =>
      show f.complaint? t [] = none
      unfold VecForm.complaint?
      split <;> simp_all
  | matrix =>
    rw [complaint?]
    cases MatForm.ofKind? t.kind with
    | none => rfl
    | some f =>
      show f.complaint? t [] = none
      unfold MatForm.complaint?
      split
      -- a literal without rows is a fault and no diagnostic
      case h_4 => split <;> rfl
      all_goals simp_all

/-- Variables, external names and numbers: the expressions that have no expression inside. -/
def IsPlain (t : Tree) : Prop :=
  t.kind = "variable" ∨ t.kind = "external" ∨ t.kind = "number"

theorem complaint?_of_plain {t : Tree} (h : IsPlain t) (s : ValueSort) (vs : List Value) :
    complaint? s t vs = none := by
  rcases h with h | h | h <;> cases s <;> rw [complaint?, h] <;> rfl

/-! ## The order of evaluation -/

/-- The operands `done` of a node have the values `vs`, which it does not reject. The operands
`rest` are still to come. -/
structure Progress (env : Env) (s : ValueSort) (t : Tree) (done : List (ValueSort × Tree))
    (vs : List Value) (rest : List (ValueSort × Tree)) : Prop where
  operands_eq : operands s t = some (done ++ rest)
  yields : List.Forall₂ (fun p v => Yields env p.1 p.2 v) done vs
  accepted : complaint? s t vs = none

/-- Evaluation of the first expression comes to the second one: all that is evaluated before has a
value and is not rejected. -/
inductive Reaches (env : Env) : ValueSort → Tree → ValueSort → Tree → Prop where
  | here (s t) : Reaches env s t s t
  | operand {s t done vs p rest s' u} (hprogress : Progress env s t done vs (p :: rest))
      (h : Reaches env p.1 p.2 s' u) : Reaches env s t s' u
  | body {s t body s' u} (hkind : t.kind = "call")
      (hbody : sortedExpansion? env.macros s t = some body) (h : Reaches env s body s' u) :
      Reaches env s t s' u

/-- The node that is entered last when an expression is evaluated. -/
inductive LastEntered (env : Env) : ValueSort → Tree → Tree → Prop where
  | plain {s t} (h : IsPlain t) : LastEntered env s t t
  | operand {s t ops p w} (hops : operands s t = some ops) (hlast : ops.getLast? = some p)
      (h : LastEntered env p.1 p.2 w) : LastEntered env s t w
  | body {s t body w} (hkind : t.kind = "call")
      (hbody : sortedExpansion? env.macros s t = some body) (h : LastEntered env s body w) :
      LastEntered env s t w

/-- The value of the operand `p` is the first one that the node rejects. -/
def RejectsAfter (env : Env) (s : ValueSort) (t : Tree) (d : Diagnostic) (p : ValueSort × Tree) :
    Prop :=
  ∃ done vs rest v, Progress env s t done vs (p :: rest) ∧ Yields env p.1 p.2 v ∧
    complaint? s t (vs ++ [v]) = some d

section

variable {env : Env} {s : ValueSort} {t w : Tree} {d : Diagnostic} {p : ValueSort × Tree}
  {done rest ops : List (ValueSort × Tree)} {vs : List Value}

theorem Progress.start (h : operands s t = some ops) : Progress env s t [] [] ops :=
  ⟨h, .nil, complaint?_nil s t⟩

theorem Progress.next {v : Value} (h : Progress env s t done vs (p :: rest))
    (hv : Yields env p.1 p.2 v) (hok : complaint? s t (vs ++ [v]) = none) :
    Progress env s t (done ++ [p]) (vs ++ [v]) rest := by
  refine ⟨?_, List.rel_append h.yields (.cons hv .nil), hok⟩
  rw [h.operands_eq, List.append_assoc]
  rfl

theorem LastEntered.isPlain (h : LastEntered env s t w) : IsPlain w := by
  induction h with
  | plain h => exact h
  | operand _ _ _ ih => exact ih
  | body _ _ _ ih => exact ih

/-- A node that rejects nothing before it has all values rejects the last one. -/
theorem RejectsAfter.of_last (hops : operands s t = some ops)
    (hvs : List.Forall₂ (fun p v => Yields env p.1 p.2 v) ops vs)
    (hfree : ∀ us, us.length < vs.length → complaint? s t us = none)
    (hd : complaint? s t vs = some d) : ∃ p, ops.getLast? = some p ∧ RejectsAfter env s t d p := by
  rcases ops.eq_nil_or_concat' with rfl | ⟨done, p, rfl⟩
  · cases hvs
    rw [complaint?_nil] at hd
    cases hd
  · obtain ⟨us, ws, hdone, hlast, rfl⟩ := exists_append_of_forall₂ hvs
    obtain ⟨v, _, hv, hnil, rfl⟩ := List.forall₂_cons_left_iff.mp hlast
    cases hnil
    have hfew : us.length < (us ++ [v]).length := by
      rw [List.length_append]
      exact Nat.lt_succ_self _
    exact ⟨p, List.getLast?_concat, done, us, [], v, ⟨hops, hdone, hfree us hfew⟩, hv, hd⟩

/-- A node that rejects the value of an operand is never the one that was entered last. -/
theorem RejectsAfter.ne_lastEntered {s' : ValueSort} {e : Tree} (h : RejectsAfter env s t d p)
    (hw : LastEntered env s' e w) : w ≠ t := by
  rintro rfl
  obtain ⟨done, vs, rest, v, -, -, hd⟩ := h
  rw [complaint?_of_plain hw.isPlain] at hd
  cases hd

end

end Scalarize
