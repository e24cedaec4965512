import Scalarize.Proofs.EvaluationDepth
import Scalarize.Proofs.ValueMeaning

/-!
# Scalarize — operators applied element by element

The form `apply` joins vectors, or matrices, by an operator on numbers, and the chains of `+` and
`-` are shorthands for two of these operators. Both go through their operands from the left. But the
loop of `apply` starts with the value of the first operand and then goes through all operands, that
one included, so the first operand is counted twice; the loop of a chain is not like this.

* **`Vec.foldlM_combine`**, **`Mat.foldlM_combine`** — such a loop over operands of one size
  succeeds, and each place of the result is the left fold of that place of the operands.
* **`apply_repeats_first`** — the value of `apply`, and the chain that has the same value.
-/

namespace Scalarize

open Traced

/-! ## Loops over vectors and matrices of one size -/

namespace Vec

variable {f : Num → Num → Num} {v w : Vec} {i : Nat}

theorem get_eq_getElem (hi : i < v.elems.length) : v.get i = v.elems[i] := by
  rw [get, List.getElem?_eq_getElem hi, Option.getD_some]

theorem length_combine (h : v.length = w.length) : (combine f v w h).length = v.length := by
  have hlen : v.elems.length = w.elems.length := h
  show (List.zipWith f v.elems w.elems).length = v.elems.length
  rw [List.length_zipWith, hlen, Nat.min_self]

theorem get_combine (h : v.length = w.length) (hi : i < v.length) :
    (combine f v w h).get i = f (v.get i) (w.get i) := by
  have hw : i < w.elems.length := hi.trans_eq h
  have hu : i < (combine f v w h).elems.length := hi.trans_eq (length_combine h).symm
  rw [get_eq_getElem hi, get_eq_getElem hw, get_eq_getElem hu]
  exact List.getElem_zipWith

/-- A step that combines vectors of one length element by element. -/
def Combines (f : Num → Num → Num) (step : Vec → Vec → Except Diagnostic Vec) : Prop :=
  ∀ v w (h : v.length = w.length), step v w = .ok (combine f v w h)

/-- A loop of such steps over vectors of one length. -/
theorem foldlM_combine {ws : List Vec} (hlen : ∀ w ∈ ws, w.length = v.length) :
    ∃ u, (∀ step, Combines f step → ws.foldlM step v = .ok u) ∧ u.length = v.length ∧
      ∀ i < v.length, u.get i = ws.foldl (fun x w => f x (w.get i)) (v.get i) := by
  induction ws generalizing v with
  | nil => exact ⟨v, fun _ _ => rfl, rfl, fun _ _ => rfl⟩
  | cons w ws ih =>
    have hw : v.length = w.length := (hlen w List.mem_cons_self).symm
    have hfirst := length_combine (f := f) hw
    obtain ⟨u, hu, hlength, hget⟩ := ih (v := combine f v w hw) fun w' hw' =>
      (hlen w' (List.mem_cons_of_mem _ hw')).trans hfirst.symm
    refine ⟨u, fun step hstep => ?_, hlength.trans hfirst, fun i hi => ?_⟩
    · rw [List.foldlM_cons, hstep v w hw]
      exact hu step hstep
    · rw [hget i (hfirst.symm ▸ hi), get_combine hw hi, List.foldl_cons]

theorem combines_apply (op : String) : Combines (.binary op) (apply op) :=
  fun _ _ h => dif_pos h

theorem combines_chainStep (op : String) :
    Combines (.binary (elementOperator op)) (chainStep op) :=
  fun _ _ h => dif_pos h

end Vec

namespace Mat

variable {f : Num → Num → Num} {m n : Mat} {i j : Nat}

theorem rowCount_ofCells {r c : Nat} {hr : 0 < r} {hc : 0 < c} {g : Nat → Nat → Num} :
    (ofCells r c hr hc g).rowCount = r := by
  simp [ofCells, rowCount]

theorem colCount_ofCells {r c : Nat} {hr : 0 < r} {hc : 0 < c} {g : Nat → Nat → Num} :
    (ofCells r c hr hc g).colCount = c := by
  simp [ofCells, colCount, first, Vec.length]

theorem get_ofCells {r c : Nat} {hr : 0 < r} {hc : 0 < c} {g : Nat → Nat → Num} (hi : i < r)
    (hj : j < c) : (ofCells r c hr hc g).get i j = g i j := by
  rw [get_eq_getElem (by simpa [ofCells] using hi) (by simpa [ofCells] using hj)]
  simp [ofCells]

theorem sameSize_combine (m n : Mat) : m.SameSize (combine f m n) :=
  ⟨rowCount_ofCells.symm, colCount_ofCells.symm⟩

/-- A step that combines matrices of one size cell by cell. -/
def Combines (f : Num → Num → Num) (step : Mat → Mat → Except Diagnostic Mat) : Prop :=
  ∀ m n, m.SameSize n → step m n = .ok (combine f m n)

/-- A loop of such steps over matrices of one size. -/
theorem foldlM_combine {ns : List Mat} (hsize : ∀ n ∈ ns, m.SameSize n) :
    ∃ u, (∀ step, Combines f step → ns.foldlM step m = .ok u) ∧ m.SameSize u ∧
      ∀ i < m.rowCount, ∀ j < m.colCount,
        u.get i j = ns.foldl (fun x n => f x (n.get i j)) (m.get i j) := by
  induction ns generalizing m with
  | nil => exact ⟨m, fun _ _ => rfl, ⟨rfl, rfl⟩, fun _ _ _ _ => rfl⟩
  | cons n ns ih =>
    have hn := hsize n List.mem_cons_self
    have hfirst := sameSize_combine (f := f) m n
    obtain ⟨u, hu, hsame, hget⟩ := ih (m := combine f m n) fun n' hn' =>
      have hn' := hsize n' (List.mem_cons_of_mem _ hn')
      ⟨hfirst.1.symm.trans hn'.1, hfirst.2.symm.trans hn'.2⟩
    refine ⟨u, fun step hstep => ?_, ⟨hfirst.1.trans hsame.1, hfirst.2.trans hsame.2⟩,
      fun i hi j hj => ?_⟩
    · rw [List.foldlM_cons, hstep m n hn]
      exact hu step hstep
    · rw [hget i (hfirst.1 ▸ hi) j (hfirst.2 ▸ hj), combine, get_ofCells hi hj, List.foldl_cons]

theorem combines_apply (op : String) : Combines (.binary op) (apply op) :=
  fun _ _ h => if_pos h

theorem combines_chainStep (op : String) :
    Combines (.binary (Vec.elementOperator (rowOperator op))) (chainStep op) :=
  fun _ _ h => if_pos h

end Mat

/-! ## Chains -/

/-- A chain of operands with one sign between them. -/
def chainNode (kind : String) (sign first : Tree) (rest : List Tree) : Tree :=
  .node kind (first :: rest.flatMap fun e => [sign, e])

theorem pairs_flatMap (sign : Tree) (es : List Tree) :
    pairs (es.flatMap fun e => [sign, e]) = es.map fun e => (sign, e) := by
  induction es with
  | nil => rfl
  | cons e es ih => exact congrArg ((sign, e) :: ·) ih

/-- The steps of a chain with one sign. -/
theorem foldlM_pairs {α : Type} {g : String → α → α → Except Diagnostic α} (sign : Tree)
    {es : List Tree} {bs : List α} (hlen : es.length = bs.length) (a : α) :
    ((pairs (es.flatMap fun e => [sign, e])).zip bs).foldlM (fun a p => g p.1.1.kind a p.2) a
      = bs.foldlM (g sign.kind) a := by
  rw [pairs_flatMap, List.zip_map_left, List.foldlM_map]
  exact foldlM_zip_snd (g := g sign.kind) hlen.ge

/-! ## Evaluation -/

section

variable {env : Env} {t : Tree} {ops : List (ValueSort × Tree)} {vs : List Value}

theorem evalVector_of_operands {f : VecForm} {u : Vec} (hf : VecForm.ofKind? t.kind = some f)
    (hops : operands .vector t = some ops)
    (h : List.Forall₂ (fun p w => (evaluate env p.1 p.2).Returns w) ops vs)
    (hbuild : f.build t vs = some u) (trace : Trace) :
    ((evalVector env t).runFrom trace).1 = .ok u := by
  have hrun := evaluate_of_operands hops h (VecForm.build_eq hf hbuild) trace
  exact ok_of_runFrom_map (fun _ _ => Value.vector.inj) hrun

theorem evalMatrix_of_operands {f : MatForm} {u : Mat} (hf : MatForm.ofKind? t.kind = some f)
    (hops : operands .matrix t = some ops)
    (h : List.Forall₂ (fun p w => (evaluate env p.1 p.2).Returns w) ops vs)
    (hbuild : f.build t vs = some u) (trace : Trace) :
    ((evalMatrix env t).runFrom trace).1 = .ok u := by
  have hrun := evaluate_of_operands hops h (MatForm.build_eq hf hbuild) trace
  exact ok_of_runFrom_map (fun _ _ => Value.matrix.inj) hrun

end

theorem forall₂_evaluate_vector {env : Env} {es : List Tree} {vs : List Vec}
    (h : List.Forall₂ (fun e v => (evalVector env e).Returns v) es vs) :
    List.Forall₂ (fun p w => (evaluate env p.1 p.2).Returns w)
      (es.map fun e => (.vector, e)) (vs.map .vector) := by
  rw [List.forall₂_map_left_iff, List.forall₂_map_right_iff]
  exact h.imp fun e v hv => ends_map.mpr ⟨.ok v, hv, rfl⟩

theorem forall₂_evaluate_matrix {env : Env} {es : List Tree} {ms : List Mat}
    (h : List.Forall₂ (fun e m => (evalMatrix env e).Returns m) es ms) :
    List.Forall₂ (fun p w => (evaluate env p.1 p.2).Returns w)
      (es.map fun e => (.matrix, e)) (ms.map .matrix) := by
  rw [List.forall₂_map_left_iff, List.forall₂_map_right_iff]
  exact h.imp fun e m hm => ends_map.mpr ⟨.ok m, hm, rfl⟩

section

variable {env : Env} {op sign e : Tree} {es : List Tree}

/-- The loop of `apply` goes through all operands, from the value of the first. -/
theorem evalVector_apply {v u : Vec} {vs : List Vec}
    (h : List.Forall₂ (fun e v => (evalVector env e).Returns v) (e :: es) (v :: vs))
    (hu : (v :: vs).foldlM (Vec.apply op.kind) v = .ok u) (trace : Trace) :
    ((evalVector env (.node "vec_apply" (op :: e :: es))).runFrom trace).1 = .ok u := by
  refine evalVector_of_operands rfl rfl (forall₂_evaluate_vector h) ?_ trace
  show ((vs.map Value.vector).mapM Value.vector?).bind _ = some u
  rw [Value.mapM_vector?, Option.bind_some, hu]
  rfl

/-- The loop of a chain goes through the operands after the first. -/
theorem evalVector_chain {v u : Vec} {vs : List Vec}
    (h : List.Forall₂ (fun e v => (evalVector env e).Returns v) (e :: es) (v :: vs))
    (hu : vs.foldlM (Vec.chainStep sign.kind) v = .ok u) (trace : Trace) :
    ((evalVector env (chainNode "vec_binary" sign e es)).runFrom trace).1 = .ok u := by
  have hops : operands .vector (chainNode "vec_binary" sign e es)
      = some ((e :: es).map fun e => (.vector, e)) := by
    show some ((_, e) :: (pairs _).map _) = _
    rw [pairs_flatMap, List.map_map]
    rfl
  refine evalVector_of_operands rfl hops (forall₂_evaluate_vector h) ?_ trace
  show ((vs.map Value.vector).mapM Value.vector?).bind _ = some u
  rw [Value.mapM_vector?, Option.bind_some,
    foldlM_pairs (g := Vec.chainStep) sign (List.forall₂_cons.mp h).2.length_eq, hu]
  rfl

theorem evalMatrix_apply {m u : Mat} {ms : List Mat}
    (h : List.Forall₂ (fun e m => (evalMatrix env e).Returns m) (e :: es) (m :: ms))
    (hu : (m :: ms).foldlM (Mat.apply op.kind) m = .ok u) (trace : Trace) :
    ((evalMatrix env (.node "mat_apply" (op :: e :: es))).runFrom trace).1 = .ok u := by
  refine evalMatrix_of_operands rfl rfl (forall₂_evaluate_matrix h) ?_ trace
  show ((ms.map Value.matrix).mapM Value.matrix?).bind _ = some u
  rw [Value.mapM_matrix?, Option.bind_some, hu]
  rfl

theorem evalMatrix_chain {m u : Mat} {ms : List Mat}
    (h : List.Forall₂ (fun e m => (evalMatrix env e).Returns m) (e :: es) (m :: ms))
    (hu : ms.foldlM (Mat.chainStep sign.kind) m = .ok u) (trace : Trace) :
    ((evalMatrix env (chainNode "mat_binary" sign e es)).runFrom trace).1 = .ok u := by
  have hops : operands .matrix (chainNode "mat_binary" sign e es)
      = some ((e :: es).map fun e => (.matrix, e)) := by
    show some ((_, e) :: (pairs _).map _) = _
    rw [pairs_flatMap, List.map_map]
    rfl
  refine evalMatrix_of_operands rfl hops (forall₂_evaluate_matrix h) ?_ trace
  show ((ms.map Value.matrix).mapM Value.matrix?).bind _ = some u
  rw [Value.mapM_matrix?, Option.bind_some,
    foldlM_pairs (g := Mat.chainStep) sign (List.forall₂_cons.mp h).2.length_eq, hu]
  rfl

end

/-! ## `apply` and its shorthands -/

/-- The signs of chains of vectors and of matrices that stand for an operator on numbers. -/
def shorthands : List (String × String × String) :=
  [("add", "vec_add", "mat_add"), ("sub", "vec_sub", "mat_sub")]

/-- The value of `apply` over vectors of one length: at each place the operator joins the elements
of the operands from the left, starting with the first element twice. For an operator with a
shorthand it is the value of the chain that begins with the first operand twice. The same holds of
matrices of one size. -/
theorem apply_repeats_first (env : Env) (op : Tree) :
    (∀ e es v vs,
      List.Forall₂ (fun e v => (evalVector env e).Returns v) (e :: es) (v :: vs) →
      (∀ w ∈ vs, w.length = v.length) →
      ∃ u, (∀ trace,
          ((evalVector env (.node "vec_apply" (op :: e :: es))).runFrom trace).1 = .ok u) ∧
        u.length = v.length ∧
        (∀ i < v.length,
          u.get i = (v :: vs).foldl (fun x w => .binary op.kind x (w.get i)) (v.get i)) ∧
        ∀ sign : Tree, (op.kind, sign.kind) ∈ shorthands.map (fun s => (s.1, s.2.1)) → ∀ trace,
          ((evalVector env (chainNode "vec_binary" sign e (e :: es))).runFrom trace).1 = .ok u) ∧
    (∀ e es m ms,
      List.Forall₂ (fun e m => (evalMatrix env e).Returns m) (e :: es) (m :: ms) →
      (∀ n ∈ ms, m.SameSize n) →
      ∃ u, (∀ trace,
          ((evalMatrix env (.node "mat_apply" (op :: e :: es))).runFrom trace).1 = .ok u) ∧
        m.SameSize u ∧
        (∀ i < m.rowCount, ∀ j < m.colCount,
          u.get i j = (m :: ms).foldl (fun x n => .binary op.kind x (n.get i j)) (m.get i j)) ∧
        ∀ sign : Tree, (op.kind, sign.kind) ∈ shorthands.map (fun s => (s.1, s.2.2)) → ∀ trace,
          ((evalMatrix env (chainNode "mat_binary" sign e (e :: es))).runFrom trace).1
            = .ok u) := by
  constructor
  · intro e es v vs h hlen
    have hall : ∀ w ∈ v :: vs, w.length = v.length := List.forall_mem_cons.mpr ⟨rfl, hlen⟩
    obtain ⟨u, hu, hlength, hget⟩ := Vec.foldlM_combine (f := .binary op.kind) hall
    refine ⟨u, evalVector_apply h (hu _ (Vec.combines_apply op.kind)), hlength, hget,
      fun sign hsign => ?_⟩
    have hop : Vec.elementOperator sign.kind = op.kind := by
      rcases List.mem_pair.mp hsign with hpair | hpair <;>
      · rw [(Prod.mk.inj hpair).1, (Prod.mk.inj hpair).2]
        rfl
    -- the chain has the first operand once more among the others
    refine evalVector_chain (.cons (List.forall₂_cons.mp h).1 h) (hu _ ?_)
    exact hop ▸ Vec.combines_chainStep sign.kind
  · intro e es m ms h hsize
    have hall : ∀ n ∈ m :: ms, m.SameSize n := List.forall_mem_cons.mpr ⟨⟨rfl, rfl⟩, hsize⟩
    obtain ⟨u, hu, hsame, hget⟩ := Mat.foldlM_combine (f := .binary op.kind) hall
    refine ⟨u, evalMatrix_apply h (hu _ (Mat.combines_apply op.kind)), hsame, hget,
      fun sign hsign => ?_⟩
    have hop : Vec.elementOperator (Mat.rowOperator sign.kind) = op.kind := by
      rcases List.mem_pair.mp hsign with hpair | hpair <;>
      · rw [(Prod.mk.inj hpair).1, (Prod.mk.inj hpair).2]
        rfl
    refine evalMatrix_chain (.cons (List.forall₂_cons.mp h).1 h) (hu _ ?_)
    exact hop ▸ Mat.combines_chainStep sign.kind

/-- A vector of whole numbers. -/
def wholeVector (ns : List Int) : Tree :=
  .node "vector" (ns.map fun n => .numberOf (.int n))

theorem apply_repeats_first_sample :
    (∃ u, ((evalVector .empty (.node "vec_apply" [.leaf "sub" none, wholeVector [9, 8],
        wholeVector [3, 4], wholeVector [1, 2]])).runFrom .start).1 = .ok u ∧ u.length = 2 ∧
      u.get 1 = .binary "sub" (.binary "sub" (.binary "sub" (.ofInt 8) (.ofInt 8)) (.ofInt 4))
        (.ofInt 2) ∧
      ((evalVector .empty (chainNode "vec_binary" (.leaf "vec_sub" none) (wholeVector [9, 8])
        [wholeVector [9, 8], wholeVector [3, 4], wholeVector [1, 2]])).runFrom .start).1 = .ok u) ∧
    ∃ u, ((evalMatrix .empty (.node "mat_apply" [.leaf "sub" none,
        .node "matrix" [wholeVector [7]]])).runFrom .start).1 = .ok u ∧
      u.get 0 0 = .binary "sub" (.ofInt 7) (.ofInt 7) := by
  obtain ⟨hvector, hmatrix⟩ := apply_repeats_first .empty (.leaf "sub" none)
  obtain ⟨u, hu, hlength, hget, hchain⟩ := hvector (wholeVector [9, 8])
    [wholeVector [3, 4], wholeVector [1, 2]] _ _
    (.cons ⟨.start, _, rfl⟩ (.cons ⟨.start, _, rfl⟩ (.cons ⟨.start, _, rfl⟩ .nil)))
    (by simp [Vec.length])
  obtain ⟨w, hw, -, hcell, -⟩ := hmatrix (.node "matrix" [wholeVector [7]]) [] _ _
    (.cons ⟨.start, _, rfl⟩ .nil) (by simp)
  exact ⟨⟨u, hu _, hlength, hget 1 (by decide), hchain (.leaf "vec_sub" none) (by decide) _⟩,
    w, hw _, hcell 0 (by decide) 0 (by decide)⟩

/-- `apply +` is not the chain of `+`: it adds the first operand twice. -/
theorem apply_add_differs_from_chain :
    ∃ u w, ((evalVector .empty (.node "vec_apply" [.leaf "add" none, wholeVector [0, 1, 2],
        wholeVector [3, 4, 5]])).runFrom .start).1 = .ok u ∧
      ((evalVector .empty (chainNode "vec_binary" (.leaf "vec_add" none) (wholeVector [0, 1, 2])
        [wholeVector [3, 4, 5]])).runFrom .start).1 = .ok w ∧
      w.get 1 = .binary "add" (.ofInt 1) (.ofInt 4) ∧
      u.get 1 = .binary "add" (.binary "add" (.ofInt 1) (.ofInt 1)) (.ofInt 4) ∧
      u.get 1 ≠ w.get 1 := by
  refine ⟨_, _, rfl, rfl, rfl, rfl, fun h => ?_⟩
  cases h

end Scalarize
