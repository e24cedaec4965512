import Scalarize.Proofs.ElementwiseApply

/-!
# Scalarize — the sizes of two operands

An operation on two vectors or two matrices goes through both in step, so operands of sizes that do
not fit would lose the elements of one that have no partner in the other. The element-wise
operations and the matrix product compare the sizes first. The dot product does not: it stops at the
end of the shorter vector.

A value is an expression for each of its elements, and an expression shows its operands. So that
nothing is lost can be said of the result alone: it determines the operands.

* **`ChecksSizes`** — an operation refuses operands whose sizes do not fit, and only these, and its
  results determine the operands.
* **`Vec.dot_eq_iff`** — a dot product determines the pairs of elements, and nothing else.
* **`sizes_checked_except_dot`** — the operations that check sizes, and the one that does not.
-/

namespace Scalarize

open Traced

/-! ## Values from their places -/

theorem Vec.ext_elems {v w : Vec} (h : v.elems = w.elems) : v = w := by
  cases v
  cases w
  cases h
  rfl

theorem Vec.ext_get {v w : Vec} (hlen : v.length = w.length)
    (hget : ∀ i < v.length, v.get i = w.get i) : v = w := by
  refine ext_elems (List.ext_getElem hlen fun i hv hw => ?_)
  have hi := hget i hv
  rwa [get_eq_getElem hv, get_eq_getElem hw] at hi

theorem Mat.ext_rows {m n : Mat} (h : m.rows = n.rows) : m = n := by
  cases m
  cases n
  cases h
  rfl

theorem Mat.ext_get {m n : Mat} (hsize : m.SameSize n)
    (hget : ∀ i < m.rowCount, ∀ j < m.colCount, m.get i j = n.get i j) : m = n := by
  refine ext_rows (List.ext_getElem hsize.1 fun i hm hn => ?_)
  have hrow := length_of_mem_rows (List.getElem_mem hm)
  have hrow' := length_of_mem_rows (List.getElem_mem hn)
  refine Vec.ext_get (hrow.trans (hsize.2.trans hrow'.symm)) fun j hj => ?_
  have hcell := hget i hm j (hj.trans_eq hrow)
  rwa [get, get, List.getElem?_eq_getElem hm, List.getElem?_eq_getElem hn] at hcell

/-! ## Sums of products -/

/-- A sum of numbers from the left, from zero. -/
def Num.sum (xs : List Num) : Num :=
  xs.foldl (Num.binary "add") (.ofInt 0)

theorem Num.sum_append (xs : List Num) (x : Num) :
    sum (xs ++ [x]) = .binary "add" (sum xs) x := by
  rw [sum, List.foldl_concat, sum]

/-- A sum determines its terms: the start is no sum, so the number of terms is determined too. -/
theorem Num.sum_injective : Function.Injective Num.sum := by
  intro xs
  induction xs using List.reverseRecOn with
  | nil =>
    intro ys h
    obtain rfl | ⟨ys, y, rfl⟩ := List.eq_nil_or_concat' ys
    · rfl
    · rw [sum_append] at h
      cases h
  | append_singleton xs x ih =>
    intro ys h
    obtain rfl | ⟨ys, y, rfl⟩ := List.eq_nil_or_concat' ys
    · rw [sum_append] at h
      cases h
    · rw [sum_append, sum_append] at h
      obtain ⟨-, hsum, rfl⟩ := Num.binary.inj h
      rw [ih hsum]

theorem Vec.dot_eq_sum (v w : Vec) :
    v.dot w = .sum ((v.elems.zip w.elems).map fun p => .binary "mul" p.1 p.2) := by
  rw [dot, Num.sum, List.zip, List.map_zipWith]

/-- A dot product determines the pairs of elements, and nothing else. -/
theorem Vec.dot_eq_iff {v w v' w' : Vec} :
    v.dot w = v'.dot w' ↔ v.elems.zip w.elems = v'.elems.zip w'.elems := by
  rw [dot_eq_sum, dot_eq_sum, Num.sum_injective.eq_iff]
  refine List.map_injective_iff.mpr ?_ |>.eq_iff
  rintro ⟨x, y⟩ ⟨x', y'⟩ h
  obtain ⟨-, rfl, rfl⟩ := Num.binary.inj h
  rfl

theorem Mat.productCell_eq_sum (m n : Mat) (i j : Nat) :
    m.productCell n i j
      = .sum ((List.range n.rowCount).map fun k => .binary "mul" (m.get i k) (n.get k j)) := by
  rw [productCell, Num.sum, List.foldl_map]

/-! ## Operations that check sizes -/

/-- An operation on two operands that refuses those whose sizes do not fit, for one reason, and
whose results determine the operands, so that no element of an operand is dropped. -/
structure ChecksSizes {α : Type} (Fit : α → α → Prop) (reason : Diagnostic)
    (step : α → α → Except Diagnostic α) : Prop where
  refuses : ∀ a b d, step a b = .error d ↔ ¬ Fit a b ∧ d = reason
  lossless : ∀ a b a' b' c, step a b = .ok c → step a' b' = .ok c → a = a' ∧ b = b'

theorem ChecksSizes.of_cases {α : Type} {Fit : α → α → Prop} {reason : Diagnostic}
    {step : α → α → Except Diagnostic α} {result : ∀ a b, Fit a b → α}
    (hfit : ∀ a b (h : Fit a b), step a b = .ok (result a b h))
    (hunfit : ∀ a b, ¬ Fit a b → step a b = .error reason)
    (hresult : ∀ a b a' b' h h', result a b h = result a' b' h' → a = a' ∧ b = b') :
    ChecksSizes Fit reason step where
  refuses a b d := by
    by_cases h : Fit a b
    · simp [hfit a b h, h]
    · simp [hunfit a b h, h, eq_comm]
  lossless a b a' b' c hc hc' := by
    by_cases h : Fit a b
    · by_cases h' : Fit a' b'
      · rw [hfit a b h] at hc
        rw [hfit a' b' h'] at hc'
        exact hresult a b a' b' h h' (Except.ok.inj (hc.trans hc'.symm))
      · rw [hunfit a' b' h'] at hc'
        cases hc'
    · rw [hunfit a b h] at hc
      cases hc

/-- Vectors of one length. -/
def Vec.SameLength (v w : Vec) : Prop :=
  v.length = w.length

theorem Vec.Combines.checksSizes {op : String} {reason : Diagnostic}
    {step : Vec → Vec → Except Diagnostic Vec} (h : Vec.Combines (.binary op) step)
    (hunfit : ∀ v w, ¬ v.SameLength w → step v w = .error reason) :
    ChecksSizes Vec.SameLength reason step := by
  refine .of_cases h hunfit fun v w v' w' hvw hvw' hresult => ?_
  have hlen : v.length = v'.length := by
    rw [← length_combine hvw, hresult, length_combine hvw']
  have hplace : ∀ i < v.length, v.get i = v'.get i ∧ w.get i = w'.get i := by
    intro i hi
    have hi' := congrArg (Vec.get · i) hresult
    simp only [get_combine hvw hi, get_combine hvw' (hlen ▸ hi)] at hi'
    exact (Num.binary.inj hi').2
  have hlen' : w.length = w'.length := hvw.symm.trans (hlen.trans hvw')
  exact ⟨ext_get hlen fun i hi => (hplace i hi).1,
    ext_get hlen' fun i hi => (hplace i (hi.trans_eq (Eq.symm hvw))).2⟩

theorem Mat.Combines.checksSizes {op : String} {reason : Diagnostic}
    {step : Mat → Mat → Except Diagnostic Mat} (h : Mat.Combines (.binary op) step)
    (hunfit : ∀ m n, ¬ m.SameSize n → step m n = .error reason) :
    ChecksSizes Mat.SameSize reason step := by
  refine .of_cases h hunfit fun m n m' n' hmn hmn' hresult => ?_
  have hsize : m.SameSize m' := by
    have hm := sameSize_combine (f := .binary op) m n
    have hm' := sameSize_combine (f := .binary op) m' n'
    rw [hresult] at hm
    exact ⟨hm.1.trans hm'.1.symm, hm.2.trans hm'.2.symm⟩
  have hplace : ∀ i < m.rowCount, ∀ j < m.colCount,
      m.get i j = m'.get i j ∧ n.get i j = n'.get i j := by
    intro i hi j hj
    have hij := congrArg (Mat.get · i j) hresult
    simp only [combine, get_ofCells hi hj, get_ofCells (hsize.1 ▸ hi) (hsize.2 ▸ hj)] at hij
    exact (Num.binary.inj hij).2
  have hsize' : n.SameSize n' :=
    ⟨hmn.1.symm.trans (hsize.1.trans hmn'.1), hmn.2.symm.trans (hsize.2.trans hmn'.2)⟩
  exact ⟨ext_get hsize fun i hi j hj => (hplace i hi j hj).1,
    ext_get hsize' fun i hi j hj => (hplace i (hmn.1 ▸ hi) j (hmn.2 ▸ hj)).2⟩

theorem Mat.checksSizes_product :
    ChecksSizes (fun m n => m.colCount = n.rowCount) .productMismatch product := by
  refine .of_cases (fun m n h => if_pos h) (fun m n h => if_neg h)
    fun m n m' n' hmn hmn' hresult => ?_
  have hrows : m.rowCount = m'.rowCount := by
    simpa only [rowCount_ofCells] using congrArg Mat.rowCount hresult
  have hcols : n.colCount = n'.colCount := by
    simpa only [colCount_ofCells] using congrArg Mat.colCount hresult
  have hterms : ∀ i < m.rowCount, ∀ j < n.colCount,
      ((List.range n.rowCount).map fun k => Num.binary "mul" (m.get i k) (n.get k j))
        = (List.range n'.rowCount).map fun k => .binary "mul" (m'.get i k) (n'.get k j) := by
    intro i hi j hj
    have hij := congrArg (Mat.get · i j) hresult
    simp only [get_ofCells hi hj, get_ofCells (hrows ▸ hi) (hcols ▸ hj), productCell_eq_sum] at hij
    exact Num.sum_injective hij
  -- there is a cell, and its terms count the numbers that were paired
  have hinner : n.rowCount = n'.rowCount := by
    simpa using congrArg List.length (hterms 0 m.rowCount_pos 0 n.colCount_pos)
  have hplace : ∀ i < m.rowCount, ∀ k < n.rowCount, ∀ j < n.colCount,
      m.get i k = m'.get i k ∧ n.get k j = n'.get k j := by
    intro i hi k hk j hj
    have hk' := congrArg (·[k]?) (hterms i hi j hj)
    simp only [List.getElem?_map, List.getElem?_range hk, List.getElem?_range (hinner ▸ hk),
      Option.map_some, Option.some.injEq] at hk'
    exact (Num.binary.inj hk').2
  have hinner' : m.colCount = m'.colCount := hmn.trans (hinner.trans hmn'.symm)
  exact ⟨ext_get ⟨hrows, hinner'⟩ fun i hi k hk =>
      (hplace i hi k (hmn ▸ hk) 0 n.colCount_pos).1,
    ext_get ⟨hinner, hcols⟩ fun k hk j hj => (hplace 0 m.rowCount_pos k hk j hj).2⟩

/-! ## The dot product -/

/-- Between vectors of one length the dot product loses nothing. -/
theorem Vec.eq_of_dot_eq {v w v' w' : Vec} (h : v.SameLength w) (h' : v'.SameLength w')
    (hdot : v.dot w = v'.dot w') : v = v' ∧ w = w' := by
  have hzip := dot_eq_iff.mp hdot
  constructor
  · apply ext_elems
    rw [← List.map_fst_zip (le_of_eq h), hzip, List.map_fst_zip (le_of_eq h')]
  · apply ext_elems
    rw [← List.map_snd_zip (ge_of_eq h), hzip, List.map_snd_zip (ge_of_eq h')]

theorem Vec.length_pos (v : Vec) : 0 < v.length :=
  List.length_pos_iff.mpr v.nonempty

/-- The first elements of a vector, at least one of them. -/
def Vec.beginning (v : Vec) (n : Nat) (hn : 0 < n) : Vec :=
  ⟨v.elems.take n, by
    have hv := v.length_pos
    apply List.ne_nil_of_length_pos
    rw [List.length_take]
    exact lt_min hn hv⟩

theorem Vec.length_beginning (v : Vec) {n : Nat} (hn : 0 < n) :
    (v.beginning n hn).length = min n v.length :=
  List.length_take

/-- Elements beyond the end of the other vector do not count. -/
theorem Vec.dot_beginning (v w : Vec) :
    (v.beginning w.length w.length_pos).dot (w.beginning v.length v.length_pos) = v.dot w := by
  rw [dot_eq_iff]
  show (v.elems.take w.elems.length).zip (w.elems.take v.elems.length) = v.elems.zip w.elems
  rw [@List.zip_eq_zip_take_min _ _ v.elems, List.take_eq_take_min (l := w.elems),
    List.take_eq_take_min (l := v.elems), Nat.min_comm]

section

variable {env : Env} {e f : Tree} {v w : Vec}

/-- The value of a dot product in a program, whatever the lengths. -/
theorem evalNumber_dot (he : (evalVector env e).Returns v) (hf : (evalVector env f).Returns w)
    (trace : Trace) :
    ((evalNumber env (.node "dot" [e, f])).runFrom trace).1 = .ok (v.dot w) := by
  have hrun := evaluate_of_operands (s := .number) (t := .node "dot" [e, f]) rfl
    (forall₂_evaluate_vector (.cons he (.cons hf .nil)))
    (NumForm.build_eq (f := .dot) rfl rfl) trace
  exact ok_of_runFrom_map (fun _ _ => Value.number.inj) hrun

end

/-- The element-wise operations on vectors and on matrices and the matrix product fail exactly for
operands whose sizes do not fit, with the reason of the operation, and their results determine the
operands. The dot product never fails. It loses nothing if the lengths are equal; otherwise it is
the dot product of the beginnings that have the shorter length, and the other elements are
dropped. -/
theorem sizes_checked_except_dot (op : String) :
    ChecksSizes Vec.SameLength (.lengthMismatch op) (Vec.chainStep op) ∧
    ChecksSizes Vec.SameLength (.lengthMismatch op) (Vec.apply op) ∧
    ChecksSizes Mat.SameSize (.sizeMismatch op) (Mat.chainStep op) ∧
    ChecksSizes Mat.SameSize (.sizeMismatch op) (Mat.apply op) ∧
    ChecksSizes (fun m n => m.colCount = n.rowCount) .productMismatch Mat.product ∧
    (∀ env e f v w, (evalVector env e).Returns v → (evalVector env f).Returns w → ∀ trace,
      ((evalNumber env (.node "dot" [e, f])).runFrom trace).1 = .ok (v.dot w)) ∧
    (∀ v w v' w' : Vec, v.SameLength w → v'.SameLength w' → v.dot w = v'.dot w' →
      v = v' ∧ w = w') ∧
    ∀ v w : Vec, ∃ v' w' : Vec, v'.elems <+: v.elems ∧ w'.elems <+: w.elems ∧
      v'.length = min v.length w.length ∧ w'.length = min v.length w.length ∧
      v.dot w = v'.dot w' := by
  refine ⟨(Vec.combines_chainStep op).checksSizes fun v w h => dif_neg h,
    (Vec.combines_apply op).checksSizes fun v w h => dif_neg h,
    (Mat.combines_chainStep op).checksSizes fun m n h => if_neg h,
    (Mat.combines_apply op).checksSizes fun m n h => if_neg h,
    Mat.checksSizes_product, fun env e f v w he hf => evalNumber_dot he hf,
    fun v w v' w' h h' => Vec.eq_of_dot_eq h h', fun v w => ?_⟩
  refine ⟨v.beginning w.length w.length_pos, w.beginning v.length v.length_pos,
    List.take_prefix _ _, List.take_prefix _ _, ?_, w.length_beginning _,
    (Vec.dot_beginning v w).symm⟩
  rw [Vec.length_beginning, Nat.min_comm]

theorem sizes_checked_except_dot_sample :
    ∃ v w : Vec, ¬ v.SameLength w ∧
      Vec.chainStep "vec_add" v w = .error (.lengthMismatch "vec_add") ∧
      Vec.apply "max" v w = .error (.lengthMismatch "max") ∧
      ((evalNumber .empty (.node "dot" [wholeVector [1, 2], wholeVector [3]])).runFrom .start).1
        = .ok (v.dot w) ∧
      ∃ v' w' : Vec, v'.length = 1 ∧ w'.length = 1 ∧ v.dot w = v'.dot w' := by
  obtain ⟨hchain, -, -, -, -, hdot, -, hbeginning⟩ := sizes_checked_except_dot "vec_add"
  obtain ⟨-, happly, -⟩ := sizes_checked_except_dot "max"
  let v : Vec := ⟨[.ofInt 1, .ofInt 2], by simp⟩
  let w : Vec := ⟨[.ofInt 3], by simp⟩
  have hunfit : ¬ v.SameLength w := by simp [v, w, Vec.SameLength, Vec.length]
  obtain ⟨v', w', -, -, hv', hw', heq⟩ := hbeginning v w
  exact ⟨v, w, hunfit, (hchain.refuses v w _).mpr ⟨hunfit, rfl⟩,
    (happly.refuses v w _).mpr ⟨hunfit, rfl⟩,
    hdot .empty (wholeVector [1, 2]) (wholeVector [3]) v w ⟨.start, _, rfl⟩ ⟨.start, _, rfl⟩ _,
    v', w', hv', hw', heq⟩

/-- The dot product of vectors of two lengths has a value, and it is the one without the element
that has no partner. -/
theorem dot_drops_unpaired :
    ((evalNumber .empty (.node "dot" [wholeVector [1, 2], wholeVector [3]])).runFrom .start).1
      = .ok (.binary "add" (.ofInt 0) (.binary "mul" (.ofInt 1) (.ofInt 3))) ∧
    ((evalNumber .empty (.node "dot" [wholeVector [1], wholeVector [3]])).runFrom .start).1
      = .ok (.binary "add" (.ofInt 0) (.binary "mul" (.ofInt 1) (.ofInt 3))) :=
  ⟨rfl, rfl⟩

end Scalarize
