import Scalarize.Proofs.OperandSizes

/-!
# Scalarize — vectors and matrices as records

A vector can also be kept as a record of its numbers and of their count, and a matrix as a record of
its rows and of the counts of rows and columns. Nothing in such a record says that the counts are
right, that there is an element or that the rows have one length. The operations on records trust
the counts, look elements up by position, and make new records of what they find. On a record that
is not in order they can fail in ways that no diagnostic describes.

* **`VecRecord`**, **`MatRecord`** — the records, with the operations on them.
* **`Vec.record`**, **`Mat.record`** — the records of vectors and matrices. On these an operation
  does what the operation on vectors and matrices does, one lemma for each.
-/

namespace Scalarize

/-! ## Looking up -/

/-- The element at a position of a list that must be long enough. -/
def fetch {α : Type} (xs : List α) (i : Nat) : Except Failure α :=
  match xs[i]? with
  | some x => .ok x
  | none => .error (.fault .missingChild)

/-- The element at a signed index, with the reason that is given if there is none. -/
def fetchSigned {α : Type} (reason : Diagnostic) (xs : List α) (i : Int) : Except Failure α :=
  match signedGet? xs i with
  | some x => .ok x
  | none => .error (.diagnostic reason)

/-! ## Vectors -/

/-- A vector as a record: the numbers and their count. -/
structure VecRecord where
  nums : List Num
  length : Nat

namespace VecRecord

/-- A new record, which must have a number. -/
def make : List Num → Except Failure VecRecord
  | [] => .error (.fault .emptyVector)
  | x :: xs => .ok ⟨x :: xs, xs.length + 1⟩

/-- One step of a chain of vector operators. -/
def chainStep (op : String) (v w : VecRecord) : Except Failure VecRecord :=
  if v.length = w.length then do
    let nums ← v.nums.zipIdx.mapM fun p => do
      let y ← fetch w.nums p.2
      pure (.binary (Vec.elementOperator op) p.1 y)
    make nums
  else .error (.diagnostic (.lengthMismatch op))

/-- Apply an operator on numbers to the elements of two vectors. -/
def apply (op : String) (v w : VecRecord) : Except Failure VecRecord :=
  if v.length = w.length then make (List.zipWith (.binary op) v.nums w.nums)
  else .error (.diagnostic (.lengthMismatch op))

/-- Change each element. -/
def mapElems (f : Num → Num) (v : VecRecord) : Except Failure VecRecord :=
  make (v.nums.map f)

/-- One vector after the other. -/
def concat (v w : VecRecord) : Except Failure VecRecord :=
  make (v.nums ++ w.nums)

/-- The elements from the last to the first. -/
def reverse (v : VecRecord) : Except Failure VecRecord :=
  make v.nums.reverse

/-- Zero plus the products of the elements, in order. -/
def dot (v w : VecRecord) : Num :=
  (List.zipWith (Num.binary "mul") v.nums w.nums).foldl (Num.binary "add") (.ofInt 0)

/-- The elements joined by an operator, from the left. -/
def reduce (op : String) (v : VecRecord) : Except Failure Num := do
  let x ← fetch v.nums 0
  pure (v.nums.tail.foldl (Num.binary op) x)

/-- Assign the elements to their generated names. -/
def assign (index : Nat) (v : VecRecord) : Except Failure (List Tree × VecRecord) := do
  let names ← make (v.nums.mapIdx fun i _ => .name (vecName index i))
  pure (v.nums.mapIdx fun i x => x.assignTo (vecName index i), names)

end VecRecord

/-! ## Matrices -/

/-- A matrix as a record: the rows, their count and the length of the first. -/
structure MatRecord where
  vecs : List VecRecord
  rows : Nat
  cols : Nat

namespace MatRecord

/-- A new record, which must have a row. -/
def make : List VecRecord → Except Failure MatRecord
  | [] => .error (.fault .emptyMatrix)
  | v :: vs =>
    if ∀ w ∈ vs, w.length = v.length then .ok ⟨v :: vs, vs.length + 1, v.length⟩
    else .error (.diagnostic .raggedMatrix)

/-- Do two records say the same of their sizes? -/
def SameSize (m n : MatRecord) : Prop :=
  m.rows = n.rows ∧ m.cols = n.cols

instance (m n : MatRecord) : Decidable (SameSize m n) :=
  inferInstanceAs (Decidable (_ ∧ _))

/-- One step of a chain of matrix operators. -/
def chainStep (op : String) (m n : MatRecord) : Except Failure MatRecord :=
  if m.SameSize n then do
    let vecs ← m.vecs.zipIdx.mapM fun p => do
      let w ← fetch n.vecs p.2
      p.1.chainStep (Mat.rowOperator op) w
    make vecs
  else .error (.diagnostic (.sizeMismatch op))

/-- Apply an operator on numbers to the cells of two matrices. -/
def apply (op : String) (m n : MatRecord) : Except Failure MatRecord :=
  if m.SameSize n then do
    let vecs ← (m.vecs.zip n.vecs).mapM fun p => p.1.apply op p.2
    make vecs
  else .error (.diagnostic (.sizeMismatch op))

/-- Change each cell. -/
def mapCells (f : Num → Num) (m : MatRecord) : Except Failure MatRecord := do
  let vecs ← m.vecs.mapM (VecRecord.mapElems f)
  make vecs

/-- Rows and columns exchanged. -/
def transpose (m : MatRecord) : Except Failure MatRecord := do
  let vecs ← (List.range m.cols).mapM fun j => do
    let nums ← m.vecs.mapM fun v => fetch v.nums j
    VecRecord.make nums
  make vecs

/-- A cell of the product: zero plus the products along a row and a column, in order. -/
def productCell (m n : MatRecord) (i j : Nat) : Except Failure Num :=
  (List.range n.rows).foldlM (fun sum k => do
    let v ← fetch m.vecs i
    let x ← fetch v.nums k
    let w ← fetch n.vecs k
    let y ← fetch w.nums j
    pure (.binary "add" sum (.binary "mul" x y))) (.ofInt 0)

/-- The product of two matrices. -/
def product (m n : MatRecord) : Except Failure MatRecord :=
  if m.cols = n.rows then do
    let vecs ← (List.range m.rows).mapM fun i => do
      let nums ← (List.range n.cols).mapM (m.productCell n i)
      VecRecord.make nums
    make vecs
  else .error (.diagnostic .productMismatch)

/-- The cell at two signed indices. -/
def elem (m : MatRecord) (i j : Int) : Except Failure Num := do
  let v ← fetchSigned (.cellOutOfRange i j) m.vecs i
  fetchSigned (.cellOutOfRange i j) v.nums j

/-- The column at a signed index. -/
def col (m : MatRecord) (j : Int) : Except Failure VecRecord := do
  let nums ← m.vecs.mapM fun v => fetchSigned (.columnOutOfRange j) v.nums j
  VecRecord.make nums

/-- Assign the cells to their generated names, row by row. -/
def assign (index : Nat) (m : MatRecord) : Except Failure (List Tree × MatRecord) := do
  let vecs ← m.vecs.zipIdx.mapM fun p =>
    VecRecord.make (p.1.nums.mapIdx fun j _ => .name (matName index p.2 j))
  let names ← make vecs
  pure ((m.vecs.mapIdx fun i v => v.nums.mapIdx fun j x =>
    x.assignTo (matName index i j)).flatten, names)

end MatRecord

/-! ## Loops that find what they look up -/

section

variable {α β ε : Type}

theorem fetch_eq_ok {xs : List α} {i : Nat} (hi : i < xs.length) : fetch xs i = .ok xs[i] := by
  rw [fetch, List.getElem?_eq_getElem hi]

theorem mapM_eq_ok {f : α → Except ε β} {xs : List α} {ys : List β}
    (hlen : xs.length = ys.length)
    (h : ∀ i (hx : i < xs.length) (hy : i < ys.length), f xs[i] = .ok ys[i]) :
    xs.mapM f = .ok ys := by
  induction xs generalizing ys with
  | nil =>
    rw [List.eq_nil_of_length_eq_zero hlen.symm]
    rfl
  | cons x xs ih =>
    obtain ⟨y, ys, rfl⟩ := List.exists_cons_of_length_eq_add_one hlen.symm
    have hfirst : f x = .ok y := h 0 (Nat.succ_pos _) (Nat.succ_pos _)
    have hrest : xs.mapM f = .ok ys := ih (Nat.succ.inj hlen) fun i hx hy =>
      h (i + 1) (Nat.succ_lt_succ hx) (Nat.succ_lt_succ hy)
    rw [List.mapM_cons, hfirst, hrest]
    rfl

theorem signedGet?_map (f : α → β) (xs : List α) (i : Int) :
    signedGet? (xs.map f) i = (signedGet? xs i).map f := by
  rw [signedGet?, signedGet?, List.length_map, Option.map_bind]
  simp only [List.getElem?_map]
  rfl

theorem position?_lt {n k : Nat} {i : Int} (h : position? n i = some k) : k < n := by
  unfold position? at h
  grind

theorem foldlM_eq_ok {f : β → α → Except ε β} {g : β → α → β} {xs : List α}
    (h : ∀ b, ∀ a ∈ xs, f b a = .ok (g b a)) (b : β) :
    xs.foldlM f b = .ok (xs.foldl g b) := by
  induction xs generalizing b with
  | nil => rfl
  | cons x xs ih =>
    rw [List.foldlM_cons, h b x List.mem_cons_self]
    exact ih (fun b a ha => h b a (List.mem_cons_of_mem x ha)) (g b x)

end

/-- What a record operation gives for an operation on vectors or matrices. -/
def outcome {α β : Type} (f : α → β) : Except Diagnostic α → Except Failure β
  | .ok a => .ok (f a)
  | .error d => .error (.diagnostic d)

/-! ## The records of vectors -/

/-- The record of a vector. -/
def Vec.record (v : Vec) : VecRecord :=
  ⟨v.elems, v.length⟩

@[simp]
theorem Vec.nums_record (v : Vec) : v.record.nums = v.elems :=
  rfl

@[simp]
theorem Vec.length_record (v : Vec) : v.record.length = v.length :=
  rfl

namespace VecRecord

theorem make_elems (v : Vec) : make v.elems = .ok v.record := by
  obtain ⟨elems, hne⟩ := v
  cases elems with
  | nil => exact absurd rfl hne
  | cons x xs => rfl

theorem chainStep_record (op : String) (v w : Vec) :
    v.record.chainStep op w.record = outcome Vec.record (v.chainStep op w) := by
  by_cases h : v.length = w.length
  · have hlen : v.elems.length = w.elems.length := h
    have hnums : v.elems.zipIdx.mapM (fun p => do
        let y ← fetch w.elems p.2
        pure (Num.binary (Vec.elementOperator op) p.1 y))
        = .ok (Vec.combine (.binary (Vec.elementOperator op)) v w h).elems := by
      refine mapM_eq_ok (by simp [Vec.combine, hlen]) fun i hx hy => ?_
      rw [List.length_zipIdx] at hx
      simp only [List.getElem_zipIdx, Nat.zero_add, fetch_eq_ok (hlen ▸ hx), Vec.combine,
        List.getElem_zipWith]
      rfl
    rw [Vec.combines_chainStep op v w h, chainStep, Vec.length_record, Vec.length_record,
      if_pos h, Vec.nums_record, Vec.nums_record, hnums]
    exact make_elems _
  · rw [chainStep, Vec.length_record, Vec.length_record, if_neg h, Vec.chainStep, dif_neg h]
    rfl

theorem apply_record (op : String) (v w : Vec) :
    v.record.apply op w.record = outcome Vec.record (v.apply op w) := by
  by_cases h : v.length = w.length
  · rw [Vec.combines_apply op v w h, apply, Vec.length_record, Vec.length_record, if_pos h]
    exact make_elems (Vec.combine (.binary op) v w h)
  · rw [apply, Vec.length_record, Vec.length_record, if_neg h, Vec.apply, dif_neg h]
    rfl

theorem reduce_record (op : String) (v : Vec) : v.record.reduce op = .ok (v.reduce op) := by
  rw [reduce, Vec.record, fetch_eq_ok v.length_pos, Vec.reduce, Vec.first, List.head_eq_getElem]
  rfl

theorem assign_record (index : Nat) (v : Vec) :
    v.record.assign index = .ok ((v.assign index).map id Vec.record) := by
  have hnames := make_elems (v.assign index).2
  rw [assign]
  show (do let names ← make (v.assign index).2.elems; _) = _
  rw [hnames]
  rfl

end VecRecord

/-! ## The records of matrices -/

/-- The record of a matrix. -/
def Mat.record (m : Mat) : MatRecord :=
  ⟨m.rows.map Vec.record, m.rowCount, m.colCount⟩

@[simp]
theorem Mat.rows_record (m : Mat) : m.record.rows = m.rowCount :=
  rfl

@[simp]
theorem Mat.cols_record (m : Mat) : m.record.cols = m.colCount :=
  rfl

namespace MatRecord

theorem make_record (vs : List Vec) :
    make (vs.map Vec.record) = (Mat.ofRows vs).map Mat.record := by
  cases vs with
  | nil => rfl
  | cons v vs =>
    have hrect : (∀ w ∈ vs.map Vec.record, w.length = v.record.length)
        ↔ ∀ u ∈ v :: vs, ∀ w ∈ v :: vs, u.length = w.length := by
      rw [List.forall_mem_map]
      constructor
      · intro h
        have hall : ∀ u ∈ v :: vs, u.length = v.length := List.forall_mem_cons.mpr ⟨rfl, h⟩
        exact fun u hu w hw => (hall u hu).trans (hall w hw).symm
      · exact fun h w hw => h w (List.mem_cons_of_mem v hw) v List.mem_cons_self
    rw [List.map_cons, make, Mat.ofRows, dif_neg (List.cons_ne_nil v vs)]
    by_cases h : ∀ w ∈ vs.map Vec.record, w.length = v.record.length
    · rw [if_pos h, dif_pos (hrect.mp h), List.length_map]
      rfl
    · rw [if_neg h, dif_neg (mt hrect.mpr h)]
      rfl

/-- A record can be made of the rows of a matrix. -/
theorem make_vecs (m : Mat) : make m.record.vecs = .ok m.record := by
  show make (m.rows.map Vec.record) = _
  rw [make_record, Mat.ofRows, dif_neg m.nonempty, dif_pos m.rectangular]
  rfl

section

variable {m n : Mat} {i j : Nat}

theorem vecs_record : m.record.vecs = m.rows.map Vec.record :=
  rfl

theorem length_vecs : m.record.vecs.length = m.rows.length :=
  List.length_map _

theorem getElem_vecs (hi : i < m.rows.length) (hi' : i < m.record.vecs.length) :
    m.record.vecs[i] = m.rows[i].record :=
  List.getElem_map _

theorem fetch_vecs (hi : i < m.rows.length) : fetch m.record.vecs i = .ok m.rows[i].record := by
  have hi' : i < m.record.vecs.length := hi.trans_eq length_vecs.symm
  rw [fetch_eq_ok hi', getElem_vecs hi hi']

theorem fetch_nums (hi : i < m.rows.length) (hj : j < m.colCount) :
    fetch m.rows[i].elems j = .ok (m.get i j) := by
  have hj' : j < m.rows[i].elems.length :=
    hj.trans_eq (Mat.length_of_mem_rows (List.getElem_mem hi)).symm
  rw [fetch_eq_ok hj', Mat.get_eq_getElem hi hj']

/-- A row of a matrix with given cells. -/
theorem make_ofCells {r c : Nat} {hr : 0 < r} {hc : 0 < c} {f : Nat → Nat → Num}
    (hi : i < (Mat.ofCells r c hr hc f).record.vecs.length) :
    VecRecord.make ((List.range c).map (f i)) = .ok (Mat.ofCells r c hr hc f).record.vecs[i] := by
  rw [getElem_vecs (hi.trans_eq length_vecs), ← VecRecord.make_elems]
  congr 1
  simp [Mat.ofCells]

theorem sameSize_record : m.record.SameSize n.record ↔ m.SameSize n :=
  Iff.rfl

theorem length_vecs_eq (h : m.SameSize n) : m.record.vecs.length = n.record.vecs.length := by
  rw [length_vecs, length_vecs]
  exact h.1

theorem length_rows_eq (h : m.SameSize n) (hi : i < m.rows.length) (hi' : i < n.rows.length) :
    m.rows[i].length = n.rows[i].length := by
  rw [Mat.length_of_mem_rows (List.getElem_mem hi), Mat.length_of_mem_rows (List.getElem_mem hi')]
  exact h.2

/-- A row of matrices that are combined cell by cell. -/
theorem getElem_vecs_combine {f : Num → Num → Num} (h : m.SameSize n) (hi : i < m.rows.length)
    (hi' : i < n.rows.length) (hc : i < (Mat.combine f m n).record.vecs.length) :
    (Mat.combine f m n).record.vecs[i]
      = (Vec.combine f m.rows[i] n.rows[i] (length_rows_eq h hi hi')).record := by
  have hlen : m.rows[i].elems.length = m.colCount :=
    Mat.length_of_mem_rows (List.getElem_mem hi)
  have hlen' : n.rows[i].elems.length = m.colCount :=
    (Mat.length_of_mem_rows (List.getElem_mem hi')).trans h.2.symm
  have hcells : (Vec.combine f m.rows[i] n.rows[i] (length_rows_eq h hi hi')).elems
      = (List.range m.colCount).map fun j => f (m.get i j) (n.get i j) := by
    refine List.ext_getElem (by simp [Vec.combine, hlen, hlen']) fun j hj _ => ?_
    simp only [Vec.combine, List.length_zipWith, hlen, hlen', Nat.min_self] at hj
    simp only [Vec.combine, List.getElem_zipWith, List.getElem_map, List.getElem_range,
      Mat.get_eq_getElem hi (hj.trans_eq hlen.symm), Mat.get_eq_getElem hi' (hj.trans_eq hlen'.symm)]
  have hmake := make_ofCells hc
  rw [← hcells, VecRecord.make_elems] at hmake
  exact (Except.ok.inj hmake).symm

theorem chainStep_record (op : String) (m n : Mat) :
    m.record.chainStep op n.record = outcome Mat.record (m.chainStep op n) := by
  by_cases h : m.SameSize n
  · have hvecs : m.record.vecs.zipIdx.mapM (fun p => do
        let w ← fetch n.record.vecs p.2
        p.1.chainStep (Mat.rowOperator op) w) = .ok (Mat.combine
          (.binary (Vec.elementOperator (Mat.rowOperator op))) m n).record.vecs := by
      refine mapM_eq_ok ?_ fun i hx hy => ?_
      · rw [List.length_zipIdx, length_vecs_eq (Mat.sameSize_combine m n)]
      rw [List.length_zipIdx, length_vecs] at hx
      have hx' : i < n.rows.length := hx.trans_eq h.1
      rw [getElem_vecs_combine h hx hx' hy, List.getElem_zipIdx, getElem_vecs hx, Nat.zero_add,
        fetch_vecs hx']
      show VecRecord.chainStep _ _ _ = _
      rw [VecRecord.chainStep_record, Vec.combines_chainStep _ _ _ (length_rows_eq h hx hx')]
      rfl
    rw [Mat.combines_chainStep op m n h, chainStep, if_pos (sameSize_record.mpr h), hvecs]
    exact make_vecs _
  · rw [chainStep, if_neg (mt sameSize_record.mp h), Mat.chainStep, if_neg h]
    rfl

theorem apply_record (op : String) (m n : Mat) :
    m.record.apply op n.record = outcome Mat.record (m.apply op n) := by
  by_cases h : m.SameSize n
  · have hlen : (m.record.vecs.zip n.record.vecs).length = m.rows.length := by
      rw [List.length_zip, ← length_vecs_eq h, Nat.min_self, length_vecs]
    have hvecs : (m.record.vecs.zip n.record.vecs).mapM (fun p => p.1.apply op p.2)
        = .ok (Mat.combine (.binary op) m n).record.vecs := by
      refine mapM_eq_ok ?_ fun i hx hy => ?_
      · rw [hlen, ← length_vecs, length_vecs_eq (Mat.sameSize_combine m n)]
      rw [hlen] at hx
      have hx' : i < n.rows.length := hx.trans_eq h.1
      rw [getElem_vecs_combine h hx hx' hy, List.getElem_zip, getElem_vecs hx, getElem_vecs hx',
        VecRecord.apply_record, Vec.combines_apply _ _ _ (length_rows_eq h hx hx')]
      rfl
    rw [Mat.combines_apply op m n h, apply, if_pos (sameSize_record.mpr h), hvecs]
    exact make_vecs _
  · rw [apply, if_neg (mt sameSize_record.mp h), Mat.apply, if_neg h]
    rfl

theorem mapCells_record (f : Num → Num) (m : Mat) :
    m.record.mapCells f = .ok (m.mapCells f).record := by
  have hvecs : m.record.vecs.mapM (VecRecord.mapElems f) = .ok (m.mapCells f).record.vecs := by
    refine mapM_eq_ok (by simp [Mat.record, Mat.mapCells, Mat.mapRows]) fun i hx hy => ?_
    rw [length_vecs] at hx
    have hrow : (m.mapCells f).record.vecs[i] = (m.rows[i].mapElems f).record := by
      simp [Mat.record, Mat.mapCells, Mat.mapRows]
    rw [hrow, getElem_vecs hx]
    exact VecRecord.make_elems (m.rows[i].mapElems f)
  rw [mapCells, hvecs]
  exact make_vecs _

theorem transpose_record (m : Mat) : m.record.transpose = .ok m.transpose.record := by
  have hcolumn : ∀ j < m.colCount, m.record.vecs.mapM (fun v : VecRecord => fetch v.nums j)
      = .ok ((List.range m.rowCount).map fun i => m.get i j) := by
    intro j hj
    refine mapM_eq_ok (by simp [length_vecs, Mat.rowCount]) fun i hx hy => ?_
    rw [length_vecs] at hx
    rw [getElem_vecs hx, Vec.nums_record, fetch_nums hx hj, List.getElem_map, List.getElem_range]
  have hvecs : (List.range m.colCount).mapM (fun j => do
      let nums ← m.record.vecs.mapM fun v : VecRecord => fetch v.nums j
      VecRecord.make nums) = .ok m.transpose.record.vecs := by
    refine mapM_eq_ok ?_ fun j hx hy => ?_
    · rw [List.length_range, length_vecs]
      exact Mat.rowCount_ofCells.symm
    rw [List.getElem_range, hcolumn j (by simpa using hx)]
    exact make_ofCells hy
  rw [transpose, Mat.cols_record, hvecs]
  exact make_vecs _

theorem productCell_record (h : m.colCount = n.rowCount) (hi : i < m.rows.length)
    (hj : j < n.colCount) : m.record.productCell n.record i j = .ok (m.productCell n i j) := by
  refine foldlM_eq_ok (fun sum k hk => ?_) _
  have hk' : k < n.rows.length := List.mem_range.mp hk
  rw [fetch_vecs hi, fetch_vecs hk']
  show (do
    let x ← fetch m.rows[i].elems k
    let y ← fetch n.rows[k].elems j
    pure (Num.binary "add" sum (.binary "mul" x y)) : Except Failure Num) = _
  rw [fetch_nums hi (hk'.trans_eq h.symm), fetch_nums hk' hj]
  rfl

theorem product_record (m n : Mat) :
    m.record.product n.record = outcome Mat.record (m.product n) := by
  by_cases h : m.colCount = n.rowCount
  · have hrow : ∀ i < m.rowCount, (List.range n.colCount).mapM (m.record.productCell n.record i)
        = .ok ((List.range n.colCount).map (m.productCell n i)) := by
      intro i hi
      refine mapM_eq_ok (by simp) fun j hx hy => ?_
      rw [List.getElem_range, List.getElem_map, List.getElem_range]
      exact productCell_record h hi (by simpa using hx)
    have hvecs : (List.range m.rowCount).mapM (fun i => do
        let nums ← (List.range n.colCount).mapM (m.record.productCell n.record i)
        VecRecord.make nums) = .ok (Mat.ofCells m.rowCount n.colCount m.rowCount_pos
          n.colCount_pos (m.productCell n)).record.vecs := by
      refine mapM_eq_ok ?_ fun i hx hy => ?_
      · rw [List.length_range, length_vecs]
        exact Mat.rowCount_ofCells.symm
      rw [List.getElem_range, hrow i (by simpa using hx)]
      exact make_ofCells hy
    rw [product, Mat.cols_record, Mat.rows_record, if_pos h, Mat.rows_record, Mat.cols_record,
      hvecs, Mat.product, if_pos h]
    exact make_vecs _
  · rw [product, Mat.cols_record, Mat.rows_record, if_neg h, Mat.product, if_neg h]
    rfl

theorem elem_record (i k : Int) (m : Mat) : m.record.elem i k = outcome id (m.elem i k) := by
  rw [elem, fetchSigned, Mat.elem, vecs_record, signedGet?_map]
  cases signedGet? m.rows i with
  | none => rfl
  | some v =>
    show fetchSigned _ v.elems k = _
    rw [fetchSigned, Option.bind_some]
    cases signedGet? v.elems k <;> rfl

theorem row_record (i : Int) (m : Mat) :
    fetchSigned (.rowOutOfRange i) m.record.vecs i = outcome Vec.record (m.row i) := by
  rw [fetchSigned, Mat.row, vecs_record, signedGet?_map]
  cases signedGet? m.rows i <;> rfl

theorem col_record (k : Int) (m : Mat) : m.record.col k = outcome Vec.record (m.col k) := by
  have hlen : ∀ v ∈ m.rows, v.elems.length = m.colCount := fun v => Mat.length_of_mem_rows
  cases hk : position? m.colCount k with
  | none =>
    -- the lookup fails in the first row
    obtain ⟨v, vs, hrows⟩ := List.exists_cons_of_ne_nil m.nonempty
    have hv : signedGet? v.record.nums k = none := by
      rw [signedGet?, Vec.nums_record, hlen v (hrows ▸ List.mem_cons_self), hk, Option.bind_none]
    rw [col, vecs_record, hrows, List.map_cons, List.mapM_cons, fetchSigned, hv, Mat.col, hk]
    rfl
  | some j =>
    have hnums : m.record.vecs.mapM (fun v => fetchSigned (.columnOutOfRange k) v.nums k)
        = .ok (m.rows.map (·.get j)) := by
      refine mapM_eq_ok (by simp [length_vecs]) fun i hx hy => ?_
      rw [length_vecs] at hx
      have hj : j < m.rows[i].elems.length := by
        rw [hlen _ (List.getElem_mem hx)]
        exact position?_lt hk
      rw [getElem_vecs hx, List.getElem_map, fetchSigned, signedGet?, Vec.nums_record,
        hlen _ (List.getElem_mem hx), hk, Option.bind_some, List.getElem?_eq_getElem hj,
        Vec.get_eq_getElem hj]
    rw [col, hnums, Mat.col, hk]
    exact VecRecord.make_elems ⟨m.rows.map (·.get j), by simp [m.nonempty]⟩

theorem assign_snd (index : Nat) (m : Mat) : (m.assign index).2 = Mat.ofCells m.rowCount m.colCount
    m.rowCount_pos m.colCount_pos fun i j => .name (matName index i j) :=
  rfl

theorem sameSize_assign (index : Nat) (m : Mat) : m.SameSize (m.assign index).2 := by
  rw [assign_snd]
  exact ⟨Mat.rowCount_ofCells.symm, Mat.colCount_ofCells.symm⟩

theorem assign_record (index : Nat) (m : Mat) :
    m.record.assign index = .ok ((m.assign index).map id Mat.record) := by
  have hvecs : m.record.vecs.zipIdx.mapM (fun p : VecRecord × Nat =>
      VecRecord.make (p.1.nums.mapIdx fun j _ => .name (matName index p.2 j)))
        = .ok (m.assign index).2.record.vecs := by
    refine mapM_eq_ok ?_ fun i hx hy => ?_
    · rw [List.length_zipIdx, length_vecs_eq (sameSize_assign index m)]
    rw [assign_snd] at hy
    rw [List.length_zipIdx, length_vecs] at hx
    have hnames : m.rows[i].elems.mapIdx (fun j _ => Num.name (matName index i j))
        = (List.range m.colCount).map fun j => .name (matName index i j) := by
      rw [← Mat.length_of_mem_rows (List.getElem_mem hx)]
      exact List.ext_getElem (by simp [Vec.length]) fun j _ _ => by simp
    rw [List.getElem_zipIdx, getElem_vecs hx, Nat.zero_add, Vec.nums_record, hnames]
    exact make_ofCells hy
  have hstatements : (m.record.vecs.mapIdx fun i v => v.nums.mapIdx fun j x =>
      x.assignTo (matName index i j)).flatten = (m.assign index).1 := by
    refine congrArg List.flatten (List.ext_getElem (by simp [length_vecs]) fun i hx _ => ?_)
    rw [List.length_mapIdx, length_vecs] at hx
    rw [List.getElem_mapIdx, List.getElem_mapIdx, getElem_vecs hx, Vec.nums_record]
  rw [assign, hvecs, hstatements]
  show (do
    let names ← make (m.assign index).2.record.vecs
    pure ((m.assign index).1, names) : Except Failure _) = _
  rw [make_vecs]
  rfl

end

end MatRecord

end Scalarize
