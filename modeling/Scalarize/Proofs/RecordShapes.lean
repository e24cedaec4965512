import Scalarize.Proofs.Records

/-!
# Scalarize — the shapes of records

A record of a vector or a matrix is in order if its counts are right, there is an element, and the
rows have one length. What the compiler has at hand are numbers, the records that it makes of them,
and what the operations give when they are used again and again. All of these are in order: they are
the records of the values of the compiler.

* **`Operation`**, **`Pairing`** — the operations on one record and on two, with what they do to the
  sizes.
* **`Obtained`** — the records that come about from numbers.
* **`obtained_shapes`** — obtained records are in order, an operation on them gives the size that it
  prescribes or a diagnostic, and the sizes of the operands tell which.
-/

namespace Scalarize

/-! ## Records and sizes of each sort -/

/-- The values of a sort. -/
abbrev Carrier : ValueSort → Type
  | .number => Num
  | .vector => Vec
  | .matrix => Mat

/-- The records of a sort; a number is its own record. -/
abbrev Record : ValueSort → Type
  | .number => Num
  | .vector => VecRecord
  | .matrix => MatRecord

/-- The sizes of a sort: a length, or the counts of rows and columns. -/
abbrev Shape : ValueSort → Type
  | .number => Unit
  | .vector => Nat
  | .matrix => Nat × Nat

/-- The record of a value. -/
def recordOf : {s : ValueSort} → Carrier s → Record s
  | .number, x => x
  | .vector, v => v.record
  | .matrix, m => m.record

/-- The size that a record says it has. -/
def shapeOf : {s : ValueSort} → Record s → Shape s
  | .number, _ => ()
  | .vector, v => v.length
  | .matrix, m => (m.rows, m.cols)

/-- A vector with an element, and its count is right. -/
def VecRecord.InOrder (v : VecRecord) : Prop :=
  v.nums ≠ [] ∧ v.length = v.nums.length

/-- A matrix with a row, its rows are in order and have one length, and the counts are right. -/
def MatRecord.InOrder (m : MatRecord) : Prop :=
  m.vecs ≠ [] ∧ m.rows = m.vecs.length ∧ ∀ v ∈ m.vecs, v.InOrder ∧ v.length = m.cols

/-- A record whose counts are its true sizes. -/
def InOrder : {s : ValueSort} → Record s → Prop
  | .number, _ => True
  | .vector, v => v.InOrder
  | .matrix, m => m.InOrder

theorem VecRecord.inOrder_iff {v : VecRecord} : v.InOrder ↔ ∃ x : Vec, x.record = v := by
  constructor
  · rintro ⟨hne, hlen⟩
    obtain ⟨nums, length⟩ := v
    refine ⟨⟨nums, hne⟩, ?_⟩
    rw [show length = nums.length from hlen]
    rfl
  · rintro ⟨x, rfl⟩
    exact ⟨x.nonempty, rfl⟩

/-- Records of vectors in order are the records of vectors. -/
theorem exists_map_record {vs : List VecRecord} (h : ∀ v ∈ vs, v.InOrder) :
    ∃ ws : List Vec, ws.map Vec.record = vs := by
  show vs ∈ Set.range (List.map Vec.record)
  rw [Set.range_list_map]
  exact fun v hv => VecRecord.inOrder_iff.mp (h v hv)

theorem MatRecord.inOrder_iff {m : MatRecord} : m.InOrder ↔ ∃ x : Mat, x.record = m := by
  constructor
  · rintro ⟨hne, hrows, hvecs⟩
    obtain ⟨ws, hws⟩ := exists_map_record fun v hv => (hvecs v hv).1
    have hcols : ∀ w ∈ ws, w.length = m.cols := fun w hw =>
      (hvecs w.record (hws ▸ List.mem_map_of_mem hw)).2
    have hne' : ws ≠ [] := by
      rintro rfl
      exact hne hws.symm
    have hlen : ws.length = m.rows := by
      rw [hrows, ← hws, List.length_map]
    refine ⟨⟨ws, hne', fun v hv w hw => (hcols v hv).trans (hcols w hw).symm⟩, ?_⟩
    show MatRecord.mk (ws.map Vec.record) ws.length (ws.head hne').length = m
    rw [hws, hlen, hcols _ (List.head_mem hne')]
  · rintro ⟨x, rfl⟩
    refine ⟨by simp [vecs_record, x.nonempty], length_vecs.symm, fun v hv => ?_⟩
    obtain ⟨w, hw, rfl⟩ := List.mem_map.mp hv
    exact ⟨VecRecord.inOrder_iff.mpr ⟨w, rfl⟩, Mat.length_of_mem_rows hw⟩

theorem inOrder_iff {s : ValueSort} {r : Record s} : InOrder r ↔ ∃ x : Carrier s, recordOf x = r := by
  cases s with
  | number => exact ⟨fun _ => ⟨r, rfl⟩, fun _ => trivial⟩
  | vector => exact VecRecord.inOrder_iff
  | matrix => exact MatRecord.inOrder_iff

/-! ## Operations -/

/-- The operations on one value. -/
inductive Operation : ValueSort → ValueSort → Type where
  | unary (op : String) : Operation .number .number
  | map (op : String) : Operation .vector .vector
  | reverse : Operation .vector .vector
  | len : Operation .vector .number
  | reduce (op : String) : Operation .vector .number
  | elem (i : Int) : Operation .vector .number
  | mapCells (op : String) : Operation .matrix .matrix
  | transpose : Operation .matrix .matrix
  | rows : Operation .matrix .number
  | cols : Operation .matrix .number
  | cell (i j : Int) : Operation .matrix .number
  | row (i : Int) : Operation .matrix .vector
  | col (j : Int) : Operation .matrix .vector
  | assign (index : Nat) (s : ValueSort) : Operation s s

/-- The operations on two values. -/
inductive Pairing : ValueSort → ValueSort → ValueSort → Type where
  | binary (op : String) : Pairing .number .number .number
  | vecChain (op : String) : Pairing .vector .vector .vector
  | vecApply (op : String) : Pairing .vector .vector .vector
  | vecPremap (op : String) : Pairing .vector .number .vector
  | vecPostmap (op : String) : Pairing .number .vector .vector
  | concat : Pairing .vector .vector .vector
  | dot : Pairing .vector .vector .number
  | matChain (op : String) : Pairing .matrix .matrix .matrix
  | matApply (op : String) : Pairing .matrix .matrix .matrix
  | matPremap (op : String) : Pairing .matrix .number .matrix
  | matPostmap (op : String) : Pairing .number .matrix .matrix
  | product : Pairing .matrix .matrix .matrix

/-- Assign a record to its generated names. -/
def assignRecord (index : Nat) : {s : ValueSort} → Record s → Except Failure (List Tree × Record s)
  | .number, x => .ok (Num.assign index x)
  | .vector, v => v.assign index
  | .matrix, m => m.assign index

/-- Assign a value to its generated names. -/
def assignCarrier (index : Nat) : {s : ValueSort} → Carrier s → List Tree × Carrier s
  | .number, x => Num.assign index x
  | .vector, v => v.assign index
  | .matrix, m => m.assign index

/-- An index of a sequence of length `n`, from the front or from the end. -/
def IsIndex (n : Nat) (i : Int) : Prop :=
  -n ≤ i ∧ i < n

instance (n : Nat) (i : Int) : Decidable (IsIndex n i) :=
  inferInstanceAs (Decidable (_ ∧ _))

namespace Operation

variable {s t : ValueSort}

/-- What an operation does to a record. -/
def run : Operation s t → Record s → Except Failure (Record t)
  | unary op, x => .ok (Num.unary op x)
  | map op, v => v.mapElems (.unary op)
  | reverse, v => v.reverse
  | len, v => .ok (Num.ofInt v.length)
  | reduce op, v => v.reduce op
  | elem i, v => fetchSigned (.elementOutOfRange i) v.nums i
  | mapCells op, m => m.mapCells (.unary op)
  | transpose, m => m.transpose
  | rows, m => .ok (Num.ofInt m.rows)
  | cols, m => .ok (Num.ofInt m.cols)
  | cell i j, m => m.elem i j
  | row i, m => fetchSigned (.rowOutOfRange i) m.vecs i
  | col j, m => m.col j
  | assign index _, r => (assignRecord index r).map Prod.snd

/-- What an operation does to a value. -/
def apply : Operation s t → Carrier s → Except Diagnostic (Carrier t)
  | unary op, x => .ok (Num.unary op x)
  | map op, v => .ok (v.map op)
  | reverse, v => .ok v.reverse
  | len, v => .ok v.len
  | reduce op, v => .ok (v.reduce op)
  | elem i, v => v.elem i
  | mapCells op, m => .ok (m.map op)
  | transpose, m => .ok m.transpose
  | rows, m => .ok m.rowNumber
  | cols, m => .ok m.colNumber
  | cell i j, m => m.elem i j
  | row i, m => m.row i
  | col j, m => m.col j
  | assign index _, x => .ok (assignCarrier index x).2

/-- The size that an operation prescribes for its result; none if it refuses operands of the given
size. -/
def shape : Operation s t → Shape s → Option (Shape t)
  | unary _, _ => some ()
  | map _, n => some n
  | reverse, n => some n
  | len, _ => some ()
  | reduce _, _ => some ()
  | elem i, n => if IsIndex n i then some () else none
  | mapCells _, n => some n
  | transpose, (r, c) => some (c, r)
  | rows, _ => some ()
  | cols, _ => some ()
  | cell i j, (r, c) => if IsIndex r i ∧ IsIndex c j then some () else none
  | row i, (r, c) => if IsIndex r i then some c else none
  | col j, (r, c) => if IsIndex c j then some r else none
  | assign _ _, n => some n

end Operation

namespace Pairing

variable {s s' t : ValueSort}

/-- What an operation does to two records. -/
def run : Pairing s s' t → Record s → Record s' → Except Failure (Record t)
  | binary op, x, y => .ok (Num.binary op x y)
  | vecChain op, v, w => v.chainStep op w
  | vecApply op, v, w => v.apply op w
  | vecPremap op, v, x => v.mapElems fun e => .binary op e x
  | vecPostmap op, x, v => v.mapElems fun e => .binary op x e
  | concat, v, w => v.concat w
  | dot, v, w => .ok (v.dot w)
  | matChain op, m, n => m.chainStep op n
  | matApply op, m, n => m.apply op n
  | matPremap op, m, x => m.mapCells fun e => .binary op e x
  | matPostmap op, x, m => m.mapCells fun e => .binary op x e
  | product, m, n => m.product n

/-- What an operation does to two values. -/
def apply : Pairing s s' t → Carrier s → Carrier s' → Except Diagnostic (Carrier t)
  | binary op, x, y => .ok (Num.binary op x y)
  | vecChain op, v, w => Vec.chainStep op v w
  | vecApply op, v, w => Vec.apply op v w
  | vecPremap op, v, x => .ok (v.premap op x)
  | vecPostmap op, x, v => .ok (v.postmap op x)
  | concat, v, w => .ok (v.concat w)
  | dot, v, w => .ok (v.dot w)
  | matChain op, m, n => Mat.chainStep op m n
  | matApply op, m, n => Mat.apply op m n
  | matPremap op, m, x => .ok (m.premap op x)
  | matPostmap op, x, m => .ok (m.postmap op x)
  | product, m, n => m.product n

/-- The size that an operation prescribes for its result; none if it refuses operands of the given
sizes. -/
def shape : Pairing s s' t → Shape s → Shape s' → Option (Shape t)
  | binary _, _, _ => some ()
  | vecChain _, n, k => if n = k then some n else none
  | vecApply _, n, k => if n = k then some n else none
  | vecPremap _, n, _ => some n
  | vecPostmap _, _, n => some n
  | concat, n, k => some (n + k)
  | dot, _, _ => some ()
  | matChain _, n, k => if n = k then some n else none
  | matApply _, n, k => if n = k then some n else none
  | matPremap _, n, _ => some n
  | matPostmap _, _, n => some n
  | product, (r, c), (r', c') => if c = r' then some (r, c') else none

end Pairing

/-! ## Records follow values -/

theorem assignRecord_recordOf (index : Nat) {s : ValueSort} (x : Carrier s) :
    assignRecord index (recordOf x) = .ok ((assignCarrier index x).map id recordOf) := by
  cases s with
  | number => rfl
  | vector => exact VecRecord.assign_record index x
  | matrix => exact MatRecord.assign_record index x

/-- On the record of a value an operation gives the record of what it gives on the value. -/
theorem Operation.run_recordOf {s t : ValueSort} (op : Operation s t) (x : Carrier s) :
    op.run (recordOf x) = outcome recordOf (op.apply x) := by
  cases op with
  | unary op => rfl
  | map op => exact VecRecord.make_elems (Vec.map op x)
  | reverse => exact VecRecord.make_elems (Vec.reverse x)
  | len => rfl
  | reduce op => exact VecRecord.reduce_record op x
  | elem i =>
    show fetchSigned _ (Vec.elems x) i = outcome (recordOf (s := .number)) (Vec.elem x i)
    rw [fetchSigned, Vec.elem]
    cases signedGet? (Vec.elems x) i <;> rfl
  | mapCells op => exact MatRecord.mapCells_record _ x
  | transpose => exact MatRecord.transpose_record x
  | rows => rfl
  | cols => rfl
  | cell i j => exact MatRecord.elem_record i j x
  | row i => exact MatRecord.row_record i x
  | col j => exact MatRecord.col_record j x
  | assign index =>
    rw [run, assignRecord_recordOf]
    rfl

theorem Pairing.run_recordOf {s s' t : ValueSort} (op : Pairing s s' t) (x : Carrier s)
    (y : Carrier s') : op.run (recordOf x) (recordOf y) = outcome recordOf (op.apply x y) := by
  cases op with
  | binary op => rfl
  | vecChain op => exact VecRecord.chainStep_record op x y
  | vecApply op => exact VecRecord.apply_record op x y
  | vecPremap op => exact VecRecord.make_elems (Vec.premap op x y)
  | vecPostmap op => exact VecRecord.make_elems (Vec.postmap op x y)
  | concat => exact VecRecord.make_elems (Vec.concat x y)
  | dot => rfl
  | matChain op => exact MatRecord.chainStep_record op x y
  | matApply op => exact MatRecord.apply_record op x y
  | matPremap op => exact MatRecord.mapCells_record _ x
  | matPostmap op => exact MatRecord.mapCells_record _ y
  | product => exact MatRecord.product_record x y

/-! ## Sizes of results -/

section

variable {α : Type} {n : Nat} {i : Int} {xs : List α}

theorem position?_of_isIndex (h : IsIndex n i) : ∃ k < n, position? n i = some k := by
  obtain ⟨hlow, hhigh⟩ := h
  unfold position?
  by_cases hi : 0 ≤ i
  · refine ⟨i.toNat, by omega, ?_⟩
    rw [if_pos hi, if_pos hhigh]
  · refine ⟨(i + n).toNat, by omega, ?_⟩
    rw [if_neg hi, if_pos (by omega)]

theorem position?_eq_none (h : ¬ IsIndex n i) : position? n i = none := by
  unfold IsIndex at h
  unfold position?
  grind

theorem signedGet?_of_isIndex (h : IsIndex xs.length i) : ∃ x ∈ xs, signedGet? xs i = some x := by
  obtain ⟨k, hk, hposition⟩ := position?_of_isIndex h
  refine ⟨xs[k], List.getElem_mem hk, ?_⟩
  rw [signedGet?, hposition, Option.bind_some, List.getElem?_eq_getElem hk]

theorem signedGet?_eq_none (h : ¬ IsIndex xs.length i) : signedGet? xs i = none := by
  rw [signedGet?, position?_eq_none h, Option.bind_none]

end

/-- The size of a value. -/
def sizeIn {s : ValueSort} (x : Carrier s) : Shape s :=
  shapeOf (recordOf x)

theorem sizeIn_matrix_eq {m n : Mat} (h : m.SameSize n) :
    sizeIn (s := .matrix) m = sizeIn (s := .matrix) n :=
  Prod.ext h.1 h.2

theorem sameSize_of_sizeIn_eq {m n : Mat}
    (h : sizeIn (s := .matrix) m = sizeIn (s := .matrix) n) : m.SameSize n :=
  Prod.mk.inj h

theorem sizeIn_ofCells {r c : Nat} {hr : 0 < r} {hc : 0 < c} {f : Nat → Nat → Num} :
    sizeIn (s := .matrix) (Mat.ofCells r c hr hc f) = (r, c) :=
  Prod.ext Mat.rowCount_ofCells Mat.colCount_ofCells

theorem sizeIn_mapCells (f : Num → Num) (m : Mat) :
    sizeIn (s := .matrix) (m.mapCells f) = sizeIn (s := .matrix) m := by
  refine sizeIn_matrix_eq ⟨List.length_map _, ?_⟩
  rw [Mat.colCount, Mat.first]
  simp [Mat.mapCells, Mat.mapRows, Vec.mapElems, Vec.length, Mat.colCount, Mat.first]

theorem sizeIn_assign (index : Nat) {s : ValueSort} (x : Carrier s) :
    sizeIn (assignCarrier index x).2 = sizeIn x := by
  cases s with
  | number => rfl
  | vector => exact List.length_mapIdx
  | matrix => exact (sizeIn_matrix_eq (MatRecord.sameSize_assign index x)).symm

/-- An operation on a value gives the size that it prescribes. -/
theorem Operation.shape_apply {s t : ValueSort} (op : Operation s t) (x : Carrier s) :
    (op.apply x).toOption.map sizeIn = op.shape (sizeIn x) := by
  cases op with
  | unary op => rfl
  | map op => exact congrArg some (List.length_map _)
  | reverse => exact congrArg some List.length_reverse
  | len => rfl
  | reduce op => rfl
  | elem i =>
    rw [apply, shape]
    show _ = if IsIndex (Vec.elems x).length i then _ else _
    by_cases h : IsIndex (Vec.elems x).length i
    · obtain ⟨y, -, hy⟩ := signedGet?_of_isIndex h
      rw [if_pos h, Vec.elem, hy]
      rfl
    · rw [if_neg h, Vec.elem, signedGet?_eq_none h]
      rfl
  | mapCells op => exact congrArg some (sizeIn_mapCells _ x)
  | transpose => exact congrArg some sizeIn_ofCells
  | rows => rfl
  | cols => rfl
  | cell i j =>
    rw [apply, Mat.elem]
    show _ = if IsIndex (Mat.rows x).length i ∧ IsIndex (Mat.colCount x) j then _ else _
    -- every row is as long as the matrix is wide, so the second index can be judged without the row
    by_cases hi : IsIndex (Mat.rows x).length i
    · obtain ⟨v, hv, hrow⟩ := signedGet?_of_isIndex hi
      have hlen : v.elems.length = Mat.colCount x := Mat.length_of_mem_rows hv
      rw [hrow, Option.bind_some]
      by_cases hj : IsIndex (Mat.colCount x) j
      · obtain ⟨y, -, hy⟩ := signedGet?_of_isIndex (hlen.symm ▸ hj)
        rw [if_pos ⟨hi, hj⟩, hy]
        rfl
      · rw [if_neg fun h => hj h.2, signedGet?_eq_none (hlen.symm ▸ hj)]
        rfl
    · rw [if_neg fun h => hi h.1, signedGet?_eq_none hi]
      rfl
  | row i =>
    rw [apply, Mat.row]
    show _ = if IsIndex (Mat.rows x).length i then _ else _
    by_cases hi : IsIndex (Mat.rows x).length i
    · obtain ⟨v, hv, hrow⟩ := signedGet?_of_isIndex hi
      rw [if_pos hi, hrow]
      exact congrArg some (Mat.length_of_mem_rows hv)
    · rw [if_neg hi, signedGet?_eq_none hi]
      rfl
  | col j =>
    rw [apply, Mat.col]
    show _ = if IsIndex (Mat.colCount x) j then _ else _
    by_cases hj : IsIndex (Mat.colCount x) j
    · obtain ⟨k, -, hk⟩ := position?_of_isIndex hj
      rw [if_pos hj, hk]
      exact congrArg some (List.length_map _)
    · rw [if_neg hj, position?_eq_none hj]
      rfl
  | assign index => exact congrArg some (sizeIn_assign index x)

theorem Vec.Combines.sizeIn_eq {f : Num → Num → Num} {step : Vec → Vec → Except Diagnostic Vec}
    {reason : Diagnostic} (h : Vec.Combines f step)
    (hunfit : ∀ v w, ¬ v.SameLength w → step v w = .error reason) (v w : Vec) :
    (step v w).toOption.map (sizeIn (s := .vector))
      = if v.length = w.length then some v.length else none := by
  by_cases hlen : v.length = w.length
  · rw [h v w hlen, if_pos hlen]
    exact congrArg some (length_combine hlen)
  · rw [hunfit v w hlen, if_neg hlen]
    rfl

theorem Mat.Combines.sizeIn_eq {f : Num → Num → Num} {step : Mat → Mat → Except Diagnostic Mat}
    {reason : Diagnostic} (h : Mat.Combines f step)
    (hunfit : ∀ m n, ¬ m.SameSize n → step m n = .error reason) (m n : Mat) :
    (step m n).toOption.map (sizeIn (s := .matrix))
      = if sizeIn (s := .matrix) m = sizeIn (s := .matrix) n then some (sizeIn (s := .matrix) m)
        else none := by
  by_cases hsize : m.SameSize n
  · rw [h m n hsize, if_pos (sizeIn_matrix_eq hsize)]
    exact congrArg some (sizeIn_matrix_eq (sameSize_combine m n)).symm
  · rw [hunfit m n hsize, if_neg fun heq => hsize (sameSize_of_sizeIn_eq heq)]
    rfl

theorem Pairing.shape_apply {s s' t : ValueSort} (op : Pairing s s' t) (x : Carrier s)
    (y : Carrier s') : (op.apply x y).toOption.map sizeIn = op.shape (sizeIn x) (sizeIn y) := by
  cases op with
  | binary op => rfl
  | vecChain op => exact (Vec.combines_chainStep op).sizeIn_eq (fun v w h => dif_neg h) x y
  | vecApply op => exact (Vec.combines_apply op).sizeIn_eq (fun v w h => dif_neg h) x y
  | vecPremap op => exact congrArg some (List.length_map _)
  | vecPostmap op => exact congrArg some (List.length_map _)
  | concat => exact congrArg some List.length_append
  | dot => rfl
  | matChain op => exact (Mat.combines_chainStep op).sizeIn_eq (fun m n h => if_neg h) x y
  | matApply op => exact (Mat.combines_apply op).sizeIn_eq (fun m n h => if_neg h) x y
  | matPremap op => exact congrArg some (sizeIn_mapCells _ x)
  | matPostmap op => exact congrArg some (sizeIn_mapCells _ y)
  | product =>
    rw [apply, Mat.product]
    show _ = if Mat.colCount x = Mat.rowCount y then some (Mat.rowCount x, Mat.colCount y) else none
    by_cases h : Mat.colCount x = Mat.rowCount y
    · rw [if_pos h, if_pos h]
      exact congrArg some sizeIn_ofCells
    · rw [if_neg h, if_neg h]
      rfl

/-! ## What is obtained from numbers -/

/-- The records that come about from numbers by making vectors and matrices and by operations. -/
inductive Obtained : {s : ValueSort} → Record s → Prop where
  | number (x : Num) : Obtained (s := .number) x
  | vector {nums : List Num} {v : VecRecord} (h : VecRecord.make nums = .ok v) :
      Obtained (s := .vector) v
  | matrix {vecs : List VecRecord} {m : MatRecord} (hvecs : ∀ v ∈ vecs, Obtained (s := .vector) v)
      (h : MatRecord.make vecs = .ok m) : Obtained (s := .matrix) m
  | operation {s t : ValueSort} (op : Operation s t) {r : Record s} {u : Record t}
      (hr : Obtained r) (h : op.run r = .ok u) : Obtained u
  | pairing {s s' t : ValueSort} (op : Pairing s s' t) {r : Record s} {r' : Record s'}
      {u : Record t} (hr : Obtained r) (hr' : Obtained r') (h : op.run r r' = .ok u) : Obtained u

theorem inOrder_of_outcome {t : ValueSort} {result : Except Diagnostic (Carrier t)} {u : Record t}
    (h : outcome recordOf result = .ok u) : InOrder u := by
  cases result with
  | error d => cases h
  | ok x => exact inOrder_iff.mpr ⟨x, Except.ok.inj h⟩

theorem VecRecord.inOrder_of_make {nums : List Num} {v : VecRecord} (h : make nums = .ok v) :
    v.InOrder := by
  cases nums with
  | nil => cases h
  | cons x xs =>
    rw [← Except.ok.inj h]
    exact ⟨List.cons_ne_nil x xs, rfl⟩

theorem MatRecord.inOrder_of_make {vecs : List VecRecord} {m : MatRecord}
    (hvecs : ∀ v ∈ vecs, v.InOrder) (h : make vecs = .ok m) : m.InOrder := by
  obtain ⟨ws, rfl⟩ := exists_map_record hvecs
  rw [make_record] at h
  cases hrows : Mat.ofRows ws with
  | error e =>
    rw [hrows] at h
    cases h
  | ok x =>
    rw [hrows] at h
    exact inOrder_iff.mpr ⟨x, Except.ok.inj h⟩

/-- Whatever is obtained is in order. The step is that operations on records of values give records
of values. -/
theorem Obtained.inOrder {s : ValueSort} {r : Record s} (h : Obtained r) : InOrder r := by
  induction h with
  | number x => trivial
  | vector h => exact VecRecord.inOrder_of_make h
  | matrix _ h ih => exact MatRecord.inOrder_of_make ih h
  | operation op _ h ih =>
    obtain ⟨x, rfl⟩ := inOrder_iff.mp ih
    rw [op.run_recordOf] at h
    exact inOrder_of_outcome h
  | pairing op _ _ h ih ih' =>
    obtain ⟨x, rfl⟩ := inOrder_iff.mp ih
    obtain ⟨y, rfl⟩ := inOrder_iff.mp ih'
    rw [op.run_recordOf] at h
    exact inOrder_of_outcome h

theorem obtained_recordOf {s : ValueSort} (x : Carrier s) : Obtained (recordOf x) := by
  cases s with
  | number => exact .number x
  | vector => exact .vector (VecRecord.make_elems x)
  | matrix =>
    refine .matrix (fun v hv => ?_) (MatRecord.make_vecs x)
    obtain ⟨w, -, rfl⟩ := List.mem_map.mp hv
    exact .vector (VecRecord.make_elems w)

/-- A result has the prescribed size and is in order, or is a diagnostic where none is
prescribed. -/
def Prescribed {t : ValueSort} (size : Option (Shape t)) (result : Except Failure (Record t)) :
    Prop :=
  match size with
  | some n => ∃ u, result = .ok u ∧ InOrder u ∧ shapeOf u = n
  | none => ∃ d : Diagnostic, result = .error (.diagnostic d)

theorem prescribed_outcome {t : ValueSort} {size : Option (Shape t)}
    {result : Except Diagnostic (Carrier t)} (h : result.toOption.map sizeIn = size) :
    Prescribed size (outcome recordOf result) := by
  subst h
  cases result with
  | error d => exact ⟨d, rfl⟩
  | ok x => exact ⟨recordOf x, rfl, inOrder_iff.mpr ⟨x, rfl⟩, rfl⟩

/-- What is obtained from numbers is what is in order, and these are the records of the values of
the compiler, on which operations do the same. A new vector of at least one number has their count
for its length. A new matrix of at least one obtained row has the counts of rows and columns for its
size if the rows have one length, and otherwise is refused with a diagnostic. An operation on
obtained records gives a record in order of the size that it prescribes for the sizes of the
operands, or fails with a diagnostic if it prescribes none. -/
theorem obtained_shapes :
    (∀ (s : ValueSort) (r : Record s), Obtained r ↔ InOrder r) ∧
    (∀ (s : ValueSort) (r : Record s), InOrder r ↔ ∃ x : Carrier s, recordOf x = r) ∧
    (∀ (s t : ValueSort) (op : Operation s t) (x : Carrier s),
      op.run (recordOf x) = outcome recordOf (op.apply x)) ∧
    (∀ (s s' t : ValueSort) (op : Pairing s s' t) (x : Carrier s) (y : Carrier s'),
      op.run (recordOf x) (recordOf y) = outcome recordOf (op.apply x y)) ∧
    (∀ x xs, Prescribed (t := .vector) (some (xs.length + 1)) (VecRecord.make (x :: xs))) ∧
    (∀ v vs, (∀ w ∈ v :: vs, Obtained (s := .vector) w) →
      Prescribed (t := .matrix)
        (if ∀ w ∈ vs, w.length = v.length then some (vs.length + 1, v.length) else none)
        (MatRecord.make (v :: vs))) ∧
    (∀ (s t : ValueSort) (op : Operation s t) (r : Record s), Obtained r →
      Prescribed (op.shape (shapeOf r)) (op.run r)) ∧
    ∀ (s s' t : ValueSort) (op : Pairing s s' t) (r : Record s) (r' : Record s'),
      Obtained r → Obtained r' →
      Prescribed (op.shape (shapeOf r) (shapeOf r')) (op.run r r') := by
  refine ⟨fun s r => ⟨Obtained.inOrder, fun h => ?_⟩, fun s r => inOrder_iff,
    fun s t op x => op.run_recordOf x, fun s s' t op x y => op.run_recordOf x y,
    fun x xs => ⟨_, rfl, ⟨List.cons_ne_nil x xs, rfl⟩, rfl⟩, fun v vs hvs => ?_,
    fun s t op r hr => ?_, fun s s' t op r r' hr hr' => ?_⟩
  · obtain ⟨x, rfl⟩ := inOrder_iff.mp h
    exact obtained_recordOf x
  · by_cases h : ∀ w ∈ vs, w.length = v.length
    · have hmake : MatRecord.make (v :: vs) = .ok ⟨v :: vs, vs.length + 1, v.length⟩ := if_pos h
      rw [if_pos h]
      exact ⟨_, hmake, MatRecord.inOrder_of_make (fun w hw => (hvs w hw).inOrder) hmake, rfl⟩
    · rw [if_neg h]
      exact ⟨.raggedMatrix, if_neg h⟩
  · obtain ⟨x, rfl⟩ := inOrder_iff.mp hr.inOrder
    rw [op.run_recordOf]
    exact prescribed_outcome (op.shape_apply x)
  · obtain ⟨x, rfl⟩ := inOrder_iff.mp hr.inOrder
    obtain ⟨y, rfl⟩ := inOrder_iff.mp hr'.inOrder
    rw [op.run_recordOf]
    exact prescribed_outcome (op.shape_apply x y)

theorem obtained_shapes_sample :
    ∃ m : MatRecord, Obtained (s := .matrix) m ∧ m.InOrder ∧ (m.rows, m.cols) = (2, 3) ∧
      (∃ u : MatRecord, m.transpose = .ok u ∧ u.InOrder ∧ (u.rows, u.cols) = (3, 2)) ∧
      ∃ d : Diagnostic, m.product m = .error (.diagnostic d) := by
  obtain ⟨hinOrder, -, -, -, -, -, hoperation, hpairing⟩ := obtained_shapes
  let v : Vec := ⟨[.ofInt 1, .ofInt 2, .ofInt 3], by simp⟩
  let m : Mat := ⟨[v, v], by simp, by simp⟩
  have hm : Obtained (s := .matrix) m.record := obtained_recordOf (s := .matrix) m
  exact ⟨m.record, hm, (hinOrder .matrix m.record).mp hm, rfl,
    hoperation .matrix .matrix .transpose m.record hm,
    hpairing .matrix .matrix .matrix .product m.record m.record hm hm⟩

end Scalarize
