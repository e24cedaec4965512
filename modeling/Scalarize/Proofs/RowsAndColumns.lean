import Scalarize.Proofs.RecordShapes

/-!
# Scalarize — rows, columns and cells of a matrix

A row, a column and a cell are asked for by signed indices. Each of them is determined by the cells
of the matrix at the positions that the indices mean, and so is each cell of a product or of a
transposed matrix. The laws between these operations are read off from there.

* **`Mat.row_eq_ok_iff`**, **`Mat.col_eq_ok_iff`**, **`Mat.elem_eq_ok_iff`** — what is found at
  signed indices, in terms of cells.
* **`Mat.productCell_eq_dot`** — a cell of a product is the dot product of a row and a column.
* **`matrix_operations_agree`** — products against dot products, and rows, columns and cells under
  transposition.
-/

namespace Scalarize

theorem exists_position?_iff {n : Nat} {i : Int} :
    (∃ k, position? n i = some k) ↔ IsIndex n i := by
  constructor
  · rintro ⟨k, hk⟩
    by_contra h
    rw [position?_eq_none h] at hk
    cases hk
  · intro h
    obtain ⟨k, -, hk⟩ := position?_of_isIndex h
    exact ⟨k, hk⟩

theorem signedGet?_eq_some_iff {α : Type} {xs : List α} {i : Int} {x : α} :
    signedGet? xs i = some x ↔ ∃ k, position? xs.length i = some k ∧ xs[k]? = some x :=
  Option.bind_eq_some_iff

namespace Mat

variable {m n : Mat} {i j : Int} {a b : Nat} {v w : Vec} {x : Num}

/-! ## What is found at signed indices -/

theorem get_of_getElem? (h : m.rows[a]? = some v) : m.get a b = v.get b := by
  rw [get, h, Option.getD_some]

/-- There is a row at the position that an index means. -/
theorem exists_getElem? (h : position? m.rowCount i = some a) :
    ∃ v, m.rows[a]? = some v ∧ v.length = m.colCount := by
  have ha : a < m.rows.length := position?_lt h
  exact ⟨m.rows[a], List.getElem?_eq_getElem ha, length_of_mem_rows (List.getElem_mem ha)⟩

/-- A row is found where its index means a position, and consists of the cells there. -/
theorem row_eq_ok_iff :
    m.row i = .ok v ↔ ∃ a, position? m.rowCount i = some a ∧ v.length = m.colCount ∧
      ∀ b < m.colCount, v.get b = m.get a b := by
  have hfound : m.row i = .ok v ↔ signedGet? m.rows i = some v := by
    rw [row]
    cases signedGet? m.rows i <;> simp
  rw [hfound, signedGet?_eq_some_iff]
  refine exists_congr fun a => and_congr_right fun ha => ?_
  obtain ⟨u, hu, hlen⟩ := exists_getElem? ha
  constructor
  · intro hv
    obtain rfl := Option.some.inj (hu.symm.trans hv)
    exact ⟨hlen, fun b _ => (get_of_getElem? hu).symm⟩
  · rintro ⟨hlen', hget⟩
    rw [hu, Vec.ext_get (hlen.trans hlen'.symm) fun b hb => ?_]
    rw [hget b (hb.trans_eq hlen), get_of_getElem? hu]

/-- A column is found where its index means a position, and consists of the cells there. -/
theorem col_eq_ok_iff :
    m.col j = .ok w ↔ ∃ b, position? m.colCount j = some b ∧ w.length = m.rowCount ∧
      ∀ a < m.rowCount, w.get a = m.get a b := by
  have hfound : m.col j = .ok w
      ↔ ∃ b, position? m.colCount j = some b ∧ w.elems = m.rows.map (·.get b) := by
    rw [col]
    cases position? m.colCount j with
    | none => simp
    | some b =>
      simp only [Except.ok.injEq, Option.some.injEq, exists_eq_left']
      exact ⟨fun h => h ▸ rfl, fun h => Vec.ext_elems h.symm⟩
  rw [hfound]
  refine exists_congr fun b => and_congr_right fun _ => ?_
  have hcell : ∀ a (ha : a < m.rows.length), m.rows[a].get b = m.get a b := fun a ha =>
    (get_of_getElem? (List.getElem?_eq_getElem ha)).symm
  constructor
  · intro hw
    have hlen : w.elems.length = m.rowCount := by rw [hw, List.length_map, rowCount]
    refine ⟨hlen, fun a ha => ?_⟩
    rw [Vec.get_eq_getElem (ha.trans_eq hlen.symm), List.getElem_of_eq hw, List.getElem_map,
      hcell]
  · rintro ⟨hlen, hget⟩
    refine List.ext_getElem (hlen.trans (List.length_map _).symm) fun a ha ha' => ?_
    rw [← Vec.get_eq_getElem ha, hget a (ha.trans_eq hlen), List.getElem_map, hcell]

/-- A cell is found where both indices mean a position. -/
theorem elem_eq_ok_iff :
    m.elem i j = .ok x ↔ ∃ a b, position? m.rowCount i = some a ∧
      position? m.colCount j = some b ∧ m.get a b = x := by
  have hfound : m.elem i j = .ok x
      ↔ ((signedGet? m.rows i).bind fun v => signedGet? v.elems j) = some x := by
    rw [elem]
    cases (signedGet? m.rows i).bind fun v => signedGet? v.elems j <;> simp
  rw [hfound, Option.bind_eq_some_iff]
  constructor
  · rintro ⟨v, hv, hx⟩
    obtain ⟨a, ha, hv⟩ := signedGet?_eq_some_iff.mp hv
    obtain ⟨b, hb, hx⟩ := signedGet?_eq_some_iff.mp hx
    have hlen : v.elems.length = m.colCount := length_of_mem_rows (List.mem_of_getElem? hv)
    refine ⟨a, b, ha, hlen ▸ hb, ?_⟩
    rw [get_of_getElem? hv, Vec.get, hx, Option.getD_some]
  · rintro ⟨a, b, ha, hb, rfl⟩
    obtain ⟨v, hv, hlen⟩ := exists_getElem? ha
    rw [← hlen] at hb
    have hb' : b < v.elems.length := position?_lt hb
    refine ⟨v, signedGet?_eq_some_iff.mpr ⟨a, ha, hv⟩, signedGet?_eq_some_iff.mpr ⟨b, hb, ?_⟩⟩
    rw [get_of_getElem? hv, Vec.get_eq_getElem hb', List.getElem?_eq_getElem hb']

theorem exists_row_iff : (∃ v, m.row i = .ok v) ↔ IsIndex m.rowCount i := by
  rw [← exists_position?_iff]
  constructor
  · rintro ⟨v, hv⟩
    obtain ⟨a, ha, -⟩ := row_eq_ok_iff.mp hv
    exact ⟨a, ha⟩
  · rintro ⟨a, ha⟩
    obtain ⟨v, hv, hlen⟩ := exists_getElem? ha
    exact ⟨v, row_eq_ok_iff.mpr ⟨a, ha, hlen, fun b _ => (get_of_getElem? hv).symm⟩⟩

theorem exists_col_iff : (∃ w, m.col j = .ok w) ↔ IsIndex m.colCount j := by
  rw [← exists_position?_iff]
  constructor
  · rintro ⟨w, hw⟩
    obtain ⟨b, hb, -⟩ := col_eq_ok_iff.mp hw
    exact ⟨b, hb⟩
  · rintro ⟨b, hb⟩
    rw [col, hb]
    exact ⟨_, rfl⟩

theorem exists_elem_iff :
    (∃ x, m.elem i j = .ok x) ↔ IsIndex m.rowCount i ∧ IsIndex m.colCount j := by
  rw [← exists_position?_iff, ← exists_position?_iff]
  constructor
  · rintro ⟨x, hx⟩
    obtain ⟨a, b, ha, hb, -⟩ := elem_eq_ok_iff.mp hx
    exact ⟨⟨a, ha⟩, b, hb⟩
  · rintro ⟨⟨a, ha⟩, b, hb⟩
    exact ⟨m.get a b, elem_eq_ok_iff.mpr ⟨a, b, ha, hb, rfl⟩⟩

/-! ## Transposition -/

theorem rowCount_transpose (m : Mat) : m.transpose.rowCount = m.colCount :=
  rowCount_ofCells

theorem colCount_transpose (m : Mat) : m.transpose.colCount = m.rowCount :=
  colCount_ofCells

theorem get_transpose (ha : a < m.colCount) (hb : b < m.rowCount) :
    m.transpose.get a b = m.get b a :=
  get_ofCells ha hb

theorem transpose_transpose (m : Mat) : m.transpose.transpose = m := by
  refine ext_get ⟨?_, ?_⟩ fun a ha b hb => ?_
  · rw [rowCount_transpose, colCount_transpose]
  · rw [colCount_transpose, rowCount_transpose]
  · rw [rowCount_transpose, colCount_transpose] at ha
    rw [colCount_transpose, rowCount_transpose] at hb
    rw [get_transpose (ha.trans_eq m.colCount_transpose.symm)
      (hb.trans_eq m.rowCount_transpose.symm), get_transpose hb ha]

theorem row_transpose_iff : m.transpose.row i = .ok v ↔ m.col i = .ok v := by
  rw [row_eq_ok_iff, col_eq_ok_iff, rowCount_transpose, colCount_transpose]
  refine exists_congr fun b => and_congr_right fun hb => and_congr_right fun _ => ?_
  refine forall₂_congr fun a ha => ?_
  rw [get_transpose (position?_lt hb) ha]

theorem elem_transpose_iff : m.transpose.elem i j = .ok x ↔ m.elem j i = .ok x := by
  rw [elem_eq_ok_iff, elem_eq_ok_iff, rowCount_transpose, colCount_transpose]
  constructor
  · rintro ⟨a, b, ha, hb, rfl⟩
    exact ⟨b, a, hb, ha, (get_transpose (position?_lt ha) (position?_lt hb)).symm⟩
  · rintro ⟨b, a, hb, ha, rfl⟩
    exact ⟨a, b, ha, hb, get_transpose (position?_lt ha) (position?_lt hb)⟩

/-! ## Products -/

/-- A cell of a product goes along the row and the column in step, as their dot product does. -/
theorem productCell_eq_dot (hv : v.length = n.rowCount) (hw : w.length = n.rowCount)
    (hrow : ∀ k < n.rowCount, v.get k = m.get a k)
    (hcol : ∀ k < n.rowCount, w.get k = n.get k b) : m.productCell n a b = v.dot w := by
  -- both are sums in the same order, so it is enough to compare the summands at each position
  rw [productCell_eq_sum, Vec.dot_eq_sum]
  congr 1
  have hv' : v.elems.length = n.rowCount := hv
  have hw' : w.elems.length = n.rowCount := hw
  refine List.ext_getElem (by simp [hv', hw']) fun k hk hk' => ?_
  rw [List.length_map, List.length_range] at hk
  simp only [List.getElem_map, List.getElem_range, List.getElem_zip]
  rw [← hrow k hk, ← hcol k hk, Vec.get_eq_getElem (hk.trans_eq hv'.symm),
    Vec.get_eq_getElem (hk.trans_eq hw'.symm)]

/-- The cell of a product at two indices is the dot product of the row and the column there. -/
theorem elem_product {p : Mat} (h : m.colCount = n.rowCount) (hp : m.product n = .ok p)
    (hv : m.row i = .ok v) (hw : n.col j = .ok w) : p.elem i j = .ok (v.dot w) := by
  rw [product, if_pos h] at hp
  obtain rfl := Except.ok.inj hp
  obtain ⟨a, ha, hvlen, hvget⟩ := row_eq_ok_iff.mp hv
  obtain ⟨b, hb, hwlen, hwget⟩ := col_eq_ok_iff.mp hw
  refine elem_eq_ok_iff.mpr ⟨a, b, ?_, ?_, ?_⟩
  · rw [rowCount_ofCells, ha]
  · rw [colCount_ofCells, hb]
  · rw [get_ofCells (position?_lt ha) (position?_lt hb)]
    exact productCell_eq_dot (hvlen.trans h) hwlen (h ▸ hvget) hwget

end Mat

/-- If the columns of `m` are as many as the rows of `n`, there is a product, and for all indices in
range its cell has the expression of the dot product of the row of `m` and the column of `n`.
Transposing twice changes nothing. A row of the transposed matrix is the column of the matrix at the
same index, and a cell is that at the exchanged indices, for all integers: one is found where the
other is, and these are the indices in range. -/
theorem matrix_operations_agree :
    (∀ m n : Mat, m.colCount = n.rowCount → ∀ i j : Int, IsIndex m.rowCount i →
      IsIndex n.colCount j → ∃ p x v w, m.product n = .ok p ∧ p.elem i j = .ok x ∧
        m.row i = .ok v ∧ n.col j = .ok w ∧ x.toTree = (v.dot w).toTree) ∧
    ∀ m : Mat, m.transpose.transpose = m ∧
      (∀ i, (∀ v, m.transpose.row i = .ok v ↔ m.col i = .ok v) ∧
        ((∃ v, m.col i = .ok v) ↔ IsIndex m.colCount i)) ∧
      ∀ i j, (∀ x, m.transpose.elem i j = .ok x ↔ m.elem j i = .ok x) ∧
        ((∃ x, m.elem j i = .ok x) ↔ IsIndex m.rowCount j ∧ IsIndex m.colCount i) := by
  constructor
  · intro m n h i j hi hj
    obtain ⟨v, hv⟩ := Mat.exists_row_iff.mpr hi
    obtain ⟨w, hw⟩ := Mat.exists_col_iff.mpr hj
    have hp : m.product n = .ok _ := if_pos h
    exact ⟨_, v.dot w, v, w, hp, Mat.elem_product h hp hv hw, hv, hw, rfl⟩
  · intro m
    exact ⟨m.transpose_transpose, fun i => ⟨fun v => Mat.row_transpose_iff, Mat.exists_col_iff⟩,
      fun i j => ⟨fun x => Mat.elem_transpose_iff, Mat.exists_elem_iff⟩⟩

theorem matrix_operations_agree_sample :
    ∃ m n : Mat, m.colCount = n.rowCount ∧ m.rowCount ≠ m.colCount ∧ IsIndex m.rowCount (-1) ∧
      IsIndex n.colCount 1 ∧ (∃ p x v w, m.product n = .ok p ∧ p.elem (-1) 1 = .ok x ∧
        m.row (-1) = .ok v ∧ n.col 1 = .ok w ∧ x.toTree = (v.dot w).toTree) ∧
      m.transpose.transpose = m ∧ (∀ v, m.transpose.row (-3) = .ok v ↔ m.col (-3) = .ok v) ∧
      ∃ x, m.elem (-2) 2 = .ok x := by
  obtain ⟨hproduct, htranspose⟩ := matrix_operations_agree
  let m : Mat := ⟨[⟨[.ofInt 1, .ofInt 2, .ofInt 3], by simp⟩, ⟨[.name "a", .name "b", .name "c"],
    by simp⟩], by simp, by simp [Vec.length]⟩
  let n : Mat := ⟨[⟨[.ofInt 4, .ofInt 5], by simp⟩, ⟨[.ofInt 6, .name "d"], by simp⟩,
    ⟨[.name "e", .ofInt 7], by simp⟩], by simp, by simp [Vec.length]⟩
  obtain ⟨htwice, hrow, hcell⟩ := htranspose m
  exact ⟨m, n, rfl, by decide, by decide, by decide,
    hproduct m n rfl (-1) 1 (by decide) (by decide), htwice, (hrow (-3)).1,
    (hcell 2 (-2)).2.mpr (by decide)⟩

end Scalarize
