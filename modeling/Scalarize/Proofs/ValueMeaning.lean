import Scalarize.Proofs.Reference
import Scalarize.Proofs.ValueNames

/-!
# Scalarize — what values mean in a store

A value of the compiler is an expression of the chip for each of its parts. In a store these
expressions have values, so a value means a number, a vector or a matrix of values. Each operation
of the compiler on values does to their meanings what the meaning of source programs asks for.

* **`Value.meaning`** — what a value means in a store.
* **`build_meaning`** — forms and meanings agree, one lemma for each operation before it.
-/

namespace Scalarize

universe u w

variable {V : Type u} (I : Interpretation V) (τ : Store V)

/-- The value of a number in a store. -/
def Num.valueIn (x : Num) : V :=
  x.toTree.valueIn I τ

/-- The values of the elements of a vector. -/
def Vec.values (v : Vec) : List V :=
  v.elems.map (Num.valueIn I τ)

/-- The values of the rows of a matrix. -/
def Mat.values (m : Mat) : List (List V) :=
  m.rows.map (Vec.values I τ)

/-- What a value means in a store. -/
def Value.meaning : Value → Meaning V
  | number x => .number (x.valueIn I τ)
  | vector v => .vector (v.values I τ)
  | matrix m => .matrix (m.values I τ)

/-! ## Numbers -/

namespace Num

@[simp]
theorem valueIn_literal (n : Numeral) :
    (literal n).valueIn I τ = I.literal (some (.numeral n)) := by
  rw [valueIn, toTree, Tree.numberOf, Tree.valueIn]
  rfl

@[simp]
theorem valueIn_ofInt (n : Int) : (ofInt n).valueIn I τ = I.whole n :=
  valueIn_literal I τ (.int n)

@[simp]
theorem valueIn_name (s : String) : (name s).valueIn I τ = τ s := by
  rw [valueIn, toTree, Tree.variableNamed, Tree.text, Tree.valueIn]
  rfl

@[simp]
theorem valueIn_unary (op : String) (x : Num) :
    (unary op x).valueIn I τ = I.unary op (x.valueIn I τ) :=
  Tree.valueIn_branch I τ op none [x.toTree]

@[simp]
theorem valueIn_binary (op : String) (x y : Num) :
    (binary op x y).valueIn I τ = I.binary op (x.valueIn I τ) (y.valueIn I τ) :=
  Tree.valueIn_branch I τ op none [x.toTree, y.toTree]

theorem valueIn_foldl (op : String) (xs : List Num) (x : Num) :
    (xs.foldl (binary op) x).valueIn I τ
      = (xs.map (valueIn I τ)).foldl (I.binary op) (x.valueIn I τ) := by
  rw [List.foldl_map]
  exact (List.foldl_hom (valueIn I τ) fun x y => (valueIn_binary I τ op x y).symm).symm

end Num

/-! ## Lists -/

section

variable {α : Type u} {β : Type w}

theorem elementAt?_map (f : α → β) (xs : List α) (i : Int) :
    elementAt? (xs.map f) i = (elementAt? xs i).map f := by
  cases i with
  | ofNat k => exact List.getElem?_map
  | negSucc k => rw [elementAt?, elementAt?, ← List.map_reverse, List.getElem?_map]

theorem elementAt?_eq_bind (xs : List α) (i : Int) :
    elementAt? xs i = (position? xs.length i).bind fun k => xs[k]? := by
  unfold position?
  cases i with
  | ofNat k => grind [elementAt?]
  | negSucc k =>
    rw [if_neg (by omega)]
    by_cases hk : k < xs.length
    · rw [if_pos (by omega), elementAt?, List.getElem?_reverse hk]
      show _ = xs[(Int.negSucc k + xs.length).toNat]?
      congr 1
      omega
    · rw [if_neg (by omega)]
      exact List.getElem?_eq_none (by rw [List.length_reverse]; omega)

/-- A loop that succeeds and a map between its states. -/
theorem foldlM_eq_some {α β ε : Type} {γ δ : Type u} {f : α → β → Except ε α}
    {g : γ → δ → Option γ} {h : α → γ} {k : β → δ} {bs : List β} {a z : α}
    (hstep : ∀ a b a', b ∈ bs → f a b = .ok a' → g (h a) (k b) = some (h a'))
    (hz : bs.foldlM f a = .ok z) : (bs.map k).foldlM g (h a) = some (h z) := by
  induction bs generalizing a with
  | nil =>
    cases hz
    rfl
  | cons b bs ih =>
    rw [List.foldlM_cons] at hz
    cases hb : f a b with
    | error e => rw [hb] at hz; cases hz
    | ok a' =>
      rw [hb] at hz
      rw [List.map_cons, List.foldlM_cons, hstep a b a' List.mem_cons_self hb]
      exact ih (fun a c a' hc => hstep a c a' (List.mem_cons_of_mem b hc)) hz

/-- The matrix with the given numbers of rows and columns and the given cells. -/
def table (r c : Nat) (f : Nat → Nat → α) : List (List α) :=
  (List.range r).map fun i => (List.range c).map (f i)

theorem width_table {r : Nat} (hr : 0 < r) (c : Nat) (f : Nat → Nat → α) :
    width (table r c f) = c := by
  cases r with
  | zero => cases hr
  | succ r =>
    rw [table, List.range_succ_eq_map, List.map_cons, width, List.length_map, List.length_range]

theorem length_table (r c : Nat) (f : Nat → Nat → α) : (table r c f).length = r := by
  rw [table, List.length_map, List.length_range]

theorem cellwise?_table (g : α → α → α) (r c : Nat) (f h : Nat → Nat → α) :
    cellwise? g (table r c f) (table r c h) = some (table r c fun i j => g (f i j) (h i j)) := by
  rw [cellwise?, if_pos (by simp [table])]
  simp [table, List.zipWith_map, List.zipWith_self]

theorem columns_table {r : Nat} (hr : 0 < r) (c : Nat) (f : Nat → Nat → α) :
    columns (table r c f) = table c r fun i j => f j i := by
  rw [columns, width_table hr]
  refine List.map_congr_left fun j hj => ?_
  have hcell : ∀ i, ((List.range c).map (f i))[j]? = some (f i j) := by
    intro i
    rw [List.getElem?_map, List.getElem?_range (List.mem_range.mp hj)]
    rfl
  rw [table, List.filterMap_map]
  show (List.range r).filterMap (fun i => ((List.range c).map (f i))[j]?) = _
  simp only [hcell]
  exact congrFun List.filterMap_eq_map _

end

/-! ## Vectors -/

namespace Vec

variable {I τ} {v w : Vec}

theorem length_values : (v.values I τ).length = v.length :=
  List.length_map ..

theorem values_mapElems {f : Num → Num} {g : V → V}
    (hfg : ∀ x, (f x).valueIn I τ = g (x.valueIn I τ)) :
    (v.mapElems f).values I τ = (v.values I τ).map g := by
  rw [values, mapElems, List.map_map, values, List.map_map]
  exact List.map_congr_left fun x _ => hfg x

theorem elementwise?_values (op : String) (h : v.length = w.length) :
    elementwise? (I.binary op) (v.values I τ) (w.values I τ)
      = some ((combine (.binary op) v w h).values I τ) := by
  rw [elementwise?, if_pos (by rw [length_values, length_values, h])]
  simp only [values, combine, List.zipWith_map, List.map_zipWith, Num.valueIn_binary]

theorem values_chainStep {op op' : String} {u : Vec} (hop : vectorOperator? op = some op')
    (h : v.chainStep op w = .ok u) :
    elementwise? (I.binary op') (v.values I τ) (w.values I τ) = some (u.values I τ) := by
  have hop' : elementOperator op = op' := by
    unfold vectorOperator? at hop
    split at hop
    · next heq => rw [beq_iff_eq.mp heq, ← Option.some.inj hop]; rfl
    · split at hop
      · next heq => rw [beq_iff_eq.mp heq, ← Option.some.inj hop]; rfl
      · cases hop
  unfold chainStep at h
  split at h
  · next hlen => rw [elementwise?_values op' hlen, ← Except.ok.inj h, hop']
  · cases h

theorem values_concat : (v.concat w).values I τ = v.values I τ ++ w.values I τ :=
  List.map_append

theorem values_reverse : v.reverse.values I τ = (v.values I τ).reverse :=
  List.map_reverse

theorem valueIn_dot : (v.dot w).valueIn I τ = innerProduct I (v.values I τ) (w.values I τ) := by
  rw [dot, Num.valueIn_foldl, innerProduct, Num.valueIn_ofInt]
  simp only [values, List.zipWith_map, List.map_zipWith, Num.valueIn_binary]

theorem valueIn_len : v.len.valueIn I τ = I.whole (v.values I τ).length := by
  rw [len, Num.valueIn_ofInt, length_values]

theorem valueIn_reduce (op : String) : ∃ x xs, v.values I τ = x :: xs ∧
    (v.reduce op).valueIn I τ = xs.foldl (I.binary op) x := by
  refine ⟨v.first.valueIn I τ, v.elems.tail.map (Num.valueIn I τ), ?_, Num.valueIn_foldl I τ ..⟩
  rw [← List.map_cons, first, List.cons_head_tail, values]

theorem valueIn_elem {i : Int} {x : Num} (h : v.elem i = .ok x) :
    elementAt? (v.values I τ) i = some (x.valueIn I τ) := by
  unfold elem at h
  split at h
  · next y hy =>
    rw [values, elementAt?_map, elementAt?_eq_bind]
    show (signedGet? v.elems i).map _ = _
    rw [hy, ← Except.ok.inj h]
    rfl
  · cases h

end Vec

/-! ## Matrices -/

namespace Mat

variable {I τ} {m n : Mat}

theorem values_ofCells {r c : Nat} {hr : 0 < r} {hc : 0 < c} {f : Nat → Nat → Num} :
    (ofCells r c hr hc f).values I τ = table r c fun i j => (f i j).valueIn I τ := by
  rw [values, ofCells, List.map_map, table]
  refine List.map_congr_left fun i _ => ?_
  exact List.map_map ..

theorem get_eq_getElem {i j : Nat} (hi : i < m.rows.length) (hj : j < m.rows[i].elems.length) :
    m.get i j = m.rows[i].elems[j] := by
  rw [get, Vec.get, List.getElem?_eq_getElem hi]
  show (m.rows[i].elems[j]?).getD _ = _
  rw [List.getElem?_eq_getElem hj]
  rfl

/-- A matrix has its cells in their places. -/
theorem values_eq_table :
    m.values I τ = table m.rowCount m.colCount fun i j => (m.get i j).valueIn I τ := by
  refine List.ext_getElem (by simp [values, table, rowCount]) fun i hi _ => ?_
  rw [values, List.length_map] at hi
  have hlen : m.rows[i].elems.length = m.colCount := length_of_mem_rows (List.getElem_mem hi)
  simp only [values, table, List.getElem_map, List.getElem_range, Vec.values]
  refine List.ext_getElem (by simp [hlen]) fun j hj _ => ?_
  rw [List.length_map] at hj
  simp only [List.getElem_map, List.getElem_range, get_eq_getElem hi hj]

theorem values_mapCells {f : Num → Num} {g : V → V}
    (hfg : ∀ x, (f x).valueIn I τ = g (x.valueIn I τ)) :
    (m.mapCells f).values I τ = (m.values I τ).map fun r => r.map g := by
  rw [values, mapCells, mapRows, List.map_map, values, List.map_map]
  exact List.map_congr_left fun v _ => Vec.values_mapElems hfg

theorem cellwise?_values (op : String) (h : m.SameSize n) :
    cellwise? (I.binary op) (m.values I τ) (n.values I τ)
      = some ((combine (.binary op) m n).values I τ) := by
  rw [values_eq_table, values_eq_table, ← h.1, ← h.2, cellwise?_table, combine, values_ofCells]
  simp only [Num.valueIn_binary]

theorem values_chainStep {op op' : String} {k : Mat} (hop : matrixOperator? op = some op')
    (h : m.chainStep op n = .ok k) :
    cellwise? (I.binary op') (m.values I τ) (n.values I τ) = some (k.values I τ) := by
  have hop' : Vec.elementOperator (rowOperator op) = op' := by
    unfold matrixOperator? at hop
    split at hop
    · next heq => rw [beq_iff_eq.mp heq, ← Option.some.inj hop]; rfl
    · split at hop
      · next heq => rw [beq_iff_eq.mp heq, ← Option.some.inj hop]; rfl
      · cases hop
  unfold chainStep at h
  split at h
  · next hsize => rw [cellwise?_values op' hsize, ← Except.ok.inj h, hop']
  · cases h

theorem values_transpose : m.transpose.values I τ = columns (m.values I τ) := by
  rw [transpose, values_ofCells, values_eq_table, columns_table m.rowCount_pos]

theorem valueIn_productCell (i j : Nat) :
    (productCell m n i j).valueIn I τ
      = innerProduct I ((List.range n.rowCount).map fun k => (m.get i k).valueIn I τ)
          ((List.range n.rowCount).map fun k => (n.get k j).valueIn I τ) := by
  rw [productCell, ← List.foldl_map (f := fun k => Num.binary "mul" (m.get i k) (n.get k j)),
    Num.valueIn_foldl, innerProduct, Num.valueIn_ofInt, List.zipWith_map, List.zipWith_self,
    List.map_map]
  congr 1

theorem values_product {k : Mat} (h : m.product n = .ok k) :
    matrixProduct? I (m.values I τ) (n.values I τ) = some (k.values I τ) := by
  unfold product at h
  split at h
  · next hsize =>
    rw [← Except.ok.inj h, values_ofCells, values_eq_table, values_eq_table, matrixProduct?,
      width_table m.rowCount_pos, length_table, if_pos hsize, columns_table n.rowCount_pos, hsize]
    simp only [table, List.map_map, valueIn_productCell]
    rfl
  · cases h

theorem width_values : width (m.values I τ) = m.colCount := by
  rw [values_eq_table, width_table m.rowCount_pos]

theorem valueIn_rowNumber : m.rowNumber.valueIn I τ = I.whole (m.values I τ).length := by
  rw [rowNumber, Num.valueIn_ofInt, values, List.length_map, rowCount]

theorem valueIn_colNumber : m.colNumber.valueIn I τ = I.whole (width (m.values I τ)) := by
  rw [colNumber, Num.valueIn_ofInt, width_values]

theorem elementAt?_values {i : Int} {v : Vec} (h : signedGet? m.rows i = some v) :
    elementAt? (m.values I τ) i = some (v.values I τ) := by
  rw [values, elementAt?_map, elementAt?_eq_bind]
  show (signedGet? m.rows i).map _ = _
  rw [h]
  rfl

theorem valueIn_elem {i j : Int} {x : Num} (h : m.elem i j = .ok x) :
    ((elementAt? (m.values I τ) i).bind fun r => elementAt? r j) = some (x.valueIn I τ) := by
  unfold elem at h
  split at h
  · next y hy =>
    obtain ⟨v, hv, hy⟩ := Option.bind_eq_some_iff.mp hy
    rw [elementAt?_values hv, ← Except.ok.inj h]
    refine Vec.valueIn_elem (v := v) ?_
    rw [Vec.elem, hy]
  · cases h

theorem values_row {i : Int} {v : Vec} (h : m.row i = .ok v) :
    elementAt? (m.values I τ) i = some (v.values I τ) := by
  unfold row at h
  split at h
  · next w hw => rw [elementAt?_values hw, ← Except.ok.inj h]
  · cases h

theorem values_col {i : Int} {v : Vec} (h : m.col i = .ok v) :
    ((m.values I τ).mapM fun r => elementAt? r i) = some (v.values I τ) := by
  unfold col at h
  split at h
  · next j hj =>
    rw [← Except.ok.inj h]
    show (m.rows.map _).mapM _ = some ((m.rows.map fun w => w.get j).map (Num.valueIn I τ))
    rw [List.map_map]
    refine mapM_map_eq_some fun w hw => ?_
    rw [elementAt?_eq_bind, Vec.length_values, length_of_mem_rows hw, hj]
    -- a position in the first row is one in every row
    have hlt : j < w.elems.length := by
      have := length_of_mem_rows hw
      unfold position? at hj
      grind [Vec.length]
    show (w.values I τ)[j]? = some ((w.get j).valueIn I τ)
    rw [Vec.values, List.getElem?_map, Vec.get, List.getElem?_eq_getElem hlt]
    rfl
  · cases h

/-- Rows of one length make a matrix. -/
theorem values_ofRows {ws : List Vec} {m : Mat} (h : ofRows ws = .ok m) :
    ws.map (Vec.values I τ) = m.values I τ ∧
      ∀ r ∈ m.values I τ, r.length = width (m.values I τ) := by
  unfold ofRows at h
  split at h
  · cases h
  · split at h
    · rw [← Except.ok.inj h]
      refine ⟨rfl, fun r hr => ?_⟩
      obtain ⟨w, hw, rfl⟩ := List.mem_map.mp hr
      rw [width_values, Vec.length_values]
      exact length_of_mem_rows hw
    · cases h

end Mat

/-! ## Forms -/

section

variable {I τ} {σ : Store V} {env : Env} {t : Tree} {vs : List Value}

theorem mapM_number?_meaning (xs : List Num) :
    ((xs.map Value.number).map (Value.meaning I τ)).mapM Meaning.number?
      = some (xs.map (Num.valueIn I τ)) := by
  rw [List.map_map]
  exact mapM_map_eq_some fun x _ => rfl

theorem mapM_vector?_meaning (ws : List Vec) :
    ((ws.map Value.vector).map (Value.meaning I τ)).mapM Meaning.vector?
      = some (ws.map (Vec.values I τ)) := by
  rw [List.map_map]
  exact mapM_map_eq_some fun w _ => rfl

theorem mapM_matrix?_meaning (ms : List Mat) :
    ((ms.map Value.matrix).map (Value.meaning I τ)).mapM Meaning.matrix?
      = some (ms.map (Mat.values I τ)) := by
  rw [List.map_map]
  exact mapM_map_eq_some fun m _ => rfl

theorem valueIn_unaryChain (ops : List Tree) (x : Num) :
    (ops.foldr (fun op x => Num.unary op.kind x) x).valueIn I τ
      = ops.foldr (fun op x => I.unary op.kind x) (x.valueIn I τ) := by
  induction ops with
  | nil => rfl
  | cons op ops ih => rw [List.foldr_cons, Num.valueIn_unary, ih, List.foldr_cons]

theorem valueIn_chain {γ : Type} (op : γ → String) (ps : List γ) (ys : List Num) (x : Num) :
    ((ps.zip ys).foldl (fun x p => Num.binary (op p.1) x p.2) x).valueIn I τ
      = (ps.zip (ys.map (Num.valueIn I τ))).foldl (fun x p => I.binary (op p.1) x p.2)
          (x.valueIn I τ) := by
  rw [List.zip_map_right, List.foldl_map]
  exact (List.foldl_hom (Num.valueIn I τ) fun x p => (Num.valueIn_binary ..).symm).symm

theorem NumForm.build_meaning {f : NumForm} {x : Num} (hext : f = .external → τ t.name = σ t.name)
    (hdot : f = .dot → ∀ v w, vs = [.vector v, .vector w] → v.length = w.length)
    (h : f.build env t vs = some x) :
    f.denote I σ t (vs.map (Value.meaning I τ)) = some (x.valueIn I τ) := by
  cases makes_of_build h with
  | chain hc y ys =>
    unfold NumForm.denote
    rw [hc]
    show (((ys.map Value.number).map (Value.meaning I τ)).mapM Meaning.number?).map _ = _
    rw [mapM_number?_meaning, valueIn_chain (fun q : Tree × Tree => q.1.kind)]
    rfl
  | unaryChain y =>
    rw [valueIn_unaryChain]
    rfl
  | @reduce op _ hc v =>
    obtain ⟨y, ys, hys, hreduce⟩ := Vec.valueIn_reduce (I := I) (τ := τ) (v := v) op.kind
    unfold NumForm.denote
    rw [hc, hreduce, List.map_singleton, Value.meaning, hys]
  | dot v w =>
    have hlen := hdot rfl v w rfl
    rw [Vec.valueIn_dot]
    show (if (v.values I τ).length = (w.values I τ).length then _ else _) = _
    rw [if_pos (by rw [Vec.length_values, Vec.length_values, hlen])]
  | len v =>
    rw [Vec.valueIn_len]
    rfl
  | rows m =>
    rw [Mat.valueIn_rowNumber]
    rfl
  | cols m =>
    rw [Mat.valueIn_colNumber]
    rfl
  | @vecElem _ i _ v _ _ hc hk hx =>
    unfold NumForm.denote
    rw [hc]
    show (indexOf? i.value).bind (elementAt? (v.values I τ)) = _
    rw [hk]
    exact Vec.valueIn_elem hx
  | @matElem _ i j _ m _ _ _ hc hk hl hx =>
    unfold NumForm.denote
    rw [hc]
    show ((indexOf? i.value).bind fun k => (indexOf? j.value).bind fun l =>
      (elementAt? (m.values I τ) k).bind fun r => elementAt? r l) = _
    rw [hk, hl]
    exact Mat.valueIn_elem hx
  | external =>
    rw [Num.valueIn_name, hext rfl]
    rfl
  | literal hn =>
    show (literalOf t.value).toOption.map _ = _
    rw [hn, Num.valueIn_literal]
    rfl

theorem values_concats (v : Vec) (ws : List Vec) :
    (ws.foldl Vec.concat v).values I τ = v.values I τ ++ (ws.map (Vec.values I τ)).flatten := by
  induction ws generalizing v with
  | nil => exact (List.append_nil _).symm
  | cons w ws ih =>
    rw [List.foldl_cons, ih, Vec.values_concat, List.map_cons, List.flatten_cons, List.append_assoc]

theorem VecForm.build_meaning {f : VecForm} {v : Vec} (happly : f ≠ .apply)
    (hops : f = .chain → ∀ p ∈ pairs t.children.tail, (vectorOperator? p.1.kind).isSome = true)
    (h : f.build t vs = some v) :
    f.denote I t (vs.map (Value.meaning I τ)) = some (v.values I τ) := by
  cases makes_of_build h with
  | @chain _ rest w ws _ hc hu =>
    replace hops := hops rfl
    rw [hc] at hops
    unfold VecForm.denote
    rw [hc]
    show (((ws.map Value.vector).map (Value.meaning I τ)).mapM Meaning.vector?).bind _ = _
    rw [mapM_vector?_meaning]
    show List.foldlM _ (w.values I τ) ((pairs rest).zip (ws.map (Vec.values I τ))) = _
    rw [List.zip_map_right]
    -- the loops run in step, the values of one being the states of the other
    refine foldlM_eq_some (fun a b a' hb hstep => ?_) hu
    obtain ⟨op, hop⟩ := Option.isSome_iff_exists.mp (hops b.1 (List.of_mem_zip hb).1)
    show (vectorOperator? b.1.1.kind).bind _ = _
    rw [hop]
    exact Vec.values_chainStep hop hstep
  | @map op _ hc w =>
    rw [Vec.map, Vec.values_mapElems (Num.valueIn_unary I τ op.kind)]
    unfold VecForm.denote
    rw [hc]
    rfl
  | @premap op _ hc x w =>
    rw [Vec.premap, Vec.values_mapElems (g := fun e => I.binary op.kind e (x.valueIn I τ)) fun e =>
      Num.valueIn_binary I τ op.kind e x]
    unfold VecForm.denote
    rw [hc]
    rfl
  | @postmap _ op _ hc x w =>
    rw [Vec.postmap, Vec.values_mapElems fun e => Num.valueIn_binary I τ op.kind x e]
    unfold VecForm.denote
    rw [hc]
    rfl
  | apply => exact absurd rfl happly
  | concat w ws =>
    -- the meaning takes all operands alike, the loop starts from the first
    show ((((w :: ws).map Value.vector).map (Value.meaning I τ)).mapM Meaning.vector?).map _ = _
    rw [mapM_vector?_meaning, values_concats]
    rfl
  | reverse w =>
    rw [Vec.values_reverse]
    rfl
  | @row _ i _ m _ _ hc hk hu =>
    unfold VecForm.denote
    rw [hc]
    show (indexOf? i.value).bind (elementAt? (m.values I τ)) = _
    rw [hk]
    exact Mat.values_row hu
  | @col _ i _ m _ _ hc hk hu =>
    unfold VecForm.denote
    rw [hc]
    show ((indexOf? i.value).bind fun k => (m.values I τ).mapM fun r => elementAt? r k) = _
    rw [hk]
    exact Mat.values_col hu
  | @literal xs _ hu =>
    show ((xs.map Value.number).map (Value.meaning I τ)).mapM Meaning.number? = _
    rw [mapM_number?_meaning]
    unfold Vec.ofList? at hu
    split at hu
    · cases hu
    · rw [← Option.some.inj hu]
      rfl

theorem MatForm.build_meaning {f : MatForm} {m : Mat} (happly : f ≠ .apply)
    (hops : f = .chain → ∀ p ∈ pairs t.children.tail, (matrixOperator? p.1.kind).isSome = true)
    (h : f.build t vs = some m) :
    f.denote I t (vs.map (Value.meaning I τ)) = some (m.values I τ) := by
  cases makes_of_build h with
  | @chain _ rest k ks _ hc hk =>
    replace hops := hops rfl
    rw [hc] at hops
    unfold MatForm.denote
    rw [hc]
    show (((ks.map Value.matrix).map (Value.meaning I τ)).mapM Meaning.matrix?).bind _ = _
    rw [mapM_matrix?_meaning]
    show List.foldlM _ (k.values I τ) ((pairs rest).zip (ks.map (Mat.values I τ))) = _
    rw [List.zip_map_right]
    refine foldlM_eq_some (fun a b a' hb hstep => ?_) hk
    obtain ⟨op, hop⟩ := Option.isSome_iff_exists.mp (hops b.1 (List.of_mem_zip hb).1)
    show (matrixOperator? b.1.1.kind).bind _ = _
    rw [hop]
    exact Mat.values_chainStep hop hstep
  | @map op _ hc k =>
    rw [Mat.map, Mat.values_mapCells (Num.valueIn_unary I τ op.kind)]
    unfold MatForm.denote
    rw [hc]
    rfl
  | @premap op _ hc x k =>
    rw [Mat.premap, Mat.values_mapCells (g := fun e => I.binary op.kind e (x.valueIn I τ)) fun e =>
      Num.valueIn_binary I τ op.kind e x]
    unfold MatForm.denote
    rw [hc]
    rfl
  | @postmap _ op _ hc x k =>
    rw [Mat.postmap, Mat.values_mapCells fun e => Num.valueIn_binary I τ op.kind x e]
    unfold MatForm.denote
    rw [hc]
    rfl
  | apply => exact absurd rfl happly
  | transpose k =>
    rw [Mat.values_transpose]
    rfl
  | product hk => exact Mat.values_product hk
  | @literal ws _ hk =>
    obtain ⟨hrows, hwidth⟩ := Mat.values_ofRows (I := I) (τ := τ) hk
    show (((ws.map Value.vector).map (Value.meaning I τ)).mapM Meaning.vector?).bind _ = _
    rw [mapM_vector?_meaning, hrows]
    exact if_pos hwidth

theorem NumForm.kind_of_dot {k : String} (h : NumForm.ofKind? k = some .dot) : k = "dot" := by
  simpa [NumForm.table] using mem_of_lookup h

theorem VecForm.kind_of_apply {k : String} (h : VecForm.ofKind? k = some .apply) :
    k = "vec_apply" := by
  simpa [VecForm.table] using mem_of_lookup h

theorem VecForm.kind_of_chain {k : String} (h : VecForm.ofKind? k = some .chain) :
    k = "vec_binary" := by
  simpa [VecForm.table] using mem_of_lookup h

theorem MatForm.kind_of_apply {k : String} (h : MatForm.ofKind? k = some .apply) :
    k = "mat_apply" := by
  simpa [MatForm.table] using mem_of_lookup h

theorem MatForm.kind_of_chain {k : String} (h : MatForm.ofKind? k = some .chain) :
    k = "mat_binary" := by
  simpa [MatForm.table] using mem_of_lookup h

/-- What a form makes of values means what it makes of their meanings. -/
theorem build_meaning {s : ValueSort} {v : Value} (hplain : t.Plain)
    (hext : t.kind = "external" → τ t.name = σ t.name)
    (hdot : t.kind = "dot" → ∀ v w, vs = [.vector v, .vector w] → v.length = w.length)
    (h : build env s t vs = some v) :
    denote I σ s t (vs.map (Value.meaning I τ)) = some (v.meaning I τ) := by
  cases s with
  | number =>
    obtain ⟨f, hf, h⟩ := Option.bind_eq_some_iff.mp h
    obtain ⟨x, hx, rfl⟩ := Option.map_eq_some_iff.mp h
    have hmeaning : f.denote I σ t (vs.map (Value.meaning I τ)) = some (x.valueIn I τ) :=
      f.build_meaning (fun heq => hext (NumForm.kind_of_external (heq ▸ hf)))
        (fun heq => hdot (NumForm.kind_of_dot (heq ▸ hf))) hx
    rw [denote, hf]
    exact Option.map_eq_some_iff.mpr ⟨_, hmeaning, rfl⟩
  | vector =>
    obtain ⟨f, hf, h⟩ := Option.bind_eq_some_iff.mp h
    obtain ⟨w, hw, rfl⟩ := Option.map_eq_some_iff.mp h
    have hmeaning : f.denote I t (vs.map (Value.meaning I τ)) = some (w.values I τ) :=
      f.build_meaning (fun heq => hplain.not_apply.1 (VecForm.kind_of_apply (heq ▸ hf)))
        (fun heq => hplain.vector_operators (VecForm.kind_of_chain (heq ▸ hf))) hw
    rw [denote, hf]
    exact Option.map_eq_some_iff.mpr ⟨_, hmeaning, rfl⟩
  | matrix =>
    obtain ⟨f, hf, h⟩ := Option.bind_eq_some_iff.mp h
    obtain ⟨m, hm, rfl⟩ := Option.map_eq_some_iff.mp h
    have hmeaning : f.denote I t (vs.map (Value.meaning I τ)) = some (m.values I τ) :=
      f.build_meaning (fun heq => hplain.not_apply.2 (MatForm.kind_of_apply (heq ▸ hf)))
        (fun heq => hplain.matrix_operators (MatForm.kind_of_chain (heq ▸ hf))) hm
    rw [denote, hf]
    exact Option.map_eq_some_iff.mpr ⟨_, hmeaning, rfl⟩

/-! ## Assigned values -/

/-- The values that a meaning consists of, those of a matrix row by row. -/
def Meaning.parts : Meaning V → List V
  | number x => [x]
  | vector xs => xs
  | matrix a => a.flatten

theorem Value.parts_meaning (v : Value) :
    (v.meaning I τ).parts = v.parts.map (Num.valueIn I τ) := by
  cases v with
  | number x => rfl
  | vector v => rfl
  | matrix m =>
    show (m.rows.map (Vec.values I τ)).flatten = (m.rows.flatMap Vec.elems).map _
    rw [List.map_flatMap, List.flatMap_def]
    rfl

/-- Each component of a value has the value of its part, under its name. -/
theorem Value.cells_meaning (index : Nat) (v : Value) :
    (v.meaning I τ).cells index
      = List.zipWith (fun c x => (c.name, x.valueIn I τ)) (v.components index) v.parts := by
  rw [← List.zipWith_map_right (f := Num.valueIn I τ)
    (g := fun (c : Component) (x : V) => (c.name, x)), ← parts_meaning]
  cases v with
  | number x => rfl
  | vector v =>
    rw [components, ← Vec.length_values (I := I) (τ := τ)]
    exact mapIdx_eq_zipWith (fun (c : Component) (x : V) => (c.name, x)) (.element index) _
  | matrix m =>
    have hrows : ∀ r ∈ m.values I τ, (id r).length = m.colCount := by
      intro r hr
      obtain ⟨w, hw, rfl⟩ := List.mem_map.mp hr
      exact Vec.length_values.trans (Mat.length_of_mem_rows hw)
    have hlen : m.rowCount = (m.values I τ).length := (List.length_map ..).symm
    have hcells := flatten_mapIdx_eq_zipWith (fun (c : Component) (x : V) => (c.name, x))
      (.cell index) id _ hrows
    rw [List.flatMap_id] at hcells
    rw [components, hlen]
    exact hcells

/-- In a store in which the assignments of a value hold, the names of its components have the values
of its parts. -/
theorem Value.names_eq_parts {index : Nat} {v : Value}
    (h : ∀ a ∈ (v.assign index).1, τ a.targetName = a.rightSide.valueIn I τ) :
    (v.components index).map (fun c => τ c.name) = v.parts.map (Num.valueIn I τ) := by
  have hlen : (v.components index).length = v.parts.length := by
    rw [length_components, length_parts]
  refine List.ext_getElem (by rw [List.length_map, List.length_map, hlen]) fun i hi hi' => ?_
  rw [List.length_map] at hi hi'
  have hmem : v.parts[i].assignTo (v.components index)[i].name ∈ (v.assign index).1 := by
    rw [assign_fst, List.mem_iff_getElem]
    exact ⟨i, by rw [List.length_zipWith]; omega, List.getElem_zipWith⟩
  rw [List.getElem_map, List.getElem_map]
  exact h _ hmem

/-- In such a store, each component has its own value under its name. -/
theorem Value.cells_of_assign {index : Nat} {v : Value}
    (h : ∀ a ∈ (v.assign index).1, τ a.targetName = a.rightSide.valueIn I τ) :
    (v.meaning I τ).cells index = (v.components index).map fun c => (c.name, τ c.name) := by
  rw [cells_meaning, ← List.zipWith_map_right (f := Num.valueIn I τ)
    (g := fun (c : Component) (x : V) => (c.name, x)), ← names_eq_parts h,
    List.zipWith_map_right, List.zipWith_self]

/-- In such a store, what is kept of the value means what the value means. -/
theorem Value.meaning_assign {index : Nat} {v : Value}
    (h : ∀ a ∈ (v.assign index).1, τ a.targetName = a.rightSide.valueIn I τ) :
    (v.assign index).2.meaning I τ = v.meaning I τ := by
  have hparts : ((v.assign index).2.meaning I τ).parts = (v.meaning I τ).parts := by
    rw [parts_meaning, parts_meaning, parts_assign, List.map_map, ← names_eq_parts h]
    exact List.map_congr_left fun c _ => Num.valueIn_name ..
  cases v with
  | number x => exact congrArg Meaning.number (List.singleton_inj.mp hparts)
  | vector v => exact congrArg Meaning.vector hparts
  | matrix m =>
    -- the rows have the same lengths, so they are told by their parts
    refine congrArg Meaning.matrix (List.eq_iff_flatten_eq.mpr ⟨?_, ?_⟩)
    · exact hparts
    · show (Mat.values I τ (Mat.ofCells ..)).map List.length = _
      rw [Mat.values_ofCells, Mat.values_eq_table]
      simp only [table, List.map_map, Function.comp_def, List.length_map, List.length_range]

end

end Scalarize
