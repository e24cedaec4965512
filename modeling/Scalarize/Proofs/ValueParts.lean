import Scalarize.Proofs.Evaluation
import Scalarize.Proofs.Naming

/-!
# Scalarize — what the numbers of a value are made of

Lowering computes nothing: a form puts the numbers of its operands together with operators. So a
property of numbers that these operators keep goes over from the values of the variables to the
value of an expression.

* **`operators`** — the operators that an expression applies to numbers, with their arity.
* **`Num.Closed`** — a property of numbers that some operators keep.
* **`build_each`** — a form keeps such a property, if its operators do.
* **`Evaluates.each`** — the same for an expression with all its nodes.
-/

namespace Scalarize

/-! ## The operators of an expression -/

/-- The operators that a number expression applies, each with the number of its operands. -/
def NumForm.operators (f : NumForm) (children : List Tree) : List (Nat × String) :=
  match f, children with
  | .chain, _ :: rest => (pairs rest).map fun p => (2, p.1.kind)
  | .unaryChain, cs => cs.dropLast.map fun op => (1, op.kind)
  | .reduce, op :: _ => [(2, op.kind)]
  | .dot, _ => [(2, "mul"), (2, "add")]
  | _, _ => []

/-- The operators on numbers that a vector expression applies. -/
def VecForm.operators (f : VecForm) (children : List Tree) : List (Nat × String) :=
  match f, children with
  | .chain, _ :: rest => (pairs rest).map fun p => (2, Vec.elementOperator p.1.kind)
  | .map, op :: _ => [(1, op.kind)]
  | .premap, op :: _ => [(2, op.kind)]
  | .postmap, _ :: op :: _ => [(2, op.kind)]
  | .apply, op :: _ => [(2, op.kind)]
  | _, _ => []

/-- The operators on numbers that a matrix expression applies. -/
def MatForm.operators (f : MatForm) (children : List Tree) : List (Nat × String) :=
  match f, children with
  | .chain, _ :: rest =>
    (pairs rest).map fun p => (2, Vec.elementOperator (Mat.rowOperator p.1.kind))
  | .map, op :: _ => [(1, op.kind)]
  | .premap, op :: _ => [(2, op.kind)]
  | .postmap, _ :: op :: _ => [(2, op.kind)]
  | .apply, op :: _ => [(2, op.kind)]
  | .product, _ => [(2, "mul"), (2, "add")]
  | _, _ => []

/-- The operators on numbers that an expression of the given sort applies. -/
def operators (s : ValueSort) (t : Tree) : List (Nat × String) :=
  match s with
  | .number => (NumForm.ofKind? t.kind).elim [] (·.operators t.children)
  | .vector => (VecForm.ofKind? t.kind).elim [] (·.operators t.children)
  | .matrix => (MatForm.ofKind? t.kind).elim [] (·.operators t.children)

/-! ## Properties of all numbers of a value -/

/-- Literals have the property, and the operators of the class keep it. -/
structure Num.Closed (q : Nat × String → Prop) (P : Num → Prop) : Prop where
  literal : ∀ n, P (.literal n)
  unary : ∀ {op x}, q (1, op) → P x → P (.unary op x)
  binary : ∀ {op x y}, q (2, op) → P x → P y → P (.binary op x y)

/-- All numbers of the vector have the property. -/
def Vec.Each (P : Num → Prop) (v : Vec) : Prop :=
  ∀ x ∈ v.elems, P x

/-- All numbers of the matrix have the property. -/
def Mat.Each (P : Num → Prop) (m : Mat) : Prop :=
  ∀ v ∈ m.rows, v.Each P

/-- All numbers of the value have the property. -/
def Value.Each (P : Num → Prop) : Value → Prop
  | number x => P x
  | vector v => v.Each P
  | matrix m => m.Each P

variable {q : Nat × String → Prop} {P : Num → Prop}

theorem Value.each_iff {v : Value} : v.Each P ↔ ∀ x ∈ v.parts, P x := by
  cases v with
  | number x => exact (List.forall_mem_singleton (p := P)).symm
  | vector v => exact Iff.rfl
  | matrix m =>
    refine ⟨fun h x hx => ?_, fun h v hv x hx => h x (List.mem_flatMap.mpr ⟨v, hv, hx⟩)⟩
    obtain ⟨v, hv, hx⟩ := List.mem_flatMap.mp hx
    exact h v hv x hx

/-! ## Operations on vectors -/

theorem Num.Closed.foldl (hP : Closed q P) {op : String} (hop : q (2, op)) {xs : List Num} {x : Num}
    (hx : P x) (hxs : ∀ y ∈ xs, P y) : P (xs.foldl (Num.binary op) x) := by
  induction xs generalizing x with
  | nil => exact hx
  | cons y ys ih =>
    exact ih (hP.binary hop hx (hxs y List.mem_cons_self))
      fun z hz => hxs z (List.mem_cons_of_mem y hz)

namespace Vec

variable {v w : Vec}

theorem each_get (h : v.Each P) (i : Nat) : P (v.get i) := by
  rw [get]
  cases hi : v.elems[i]? with
  | none =>
    -- outside the vector its first element is taken
    exact h _ (List.head_mem v.nonempty)
  | some x => exact h x (List.mem_of_getElem? hi)

theorem each_mapElems {f : Num → Num} (hf : ∀ x, P x → P (f x)) (h : v.Each P) :
    (v.mapElems f).Each P := by
  intro y hy
  obtain ⟨x, hx, rfl⟩ := List.mem_map.mp hy
  exact hf x (h x hx)

theorem mem_of_signedGet? {α : Type} {xs : List α} {i : Int} {x : α}
    (h : signedGet? xs i = some x) : x ∈ xs := by
  obtain ⟨k, -, hk⟩ := Option.bind_eq_some_iff.mp h
  exact List.mem_of_getElem? hk

theorem each_elem {i : Int} {x : Num} (h : v.Each P) (hx : v.elem i = .ok x) : P x := by
  unfold elem at hx
  split at hx
  · next y hy =>
    rw [← Except.ok.inj hx]
    exact h y (mem_of_signedGet? hy)
  · cases hx

theorem each_concat (hv : v.Each P) (hw : w.Each P) : (v.concat w).Each P :=
  List.forall_mem_append.mpr ⟨hv, hw⟩

section

variable {op : String} (hP : Num.Closed q P)

include hP

theorem each_combine {hlen : v.length = w.length} (hop : q (2, op)) (hv : v.Each P)
    (hw : w.Each P) : (combine (.binary op) v w hlen).Each P := by
  intro z hz
  obtain ⟨i, hi, rfl⟩ := List.getElem_of_mem hz
  rw [combine, List.length_zipWith] at hi
  simp only [combine, List.getElem_zipWith]
  exact hP.binary hop (hv _ (List.getElem_mem _)) (hw _ (List.getElem_mem _))

theorem each_chainStep {u : Vec} (hop : q (2, elementOperator op)) (hv : v.Each P) (hw : w.Each P)
    (h : v.chainStep op w = .ok u) : u.Each P := by
  unfold chainStep at h
  split at h
  · rw [← Except.ok.inj h]
    exact each_combine hP hop hv hw
  · cases h

theorem each_apply {u : Vec} (hop : q (2, op)) (hv : v.Each P) (hw : w.Each P)
    (h : v.apply op w = .ok u) : u.Each P := by
  unfold apply at h
  split at h
  · rw [← Except.ok.inj h]
    exact each_combine hP hop hv hw
  · cases h

theorem each_reduce (hop : q (2, op)) (h : v.Each P) : P (v.reduce op) :=
  hP.foldl hop (h _ (List.head_mem v.nonempty)) fun y hy => h y (List.mem_of_mem_tail hy)

theorem each_dot (hmul : q (2, "mul")) (hadd : q (2, "add")) (hv : v.Each P) (hw : w.Each P) :
    P (v.dot w) := by
  refine hP.foldl hadd (hP.literal _) fun z hz => ?_
  obtain ⟨i, hi, rfl⟩ := List.getElem_of_mem hz
  simp only [List.getElem_zipWith]
  exact hP.binary hmul (hv _ (List.getElem_mem _)) (hw _ (List.getElem_mem _))

end

end Vec

/-! ## Operations on matrices -/

namespace Mat

variable {m n : Mat}

theorem each_get (h : m.Each P) (i j : Nat) : P (m.get i j) := by
  rw [get]
  cases hi : m.rows[i]? with
  | none => exact Vec.each_get (h _ (List.head_mem m.nonempty)) j
  | some v => exact Vec.each_get (h v (List.mem_of_getElem? hi)) j

theorem each_ofCells {r c : Nat} {hr : 0 < r} {hc : 0 < c} {f : Nat → Nat → Num}
    (hf : ∀ i j, P (f i j)) : (ofCells r c hr hc f).Each P := by
  intro v hv x hx
  obtain ⟨i, -, rfl⟩ := List.mem_map.mp hv
  obtain ⟨j, -, rfl⟩ := List.mem_map.mp hx
  exact hf i j

theorem each_mapCells {f : Num → Num} (hf : ∀ x, P x → P (f x)) (h : m.Each P) :
    (m.mapCells f).Each P := by
  intro v hv
  obtain ⟨w, hw, rfl⟩ := List.mem_map.mp hv
  exact Vec.each_mapElems hf (h w hw)

theorem each_elem {i j : Int} {x : Num} (h : m.Each P) (hx : m.elem i j = .ok x) : P x := by
  unfold elem at hx
  split at hx
  · next y hy =>
    obtain ⟨v, hv, hy⟩ := Option.bind_eq_some_iff.mp hy
    rw [← Except.ok.inj hx]
    exact h v (Vec.mem_of_signedGet? hv) y (Vec.mem_of_signedGet? hy)
  · cases hx

theorem each_row {i : Int} {v : Vec} (h : m.Each P) (hv : m.row i = .ok v) : v.Each P := by
  unfold row at hv
  split at hv
  · next w hw =>
    rw [← Except.ok.inj hv]
    exact h w (Vec.mem_of_signedGet? hw)
  · cases hv

theorem each_col {i : Int} {v : Vec} (h : m.Each P) (hv : m.col i = .ok v) : v.Each P := by
  unfold col at hv
  split at hv
  · rw [← Except.ok.inj hv]
    intro x hx
    obtain ⟨w, hw, rfl⟩ := List.mem_map.mp hx
    exact Vec.each_get (h w hw) _
  · cases hv

section

variable {op : String} {k : Mat} (hP : Num.Closed q P)

include hP

theorem each_combine (hop : q (2, op)) (hm : m.Each P) (hn : n.Each P) :
    (combine (.binary op) m n).Each P :=
  each_ofCells fun i j => hP.binary hop (each_get hm i j) (each_get hn i j)

theorem each_chainStep (hop : q (2, Vec.elementOperator (rowOperator op))) (hm : m.Each P)
    (hn : n.Each P) (h : m.chainStep op n = .ok k) : k.Each P := by
  unfold chainStep at h
  split at h
  · rw [← Except.ok.inj h]
    exact each_combine hP hop hm hn
  · cases h

theorem each_apply (hop : q (2, op)) (hm : m.Each P) (hn : n.Each P)
    (h : m.apply op n = .ok k) : k.Each P := by
  unfold apply at h
  split at h
  · rw [← Except.ok.inj h]
    exact each_combine hP hop hm hn
  · cases h

theorem each_productCell (hmul : q (2, "mul")) (hadd : q (2, "add")) (hm : m.Each P)
    (hn : n.Each P) (i j : Nat) : P (productCell m n i j) := by
  rw [productCell, ← List.foldl_map (f := fun k => Num.binary "mul" (m.get i k) (n.get k j))]
  refine hP.foldl hadd (hP.literal _) fun y hy => ?_
  obtain ⟨k, -, rfl⟩ := List.mem_map.mp hy
  exact hP.binary hmul (each_get hm i k) (each_get hn k j)

theorem each_product (hmul : q (2, "mul")) (hadd : q (2, "add")) (hm : m.Each P)
    (hn : n.Each P) (h : m.product n = .ok k) : k.Each P := by
  unfold product at h
  split at h
  · rw [← Except.ok.inj h]
    exact each_ofCells fun i j => each_productCell hP hmul hadd hm hn i j
  · cases h

end

end Mat

/-! ## Forms -/

theorem foldlM_invariant {α β ε : Type} {P : α → Prop} {Q : β → Prop} {f : α → β → Except ε α}
    (hstep : ∀ a b a', P a → Q b → f a b = .ok a' → P a') {bs : List β} {a z : α} (ha : P a)
    (hbs : ∀ b ∈ bs, Q b) (h : bs.foldlM f a = .ok z) : P z := by
  induction bs generalizing a with
  | nil =>
    cases h
    exact ha
  | cons b bs ih =>
    rw [List.foldlM_cons] at h
    cases hb : f a b with
    | error e => rw [hb] at h; cases h
    | ok a' =>
      rw [hb] at h
      exact ih (hstep a b a' ha (hbs b List.mem_cons_self) hb)
        (fun c hc => hbs c (List.mem_cons_of_mem b hc)) h

theorem foldl_invariant {α β : Type} {P : α → Prop} {Q : β → Prop} {f : α → β → α}
    (hstep : ∀ a b, P a → Q b → P (f a b)) {bs : List β} {a : α} (ha : P a)
    (hbs : ∀ b ∈ bs, Q b) : P (bs.foldl f a) := by
  induction bs generalizing a with
  | nil => exact ha
  | cons b bs ih =>
    exact ih (hstep a b ha (hbs b List.mem_cons_self))
      fun c hc => hbs c (List.mem_cons_of_mem b hc)

section

variable {env : Env} {t : Tree} {vs : List Value}

theorem Num.Closed.foldr (hP : Closed q P) {ops : List Tree} (hops : ∀ op ∈ ops, q (1, op.kind))
    {x : Num} (hx : P x) : P (ops.foldr (fun op x => Num.unary op.kind x) x) := by
  induction ops with
  | nil => exact hx
  | cons op ops ih =>
    exact hP.unary (hops op List.mem_cons_self)
      (ih fun o ho => hops o (List.mem_cons_of_mem op ho))

variable (hP : Num.Closed q P)

include hP

theorem NumForm.build_each {f : NumForm} {x : Num} (hvs : ∀ v ∈ vs, v.Each P)
    (hops : ∀ o ∈ f.operators t.children, q o) (hext : f = .external → P (.name t.name))
    (h : f.build env t vs = some x) : P x := by
  cases makes_of_build h with
  | chain hc y ys =>
    obtain ⟨hy, hys⟩ := List.forall_mem_cons.mp hvs
    rw [List.forall_mem_map] at hys
    rw [hc] at hops
    refine foldl_invariant (Q := fun b : (Tree × Tree) × Num => q (2, b.1.1.kind) ∧ P b.2)
      (fun a b ha hb => hP.binary hb.1 ha hb.2) hy fun b hb => ?_
    obtain ⟨hop, hoperand⟩ := List.of_mem_zip hb
    exact ⟨hops _ (List.mem_map_of_mem hop), hys _ hoperand⟩
  | unaryChain y =>
    exact hP.foldr (fun op hop => hops _ (List.mem_map_of_mem hop))
      (hvs (.number y) List.mem_cons_self)
  | reduce hc v =>
    rw [hc] at hops
    exact Vec.each_reduce hP (hops _ List.mem_cons_self) (hvs (.vector v) List.mem_cons_self)
  | dot v w =>
    exact Vec.each_dot hP (hops _ List.mem_cons_self)
      (hops _ (List.mem_cons_of_mem _ List.mem_cons_self)) (hvs (.vector v) List.mem_cons_self)
      (hvs (.vector w) (List.mem_cons_of_mem _ List.mem_cons_self))
  | len | rows | cols | literal => exact hP.literal _
  | @vecElem _ _ _ v _ _ _ _ hx => exact Vec.each_elem (hvs (.vector v) List.mem_cons_self) hx
  | @matElem _ _ _ _ m _ _ _ _ _ _ hx => exact Mat.each_elem (hvs (.matrix m) List.mem_cons_self) hx
  | external => exact hext rfl

theorem VecForm.build_each {f : VecForm} {v : Vec} (hvs : ∀ v ∈ vs, v.Each P)
    (hops : ∀ o ∈ f.operators t.children, q o) (h : f.build t vs = some v) : v.Each P := by
  cases makes_of_build h with
  | @chain _ _ w ws _ hc hu =>
    obtain ⟨hw, hws⟩ := List.forall_mem_cons.mp hvs
    rw [List.forall_mem_map] at hws
    rw [hc] at hops
    refine foldlM_invariant (Q := fun b : (Tree × Tree) × Vec =>
        q (2, Vec.elementOperator b.1.1.kind) ∧ Vec.Each P b.2)
      (fun _ _ _ ha hb => Vec.each_chainStep hP hb.1 ha hb.2) hw (fun b hb => ?_) hu
    obtain ⟨hop, hoperand⟩ := List.of_mem_zip hb
    exact ⟨hops _ (List.mem_map_of_mem hop), hws _ hoperand⟩
  | map hc w =>
    rw [hc] at hops
    exact Vec.each_mapElems (fun _ hx => hP.unary (hops _ List.mem_cons_self) hx)
      (hvs (.vector w) List.mem_cons_self)
  | premap hc x w =>
    rw [hc] at hops
    exact Vec.each_mapElems
      (fun _ he => hP.binary (hops _ List.mem_cons_self) he (hvs (.number x) List.mem_cons_self))
      (hvs (.vector w) (List.mem_cons_of_mem _ List.mem_cons_self))
  | postmap hc x w =>
    rw [hc] at hops
    exact Vec.each_mapElems
      (fun _ he => hP.binary (hops _ List.mem_cons_self) (hvs (.number x) List.mem_cons_self) he)
      (hvs (.vector w) (List.mem_cons_of_mem _ List.mem_cons_self))
  | @apply _ _ w ws _ hc hu =>
    obtain ⟨hw, hws⟩ := List.forall_mem_cons.mp hvs
    rw [List.forall_mem_map] at hws
    rw [hc] at hops
    exact foldlM_invariant (Q := Vec.Each P)
      (fun _ _ _ ha hb => Vec.each_apply hP (hops _ List.mem_cons_self) ha hb) hw
      (List.forall_mem_cons.mpr ⟨hw, hws⟩) hu
  | concat w ws =>
    obtain ⟨hw, hws⟩ := List.forall_mem_cons.mp hvs
    rw [List.forall_mem_map] at hws
    exact foldl_invariant (Q := Vec.Each P) (fun _ _ ha hb => Vec.each_concat ha hb) hw hws
  | reverse w => exact fun x hx => hvs (.vector w) List.mem_cons_self x (List.mem_reverse.mp hx)
  | @row _ _ _ m _ _ _ _ hu => exact Mat.each_row (hvs (.matrix m) List.mem_cons_self) hu
  | @col _ _ _ m _ _ _ _ hu => exact Mat.each_col (hvs (.matrix m) List.mem_cons_self) hu
  | literal hu =>
    rw [List.forall_mem_map] at hvs
    unfold Vec.ofList? at hu
    split at hu
    · cases hu
    · rw [← Option.some.inj hu]
      exact hvs

theorem MatForm.build_each {f : MatForm} {m : Mat} (hvs : ∀ v ∈ vs, v.Each P)
    (hops : ∀ o ∈ f.operators t.children, q o) (h : f.build t vs = some m) : m.Each P := by
  cases makes_of_build h with
  | @chain _ _ k ks _ hc hk =>
    obtain ⟨hfirst, hks⟩ := List.forall_mem_cons.mp hvs
    rw [List.forall_mem_map] at hks
    rw [hc] at hops
    refine foldlM_invariant (Q := fun b : (Tree × Tree) × Mat =>
        q (2, Vec.elementOperator (Mat.rowOperator b.1.1.kind)) ∧ Mat.Each P b.2)
      (fun _ _ _ ha hb => Mat.each_chainStep hP hb.1 ha hb.2) hfirst (fun b hb => ?_) hk
    obtain ⟨hop, hoperand⟩ := List.of_mem_zip hb
    exact ⟨hops _ (List.mem_map_of_mem hop), hks _ hoperand⟩
  | map hc k =>
    rw [hc] at hops
    exact Mat.each_mapCells (fun _ hx => hP.unary (hops _ List.mem_cons_self) hx)
      (hvs (.matrix k) List.mem_cons_self)
  | premap hc x k =>
    rw [hc] at hops
    exact Mat.each_mapCells
      (fun _ he => hP.binary (hops _ List.mem_cons_self) he (hvs (.number x) List.mem_cons_self))
      (hvs (.matrix k) (List.mem_cons_of_mem _ List.mem_cons_self))
  | postmap hc x k =>
    rw [hc] at hops
    exact Mat.each_mapCells
      (fun _ he => hP.binary (hops _ List.mem_cons_self) (hvs (.number x) List.mem_cons_self) he)
      (hvs (.matrix k) (List.mem_cons_of_mem _ List.mem_cons_self))
  | @apply _ _ k ks _ hc hk =>
    obtain ⟨hfirst, hks⟩ := List.forall_mem_cons.mp hvs
    rw [List.forall_mem_map] at hks
    rw [hc] at hops
    exact foldlM_invariant (Q := Mat.Each P)
      (fun _ _ _ ha hb => Mat.each_apply hP (hops _ List.mem_cons_self) ha hb) hfirst
      (List.forall_mem_cons.mpr ⟨hfirst, hks⟩) hk
  | transpose k =>
    exact Mat.each_ofCells fun i j => Mat.each_get (hvs (.matrix k) List.mem_cons_self) j i
  | @product k l _ hk =>
    exact Mat.each_product hP (hops _ List.mem_cons_self)
      (hops _ (List.mem_cons_of_mem _ List.mem_cons_self)) (hvs (.matrix k) List.mem_cons_self)
      (hvs (.matrix l) (List.mem_cons_of_mem _ List.mem_cons_self)) hk
  | literal hk =>
    rw [List.forall_mem_map] at hvs
    unfold Mat.ofRows at hk
    split at hk
    · cases hk
    · split at hk
      · rw [← Except.ok.inj hk]
        exact hvs
      · cases hk

omit hP in
theorem NumForm.kind_of_external {k : String} (h : NumForm.ofKind? k = some .external) :
    k = "external" := by
  simpa [NumForm.table] using mem_of_lookup h

/-- A form keeps a property that its operators keep; an external brings its own name. -/
theorem build_each {s : ValueSort} {v : Value} (hvs : ∀ v ∈ vs, v.Each P)
    (hops : ∀ o ∈ operators s t, q o) (hext : t.kind = "external" → P (.name t.name))
    (h : build env s t vs = some v) : v.Each P := by
  cases s with
  | number =>
    obtain ⟨f, hf, h⟩ := Option.bind_eq_some_iff.mp h
    obtain ⟨x, hx, rfl⟩ := Option.map_eq_some_iff.mp h
    rw [operators, hf] at hops
    refine f.build_each hP hvs hops (fun hfext => hext ?_) hx
    exact NumForm.kind_of_external (hfext ▸ hf)
  | vector =>
    obtain ⟨f, hf, h⟩ := Option.bind_eq_some_iff.mp h
    obtain ⟨w, hw, rfl⟩ := Option.map_eq_some_iff.mp h
    rw [operators, hf] at hops
    exact f.build_each hP hvs hops hw
  | matrix =>
    obtain ⟨f, hf, h⟩ := Option.bind_eq_some_iff.mp h
    obtain ⟨m, hm, rfl⟩ := Option.map_eq_some_iff.mp h
    rw [operators, hf] at hops
    exact f.build_each hP hvs hops hm

/-- A property of the values of the variables goes over to the value of an expression, if the
operators at its nodes keep it. -/
theorem Evaluates.each {s : ValueSort} {v : Value} (h : Evaluates env s t v)
    (hvars : ∀ b ∈ env.bindings, b.value.Each P)
    (hops : ∀ u s, Occurs env.macros t u → ∀ o ∈ operators s u, q o)
    (hext : ∀ u, Occurs env.macros t u → u.kind = "external" → P (.name u.name)) : v.Each P := by
  refine Derives.invariant (P := Value.Each P) (fun s n v hv => ?_) h
    fun s u vs v hu hvs hv => build_each hP hvs (hops u s hu) (hext u hu) hv
  obtain ⟨b, hb, hvalue⟩ := Option.bind_eq_some_iff.mp hv
  split at hvalue
  · rw [← Option.some.inj hvalue]
    exact hvars b (List.mem_of_find?_eq_some hb)
  · cases hvalue

end

end Scalarize
