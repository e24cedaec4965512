import Scalarize.Proofs.Derivation

/-!
# Scalarize — the values of expressions

The three evaluators go down an expression with a limit of depth, record their place, and stop at
the first error. What they compute is described here from the bottom up, with neither limit nor
place nor errors.

* **`NumForm.build`**, **`VecForm.build`**, **`MatForm.build`** — what a form makes of the values of
  its operands.
* **`NumForm.Makes`**, **`VecForm.Makes`**, **`MatForm.Makes`** — the same as relations, with a case
  for each form; proofs about what is made go through these cases.
* **`Evaluates`** — the derivations with these forms; most later statements about expressions are
  made about it.
* **`Yields`** — the same with the one check that `Evaluates` leaves out, of the sort that a macro
  says it returns. This is exactly what the evaluators compute.
-/

namespace Scalarize

universe w

theorem mem_of_lookup {β : Type} {l : List (String × β)} {k : String} {b : β}
    (h : l.lookup k = some b) : (k, b) ∈ l := by
  obtain ⟨l₁, l₂, rfl, -⟩ := List.lookup_eq_some_iff.mp h
  exact List.mem_append_right _ List.mem_cons_self

/-- A map over a list in which no element fails. -/
theorem mapM_map_eq_some {α : Type} {β γ : Type w} {f : α → β} {g : β → Option γ} {h : α → γ}
    {xs : List α} (hg : ∀ x ∈ xs, g (f x) = some (h x)) :
    (xs.map f).mapM g = some (xs.map h) := by
  induction xs with
  | nil => rfl
  | cons x xs ih =>
    rw [List.map_cons, List.mapM_cons, hg x List.mem_cons_self,
      ih fun y hy => hg y (List.mem_cons_of_mem x hy)]
    rfl

namespace Value

/-- The number that a value is. -/
def number? : Value → Option Num
  | number x => some x
  | _ => none

/-- The vector that a value is. -/
def vector? : Value → Option Vec
  | vector v => some v
  | _ => none

/-- The matrix that a value is. -/
def matrix? : Value → Option Mat
  | matrix m => some m
  | _ => none

theorem eq_of_number? {v : Value} {x : Num} (h : v.number? = some x) : v = number x := by
  cases v <;> cases h
  rfl

theorem eq_of_vector? {v : Value} {w : Vec} (h : v.vector? = some w) : v = vector w := by
  cases v <;> cases h
  rfl

theorem eq_of_matrix? {v : Value} {m : Mat} (h : v.matrix? = some m) : v = matrix m := by
  cases v <;> cases h
  rfl

/-- Values of one sort, taken out one by one. -/
theorem eq_map_of_mapM {β : Type} {f : Value → Option β} {g : β → Value}
    (hf : ∀ {v b}, f v = some b → v = g b) {vs : List Value} {bs : List β}
    (h : vs.mapM f = some bs) : vs = bs.map g := by
  induction vs generalizing bs with
  | nil => cases h; rfl
  | cons v vs ih =>
    rw [List.mapM_cons] at h
    obtain ⟨b, hb, h⟩ := Option.bind_eq_some_iff.mp h
    obtain ⟨bs', hbs, h⟩ := Option.bind_eq_some_iff.mp h
    cases h
    rw [List.map_cons, ← hf hb, ← ih hbs]

theorem mapM_number? (xs : List Num) : (xs.map number).mapM number? = some xs := by
  have h : (xs.map number).mapM number? = some (xs.map id) := mapM_map_eq_some fun _ _ => rfl
  rwa [List.map_id] at h

theorem mapM_vector? (vs : List Vec) : (vs.map vector).mapM vector? = some vs := by
  have h : (vs.map vector).mapM vector? = some (vs.map id) := mapM_map_eq_some fun _ _ => rfl
  rwa [List.map_id] at h

theorem mapM_matrix? (ms : List Mat) : (ms.map matrix).mapM matrix? = some ms := by
  have h : (ms.map matrix).mapM matrix? = some (ms.map id) := mapM_map_eq_some fun _ _ => rfl
  rwa [List.map_id] at h

end Value

/-! ## Forms -/

/-- What a number expression makes of the values of its operands. -/
def NumForm.build (env : Env) (f : NumForm) (t : Tree) (vs : List Value) : Option Num :=
  match f, t.children, vs with
  | .chain, _ :: rest, .number x :: vs =>
    (vs.mapM Value.number?).map fun ys =>
      ((pairs rest).zip ys).foldl (fun x p => .binary p.1.1.kind x p.2) x
  | .unaryChain, cs, [.number x] => some (cs.dropLast.foldr (fun op x => .unary op.kind x) x)
  | .reduce, op :: _, [.vector v] => some (v.reduce op.kind)
  | .dot, _, [.vector v, .vector w] => some (v.dot w)
  | .len, _, [.vector v] => some v.len
  | .rows, _, [.matrix m] => some m.rowNumber
  | .cols, _, [.matrix m] => some m.colNumber
  | .vecElem, _ :: i :: _, [.vector v] => (indexOf? i.value).bind fun k => (v.elem k).toOption
  | .matElem, _ :: i :: j :: _, [.matrix m] =>
    (indexOf? i.value).bind fun k => (indexOf? j.value).bind fun l => (m.elem k l).toOption
  | .external, _, [] => (env.target t.name).toOption.map fun _ => .name t.name
  | .literal, _, [] => (literalOf t.value).toOption.map .literal
  | _, _, _ => none

/-- What a vector expression makes of the values of its operands. -/
def VecForm.build (f : VecForm) (t : Tree) (vs : List Value) : Option Vec :=
  match f, t.children, vs with
  | .chain, _ :: rest, .vector v :: vs =>
    (vs.mapM Value.vector?).bind fun ws =>
      (((pairs rest).zip ws).foldlM (fun v p => Vec.chainStep p.1.1.kind v p.2) v).toOption
  | .map, op :: _, [.vector v] => some (v.map op.kind)
  | .premap, op :: _, [.number x, .vector v] => some (v.premap op.kind x)
  | .postmap, _ :: op :: _, [.number x, .vector v] => some (v.postmap op.kind x)
  | .apply, op :: _, .vector v :: vs =>
    (vs.mapM Value.vector?).bind fun ws => ((v :: ws).foldlM (Vec.apply op.kind) v).toOption
  | .concat, _, .vector v :: vs => (vs.mapM Value.vector?).map fun ws => ws.foldl Vec.concat v
  | .reverse, _, [.vector v] => some v.reverse
  | .row, _ :: i :: _, [.matrix m] => (indexOf? i.value).bind fun k => (m.row k).toOption
  | .col, _ :: i :: _, [.matrix m] => (indexOf? i.value).bind fun k => (m.col k).toOption
  | .literal, _, vs => (vs.mapM Value.number?).bind Vec.ofList?
  | _, _, _ => none

/-- What a matrix expression makes of the values of its operands. -/
def MatForm.build (f : MatForm) (t : Tree) (vs : List Value) : Option Mat :=
  match f, t.children, vs with
  | .chain, _ :: rest, .matrix m :: vs =>
    (vs.mapM Value.matrix?).bind fun ns =>
      (((pairs rest).zip ns).foldlM (fun m p => Mat.chainStep p.1.1.kind m p.2) m).toOption
  | .map, op :: _, [.matrix m] => some (m.map op.kind)
  | .premap, op :: _, [.number x, .matrix m] => some (m.premap op.kind x)
  | .postmap, _ :: op :: _, [.number x, .matrix m] => some (m.postmap op.kind x)
  | .apply, op :: _, .matrix m :: vs =>
    (vs.mapM Value.matrix?).bind fun ns => ((m :: ns).foldlM (Mat.apply op.kind) m).toOption
  | .transpose, _, [.matrix m] => some m.transpose
  | .product, _, [.matrix m, .matrix n] => (m.product n).toOption
  | .literal, _, vs => (vs.mapM Value.vector?).bind fun ws => (Mat.ofRows ws).toOption
  | _, _, _ => none

/-- What an expression of the given sort makes of the values of its operands. -/
def build (env : Env) (s : ValueSort) (t : Tree) (vs : List Value) : Option Value :=
  match s with
  | .number => (NumForm.ofKind? t.kind).bind fun f => (f.build env t vs).map .number
  | .vector => (VecForm.ofKind? t.kind).bind fun f => (f.build t vs).map .vector
  | .matrix => (MatForm.ofKind? t.kind).bind fun f => (f.build t vs).map .matrix

/-! ## What the forms make, form by form -/

/-- What number expressions make: the form, the values of the operands, and the number. -/
inductive NumForm.Makes (env : Env) (t : Tree) : NumForm → List Value → Num → Prop where
  | chain {first rest} (hc : t.children = first :: rest) (x) (ys : List Num) :
      Makes env t .chain (.number x :: ys.map .number)
        (((pairs rest).zip ys).foldl (fun x p => .binary p.1.1.kind x p.2) x)
  | unaryChain (x) : Makes env t .unaryChain [.number x]
      (t.children.dropLast.foldr (fun op x => .unary op.kind x) x)
  | reduce {op rest} (hc : t.children = op :: rest) (v) :
      Makes env t .reduce [.vector v] (v.reduce op.kind)
  | dot (v w) : Makes env t .dot [.vector v, .vector w] (v.dot w)
  | len (v) : Makes env t .len [.vector v] v.len
  | rows (m) : Makes env t .rows [.matrix m] m.rowNumber
  | cols (m) : Makes env t .cols [.matrix m] m.colNumber
  | vecElem {e i rest v k x} (hc : t.children = e :: i :: rest) (hk : indexOf? i.value = some k)
      (hx : v.elem k = .ok x) : Makes env t .vecElem [.vector v] x
  | matElem {e i j rest m k l x} (hc : t.children = e :: i :: j :: rest)
      (hk : indexOf? i.value = some k) (hl : indexOf? j.value = some l)
      (hx : m.elem k l = .ok x) : Makes env t .matElem [.matrix m] x
  | external {target} (h : env.target t.name = .ok target) :
      Makes env t .external [] (.name t.name)
  | literal {n} (h : literalOf t.value = .ok n) : Makes env t .literal [] (.literal n)

/-- What vector expressions make. -/
inductive VecForm.Makes (t : Tree) : VecForm → List Value → Vec → Prop where
  | chain {first rest v ws u} (hc : t.children = first :: rest)
      (hu : ((pairs rest).zip ws).foldlM (fun v p => Vec.chainStep p.1.1.kind v p.2) v = .ok u) :
      Makes t .chain (.vector v :: ws.map .vector) u
  | map {op rest} (hc : t.children = op :: rest) (v) : Makes t .map [.vector v] (v.map op.kind)
  | premap {op rest} (hc : t.children = op :: rest) (x v) :
      Makes t .premap [.number x, .vector v] (v.premap op.kind x)
  | postmap {e op rest} (hc : t.children = e :: op :: rest) (x v) :
      Makes t .postmap [.number x, .vector v] (v.postmap op.kind x)
  | apply {op rest v ws u} (hc : t.children = op :: rest)
      (hu : (v :: ws).foldlM (Vec.apply op.kind) v = .ok u) :
      Makes t .apply (.vector v :: ws.map .vector) u
  | concat (v) (ws : List Vec) : Makes t .concat (.vector v :: ws.map .vector) (ws.foldl Vec.concat v)
  | reverse (v) : Makes t .reverse [.vector v] v.reverse
  | row {e i rest m k u} (hc : t.children = e :: i :: rest) (hk : indexOf? i.value = some k)
      (hu : m.row k = .ok u) : Makes t .row [.matrix m] u
  | col {e i rest m k u} (hc : t.children = e :: i :: rest) (hk : indexOf? i.value = some k)
      (hu : m.col k = .ok u) : Makes t .col [.matrix m] u
  | literal {xs u} (hu : Vec.ofList? xs = some u) : Makes t .literal (xs.map .number) u

/-- What matrix expressions make. -/
inductive MatForm.Makes (t : Tree) : MatForm → List Value → Mat → Prop where
  | chain {first rest m ns k} (hc : t.children = first :: rest)
      (hk : ((pairs rest).zip ns).foldlM (fun m p => Mat.chainStep p.1.1.kind m p.2) m = .ok k) :
      Makes t .chain (.matrix m :: ns.map .matrix) k
  | map {op rest} (hc : t.children = op :: rest) (m) : Makes t .map [.matrix m] (m.map op.kind)
  | premap {op rest} (hc : t.children = op :: rest) (x m) :
      Makes t .premap [.number x, .matrix m] (m.premap op.kind x)
  | postmap {e op rest} (hc : t.children = e :: op :: rest) (x m) :
      Makes t .postmap [.number x, .matrix m] (m.postmap op.kind x)
  | apply {op rest m ns k} (hc : t.children = op :: rest)
      (hk : (m :: ns).foldlM (Mat.apply op.kind) m = .ok k) :
      Makes t .apply (.matrix m :: ns.map .matrix) k
  | transpose (m) : Makes t .transpose [.matrix m] m.transpose
  | product {m n k} (hk : m.product n = .ok k) : Makes t .product [.matrix m, .matrix n] k
  | literal {ws k} (hk : Mat.ofRows ws = .ok k) : Makes t .literal (ws.map .vector) k

theorem ok_of_toOption {α ε : Type} {x : Except ε α} {a : α} (h : x.toOption = some a) :
    x = .ok a := by
  cases x with
  | error e => cases h
  | ok b => rw [Option.some.inj h]

section

variable {env : Env} {t : Tree} {vs : List Value}

theorem NumForm.makes_of_build {f : NumForm} {x : Num} (h : f.build env t vs = some x) :
    f.Makes env t vs x := by
  unfold NumForm.build at h
  split at h
  · next hc =>
    obtain ⟨ys, hys, rfl⟩ := Option.map_eq_some_iff.mp h
    rw [Value.eq_map_of_mapM Value.eq_of_number? hys]
    exact .chain hc _ ys
  · exact Option.some.inj h ▸ .unaryChain _
  · next hc => exact Option.some.inj h ▸ .reduce hc _
  · exact Option.some.inj h ▸ .dot _ _
  · exact Option.some.inj h ▸ .len _
  · exact Option.some.inj h ▸ .rows _
  · exact Option.some.inj h ▸ .cols _
  · next hc =>
    obtain ⟨k, hk, h⟩ := Option.bind_eq_some_iff.mp h
    exact .vecElem hc hk (ok_of_toOption h)
  · next hc =>
    obtain ⟨k, hk, h⟩ := Option.bind_eq_some_iff.mp h
    obtain ⟨l, hl, h⟩ := Option.bind_eq_some_iff.mp h
    exact .matElem hc hk hl (ok_of_toOption h)
  · obtain ⟨target, htarget, rfl⟩ := Option.map_eq_some_iff.mp h
    exact .external (ok_of_toOption htarget)
  · obtain ⟨n, hn, rfl⟩ := Option.map_eq_some_iff.mp h
    exact .literal (ok_of_toOption hn)
  · cases h

theorem VecForm.makes_of_build {f : VecForm} {u : Vec} (h : f.build t vs = some u) :
    f.Makes t vs u := by
  unfold VecForm.build at h
  split at h
  · next hc =>
    obtain ⟨ws, hws, h⟩ := Option.bind_eq_some_iff.mp h
    rw [Value.eq_map_of_mapM Value.eq_of_vector? hws]
    exact .chain hc (ok_of_toOption h)
  · next hc => exact Option.some.inj h ▸ .map hc _
  · next hc => exact Option.some.inj h ▸ .premap hc _ _
  · next hc => exact Option.some.inj h ▸ .postmap hc _ _
  · next hc =>
    obtain ⟨ws, hws, h⟩ := Option.bind_eq_some_iff.mp h
    rw [Value.eq_map_of_mapM Value.eq_of_vector? hws]
    exact .apply hc (ok_of_toOption h)
  · obtain ⟨ws, hws, rfl⟩ := Option.map_eq_some_iff.mp h
    rw [Value.eq_map_of_mapM Value.eq_of_vector? hws]
    exact .concat _ ws
  · exact Option.some.inj h ▸ .reverse _
  · next hc =>
    obtain ⟨k, hk, h⟩ := Option.bind_eq_some_iff.mp h
    exact .row hc hk (ok_of_toOption h)
  · next hc =>
    obtain ⟨k, hk, h⟩ := Option.bind_eq_some_iff.mp h
    exact .col hc hk (ok_of_toOption h)
  · obtain ⟨xs, hxs, h⟩ := Option.bind_eq_some_iff.mp h
    rw [Value.eq_map_of_mapM Value.eq_of_number? hxs]
    exact .literal h
  · cases h

theorem MatForm.makes_of_build {f : MatForm} {k : Mat} (h : f.build t vs = some k) :
    f.Makes t vs k := by
  unfold MatForm.build at h
  split at h
  · next hc =>
    obtain ⟨ns, hns, h⟩ := Option.bind_eq_some_iff.mp h
    rw [Value.eq_map_of_mapM Value.eq_of_matrix? hns]
    exact .chain hc (ok_of_toOption h)
  · next hc => exact Option.some.inj h ▸ .map hc _
  · next hc => exact Option.some.inj h ▸ .premap hc _ _
  · next hc => exact Option.some.inj h ▸ .postmap hc _ _
  · next hc =>
    obtain ⟨ns, hns, h⟩ := Option.bind_eq_some_iff.mp h
    rw [Value.eq_map_of_mapM Value.eq_of_matrix? hns]
    exact .apply hc (ok_of_toOption h)
  · exact Option.some.inj h ▸ .transpose _
  · exact .product (ok_of_toOption h)
  · obtain ⟨ws, hws, h⟩ := Option.bind_eq_some_iff.mp h
    rw [Value.eq_map_of_mapM Value.eq_of_vector? hws]
    exact .literal (ok_of_toOption h)
  · cases h

end

/-! ## Values -/

/-- The value of a variable, if it has the given sort. -/
def Env.valueOf (env : Env) (s : ValueSort) (name : String) : Option Value :=
  (env.binding? name).bind fun b => if b.value.sort = s then some b.value else none

/-- An expression has a value in an environment. -/
def Evaluates (env : Env) : ValueSort → Tree → Value → Prop :=
  Derives env.valueOf env.macros (build env)

/-! ## Macros that return the sort they say -/

/-- The expression that a macro call of the given sort stands for. -/
def sortedExpansion? (macros : Macros) (s : ValueSort) (t : Tree) : Option Tree :=
  match t.children with
  | callee :: args :: _ =>
    (macros.lookup callee.name).bind fun m =>
      if m.returns = s.word then (m.call args.children).toOption else none
  | _ => none

theorem expansion_of_sorted {macros : Macros} {s : ValueSort} {t body : Tree}
    (h : sortedExpansion? macros s t = some body) : expansion? macros t = some body := by
  unfold sortedExpansion? at h
  split at h
  · next callee args rest hc =>
    obtain ⟨m, hm, h⟩ := Option.bind_eq_some_iff.mp h
    split at h
    · unfold expansion?
      rw [hc]
      exact Option.bind_eq_some_iff.mpr ⟨m, hm, h⟩
    · cases h
  · cases h

/-- An expression has a value in an environment, and its macros return the sorts they say. -/
inductive Yields (env : Env) : ValueSort → Tree → Value → Prop where
  | reference {s t v} (hkind : t.kind = "variable") (hvar : env.valueOf s t.name = some v) :
      Yields env s t v
  | call {s t body v} (hkind : t.kind = "call")
      (hbody : sortedExpansion? env.macros s t = some body) (h : Yields env s body v) :
      Yields env s t v
  | form {s t ops vs v} (hops : operands s t = some ops) (hlen : ops.length = vs.length)
      (h : ∀ {p w}, (p, w) ∈ ops.zip vs → Yields env p.1 p.2 w)
      (hbuild : build env s t vs = some v) : Yields env s t v

namespace Yields

variable {env : Env} {s : ValueSort} {t : Tree} {v w : Value} {vs : List Value}
  {ops : List (ValueSort × Tree)}

theorem evaluates (h : Yields env s t v) : Evaluates env s t v := by
  induction h with
  | reference hkind hvar => exact Derives.reference hkind hvar
  | call hkind hbody _ ih => exact Derives.call hkind (expansion_of_sorted hbody) ih
  | form hops hlen _ hbuild ih => exact Derives.form hops hlen ih hbuild

theorem unique (h : Yields env s t v) (h' : Yields env s t w) : v = w :=
  Derives.unique h.evaluates h'.evaluates

theorem sort_eq (h : Yields env s t v) : v.sort = s := by
  induction h with
  | reference _ hvar =>
    obtain ⟨b, -, hb⟩ := Option.bind_eq_some_iff.mp hvar
    split at hb
    · next hs => rw [← Option.some.inj hb, hs]
    · cases hb
  | call _ _ _ ih => exact ih
  | @form s _ _ _ _ _ _ _ hbuild =>
    cases s <;>
    · obtain ⟨f, -, hf⟩ := Option.bind_eq_some_iff.mp hbuild
      obtain ⟨x, -, rfl⟩ := Option.map_eq_some_iff.mp hf
      rfl

theorem eq_number (h : Yields env .number t v) : ∃ x, v = .number x := by
  cases v with
  | number x => exact ⟨x, rfl⟩
  | vector _ => cases h.sort_eq
  | matrix _ => cases h.sort_eq

theorem eq_vector (h : Yields env .vector t v) : ∃ u, v = .vector u := by
  cases v with
  | number _ => cases h.sort_eq
  | vector u => exact ⟨u, rfl⟩
  | matrix _ => cases h.sort_eq

theorem eq_matrix (h : Yields env .matrix t v) : ∃ m, v = .matrix m := by
  cases v with
  | number _ => cases h.sort_eq
  | vector _ => cases h.sort_eq
  | matrix m => exact ⟨m, rfl⟩

theorem of_forall₂ (hops : operands s t = some ops)
    (h : List.Forall₂ (fun p v => Yields env p.1 p.2 v) ops vs)
    (hbuild : build env s t vs = some v) : Yields env s t v :=
  .form hops h.length_eq (fun hp => (List.forall₂_iff_zip.mp h).2 hp) hbuild

/-- A form has a value only if its operands have and it makes one of theirs. -/
theorem of_operands (hops : operands s t = some ops) (h : Yields env s t v) :
    ∃ vs, List.Forall₂ (fun p v => Yields env p.1 p.2 v) ops vs ∧ build env s t vs = some v := by
  cases h with
  | reference hkind => rw [operands_variable hkind] at hops; cases hops
  | call hkind => rw [operands_call hkind] at hops; cases hops
  | @form _ _ ops' vs _ hops' hlen h hbuild =>
    obtain rfl := Option.some.inj (hops.symm.trans hops')
    exact ⟨vs, List.forall₂_iff_zip.mpr ⟨hlen, h⟩, hbuild⟩

/-- A call has a value only if its body has. -/
theorem of_body {body : Tree} (hkind : t.kind = "call")
    (hbody : sortedExpansion? env.macros s t = some body) (h : Yields env s t v) :
    Yields env s body v := by
  cases h with
  | reference hkind' => rw [hkind] at hkind'; exact absurd hkind' (by decide)
  | call _ hbody' h =>
    rw [hbody] at hbody'
    rwa [Option.some.inj hbody']
  | form hops => rw [operands_call hkind] at hops; cases hops

theorem forall₂_unique {us : List Value}
    (h : List.Forall₂ (fun p v => Yields env p.1 p.2 v) ops vs)
    (h' : List.Forall₂ (fun p v => Yields env p.1 p.2 v) ops us) : vs = us := by
  induction h generalizing us with
  | nil => cases h'; rfl
  | cons hv _ ih =>
    obtain ⟨u, us', hu, hus, rfl⟩ := List.forall₂_cons_left_iff.mp h'
    rw [hv.unique hu, ih hus]

/-- A form has no value if it makes none of the values of its operands. -/
theorem not_of_build (hops : operands s t = some ops)
    (h : List.Forall₂ (fun p v => Yields env p.1 p.2 v) ops vs)
    (hbuild : build env s t vs = none) (v : Value) : ¬ Yields env s t v := by
  intro hv
  obtain ⟨us, hus, hbuild'⟩ := hv.of_operands hops
  rw [← forall₂_unique h hus, hbuild] at hbuild'
  cases hbuild'

/-- A node that is neither a variable nor a call nor a form of the sort has no value. -/
theorem not_of_kind (hvar : t.kind ≠ "variable") (hcall : t.kind ≠ "call")
    (hops : operands s t = none) (v : Value) : ¬ Yields env s t v := by
  intro hv
  cases hv with
  | reference hkind => exact hvar hkind
  | call hkind => exact hcall hkind
  | form hops' => rw [hops] at hops'; cases hops'

theorem not_of_variable (hkind : t.kind = "variable") (hvar : env.valueOf s t.name = none)
    (v : Value) : ¬ Yields env s t v := by
  intro hv
  cases hv with
  | reference _ hvar' => rw [hvar] at hvar'; cases hvar'
  | call hkind' => rw [hkind] at hkind'; exact absurd hkind' (by decide)
  | form hops => rw [operands_variable hkind] at hops; cases hops

theorem not_of_call (hkind : t.kind = "call") (hbody : sortedExpansion? env.macros s t = none)
    (v : Value) : ¬ Yields env s t v := by
  intro hv
  cases hv with
  | reference hkind' => rw [hkind] at hkind'; exact absurd hkind' (by decide)
  | call _ hbody' => rw [hbody] at hbody'; cases hbody'
  | form hops => rw [operands_call hkind] at hops; cases hops

end Yields

end Scalarize
