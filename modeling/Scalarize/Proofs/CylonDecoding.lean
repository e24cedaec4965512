import Scalarize.Output.Cylon
import Scalarize.Proofs.PrintedTokens

/-!
# Scalarize — reading a program back from its Cylon document

A Cylon document names an operator by its symbol and its precedence, never by the kind of the node,
and negation and subtraction have one symbol. Still nothing is lost: the type of an expression says
how many operands there are, and among the operators of as many operands symbol and precedence
determine the kind.

* **`IsProgram`** — the chip programs in which every operator has its operands.
* **`decode`** — the lines of the program of a document.
* **`kindOf?_operator`** — an operator is found again among those with as many operands.
* **`decode_document`** — every chip program has a document, and decoding gives back its lines, with
  the numbers as they are written out.
-/

namespace Scalarize

namespace Tree

mutual

/-- The same tree with its numbers written out as texts. -/
def spelled : Tree → Tree
  | leaf k v => leaf k (if k == "number" then some (.text (valueText v)) else v)
  | branch k v cs => branch k v (spelledAll cs)

/-- `spelled` on a list of trees. -/
def spelledAll : List Tree → List Tree
  | [] => []
  | t :: ts => spelled t :: spelledAll ts

end

theorem spelledAll_eq_map (ts : List Tree) : spelledAll ts = ts.map spelled := by
  induction ts with
  | nil => rfl
  | cons t ts ih => rw [spelledAll, ih, List.map_cons]

@[simp]
theorem spelled_node (k : String) (cs : List Tree) :
    (node k cs).spelled = node k (cs.map spelled) := by
  rw [node, spelled, spelledAll_eq_map]
  rfl

@[simp]
theorem spelled_variableNamed (x : String) : (variableNamed x).spelled = variableNamed x := rfl

end Tree

namespace Cylon

open Layout (unaryKinds binaryKinds)

/-! ## The programs -/

/-- An expression in which every operator has its operands. -/
inductive IsExpression : Tree → Prop where
  | identifier (x : String) : IsExpression (.variableNamed x)
  | number (v : Option Scalar) : IsExpression (.leaf "number" v)
  | unary {k : String} {x : Tree} (hk : k ∈ unaryKinds) (hx : IsExpression x) :
      IsExpression (.node k [x])
  | binary {k : String} {x y : Tree} (hk : k ∈ binaryKinds) (hx : IsExpression x)
      (hy : IsExpression y) : IsExpression (.node k [x, y])

/-- An assignment of an expression to a variable. -/
inductive IsAssignment : Tree → Prop where
  | assign (x : String) {e : Tree} (he : IsExpression e) :
      IsAssignment (.node "assignment" [.variableNamed x, e])

/-- A line of assignments. -/
inductive IsLine : Tree → Prop where
  | line {as : List Tree} (h : ∀ a ∈ as, IsAssignment a) : IsLine (.node "line" as)

/-- A program: lines of assignments. -/
structure IsProgram (program : Tree) : Prop where
  kind_eq : program.kind = "program"
  lines : ∀ l ∈ program.children, IsLine l

/-! ## Decoding -/

/-- The kind of the operator of a table that a document describes. -/
def kindOf? (table : List (String × Operator)) : Document → Option String
  | .array [.string symbol, .number precedence] =>
    (table.find? fun entry =>
      entry.2.symbol == symbol && toString entry.2.precedence == precedence).map Prod.fst
  | _ => none

/-- The expression that a document describes. -/
def decodeExpression : Document → Option Tree
  | .object [("type", .string "expression::identifier"), ("name", .string x), _] =>
    some (.variableNamed x)
  | .object [("type", .string "expression::number"), ("num", .string s), _] =>
    some (.text "number" s)
  | .object [("type", .string "expression::unary_op"), ("operator", op), ("operand", x), _] => do
    let k ← kindOf? Operator.unaryTable op
    let x ← decodeExpression x
    return .node k [x]
  | .object [("type", .string "expression::binary_op"), ("operator", op), ("left", x),
      ("right", y), _] => do
    let k ← kindOf? Operator.binaryTable op
    let x ← decodeExpression x
    let y ← decodeExpression y
    return .node k [x, y]
  | _ => none

/-- The assignment that a document describes. -/
def decodeAssignment : Document → Option Tree
  | .object [_, ("identifier", .string x), _, ("value", e)] => do
    let e ← decodeExpression e
    return .node "assignment" [.variableNamed x, e]
  | _ => none

/-- The line that a document describes. -/
def decodeLine : Document → Option Tree
  | .object [_, ("code", .array code)] => do
    let as ← code.mapM decodeAssignment
    return .node "line" as
  | _ => none

/-- The lines of the program that a document describes. -/
def decode : Document → Option (List Tree)
  | .object [_, ("program", .object [_, ("lines", .array lines)])] => lines.mapM decodeLine
  | _ => none

/-! ## Operators -/

/-- Among the operators with as many operands, symbol and precedence determine the kind. -/
theorem kindOf?_operator {table : List (String × Operator)}
    (htable : table = Operator.unaryTable ∨ table = Operator.binaryTable) {k : String}
    (hk : k ∈ table.map Prod.fst) : ∃ op, operator k = .ok op ∧ kindOf? table op = some k := by
  have hall : ∀ table ∈ [Operator.unaryTable, Operator.binaryTable],
      (table.map Prod.fst).all fun k => match operator k with
        | .ok op => kindOf? table op == some k
        | .error _ => false := by
    decide +kernel
  have hmem : table ∈ [Operator.unaryTable, Operator.binaryTable] := by simpa using htable
  have hfound := List.all_eq_true.mp (hall table hmem) k hk
  cases hop : operator k with
  | error f => rw [hop] at hfound; cases hfound
  | ok op =>
    rw [hop] at hfound
    exact ⟨op, rfl, beq_iff_eq.mp hfound⟩

theorem ne_leaf_kind {k : String} (hk : k ∈ unaryKinds ++ binaryKinds) :
    (k == "variable") = false ∧ (k == "number") = false := by
  have hall : (unaryKinds ++ binaryKinds).all fun k =>
      !(k == "variable") && !(k == "number") := by decide +kernel
  simpa using List.all_eq_true.mp hall k hk

/-! ## Reading back -/

theorem decodeExpression_expression {e : Tree} (he : IsExpression e) :
    ∃ d, expression e = .ok d ∧ decodeExpression d = some e.spelled := by
  induction he with
  | identifier x => exact ⟨_, rfl, by simp [identifier, scalar, decodeExpression]⟩
  | number v => exact ⟨_, rfl, by simp [number, decodeExpression]; rfl⟩
  | @unary k x hk hx ih =>
    obtain ⟨d, hd, hdecode⟩ := ih
    obtain ⟨op, hop, hkind⟩ := kindOf?_operator (.inl rfl) hk
    obtain ⟨hvariable, hnumber⟩ := ne_leaf_kind (List.mem_append_left _ hk)
    refine ⟨.object [("type", .string "expression::unary_op"), ("operator", op),
      ("operand", d), ("metadata", metadata)], ?_, ?_⟩
    · simp [Tree.node, expression, hvariable, hnumber, hd, hop, bind, Except.bind, pure,
        Except.pure]
    · simp [decodeExpression, hkind, hdecode]
  | @binary k x y hk hx hy ihx ihy =>
    obtain ⟨d, hd, hdecode⟩ := ihx
    obtain ⟨d', hd', hdecode'⟩ := ihy
    obtain ⟨op, hop, hkind⟩ := kindOf?_operator (.inr rfl) hk
    obtain ⟨hvariable, hnumber⟩ := ne_leaf_kind (List.mem_append_right _ hk)
    refine ⟨.object [("type", .string "expression::binary_op"), ("operator", op),
      ("left", d), ("right", d'), ("metadata", metadata)], ?_, ?_⟩
    · simp [Tree.node, expression, hvariable, hnumber, hd, hd', hop, bind, Except.bind, pure,
        Except.pure]
    · simp [decodeExpression, hkind, hdecode, hdecode']

/-- What holds of the document of each item holds of the documents of a list. -/
theorem decode_mapM {encode : Tree → Except Fault Document} {read : Document → Option Tree}
    {ts : List Tree}
    (h : ∀ t ∈ ts, ∃ d, encode t = .ok d ∧ read d = some t.spelled) :
    ∃ ds, ts.mapM encode = .ok ds ∧ ds.mapM read = some (ts.map Tree.spelled) := by
  induction ts with
  | nil => exact ⟨[], rfl, rfl⟩
  | cons t ts ih =>
    obtain ⟨d, hd, hread⟩ := h t List.mem_cons_self
    obtain ⟨ds, hds, hreads⟩ := ih fun t ht => h t (List.mem_cons_of_mem _ ht)
    refine ⟨d :: ds, ?_, ?_⟩
    · rw [List.mapM_cons, hd, hds]
      rfl
    · rw [List.mapM_cons, hread, hreads]
      rfl

theorem decodeAssignment_assignment {a : Tree} (ha : IsAssignment a) :
    ∃ d, assignment a = .ok d ∧ decodeAssignment d = some a.spelled := by
  obtain ⟨x, he⟩ := ha
  obtain ⟨d, hd, hdecode⟩ := decodeExpression_expression he
  refine ⟨.object [("type", .string "statement::assignment"), ("identifier", .string x),
    ("operator", .string "="), ("value", d)], ?_, ?_⟩
  · simp [assignment, Tree.isAssignment, Tree.node, Tree.kind, Tree.children, Tree.variableNamed,
      Tree.text, Tree.value, scalar, hd, bind, Except.bind, pure, Except.pure]
  · simp [decodeAssignment, hdecode]

theorem decodeLine_line {l : Tree} (hl : IsLine l) :
    ∃ d, line l = .ok d ∧ decodeLine d = some l.spelled := by
  obtain ⟨has⟩ := hl
  obtain ⟨ds, hds, hreads⟩ := decode_mapM fun a ha => decodeAssignment_assignment (has a ha)
  refine ⟨.object [("type", .string "line"), ("code", .array ds)], ?_, ?_⟩
  · simp [line, Tree.node, Tree.kind, Tree.children, hds, bind, Except.bind, pure, Except.pure]
  · simp [decodeLine, hreads]

/-- Every program has a document, and its lines can be read back from it: the same assignments of
the same expressions, with the numbers as they are written out. -/
theorem decode_document {program : Tree} (h : IsProgram program) :
    ∃ d, document program = .ok d ∧ decode d = some (program.children.map Tree.spelled) := by
  obtain ⟨ds, hds, hreads⟩ := decode_mapM fun l hl => decodeLine_line (h.lines l hl)
  refine ⟨.object [("version", .string version),
    ("program", .object [("type", .string "program"), ("lines", .array ds)])], ?_, ?_⟩
  · simp [document, h.kind_eq, hds, bind, Except.bind, pure, Except.pure]
  · simp [decode, hreads]

/-- A program with a negation, a subtraction, a number and a text as literals, and an empty line. -/
def negationProgram (literal : Scalar) : Tree :=
  .node "program"
    [.node "line"
      [.node "assignment" [.variableNamed "x", .node "neg" [.variableNamed "y"]],
        .node "assignment"
          [.variableNamed "z", .node "sub" [.variableNamed "x", .leaf "number" (some literal)]]],
      .node "line" [],
      .node "line"
        [.node "assignment"
          [.variableNamed "w", .node "or" [.text "number" "0", .node "neg" [.variableNamed "z"]]]]]

theorem isProgram_negationProgram (literal : Scalar) : IsProgram (negationProgram literal) := by
  have hneg : "neg" ∈ unaryKinds := by decide
  have hsub : "sub" ∈ binaryKinds := by decide
  have hor : "or" ∈ binaryKinds := by decide
  refine ⟨rfl, fun l hl => ?_⟩
  simp only [negationProgram, Tree.node, Tree.children, List.mem_cons, List.not_mem_nil,
    or_false] at hl
  obtain rfl | rfl | rfl := hl
  · refine .line fun a ha => ?_
    simp only [List.mem_cons, List.not_mem_nil, or_false] at ha
    obtain rfl | rfl := ha
    · exact .assign "x" (.unary hneg (.identifier "y"))
    · exact .assign "z" (.binary hsub (.identifier "x") (.number _))
  · refine .line fun a ha => ?_
    cases ha
  · refine .line fun a ha => ?_
    obtain rfl := List.mem_singleton.mp ha
    exact .assign "w" (.binary hor (.number _) (.unary hneg (.identifier "z")))

theorem decode_negationProgram : IsProgram (negationProgram (.numeral (.int 25))) ∧
    ∃ d, document (negationProgram (.numeral (.int 25))) = .ok d ∧
      decode d = some (negationProgram (.text "25")).children :=
  ⟨isProgram_negationProgram _, decode_document (isProgram_negationProgram _)⟩

end Cylon

end Scalarize
