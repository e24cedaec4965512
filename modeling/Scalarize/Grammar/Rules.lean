import Scalarize.Grammar.Terminal

/-!
# Scalarize — the grammar of the source language

The grammar is data: a list of productions. A production either makes a node of the parse tree or
hands the trees of its parts on to the production that uses it. Repetitions are rules of their own,
which hand on; so a list of three names gives a node with three children.

The grammar is ambiguous, and every derivation counts.
-/

namespace Scalarize.Grammar

/-- The rules. The plural ones are repetitions. -/
inductive Rule where
  | program | lines | line
  | importGroup | importItems | importItem | exportItem | letItem | defineItem
  | usingItem | library | comment
  | variableRef | external | macroRef
  | paramGroup | params | param | type | call | args | exprs | expr
  | number | unaryOp | unaryOps | binaryOp | nexpr | nbin | ntail | nbase | nexprs
  | vector | vecOp | vexpr | vbin | vtail | vbase | vexprs | vexprRun
  | matrix | matOp | mexpr | mbin | mtail | mbase | mexprRun
deriving DecidableEq, Repr, Hashable

/-- A part of a production. -/
inductive Part where
  | terminal (t : Terminal)
  | rule (r : Rule)
deriving DecidableEq, Repr

/-- What a production leaves in the parse tree. -/
inductive Label where
  /-- A node of this kind, with the trees of the parts as its children. -/
  | node (kind : String)
  /-- The trees of the parts as they are. -/
  | splice
deriving DecidableEq, Repr

/-- One way to write a rule. -/
structure Production where
  head : Rule
  label : Label
  body : List Part
deriving DecidableEq, Repr

/-- A keyword or a sign as a part. -/
def word (text : String) : Part :=
  .terminal (.word text)

/-- Productions that make a node of one keyword each. -/
def wordNodes (head : Rule) (words : List (String × String)) : List Production :=
  words.map fun (text, kind) => ⟨head, .node kind, [word text]⟩

/-- A list of at least one item, parted by commas. -/
def commaList (head item : Rule) : List Production :=
  [⟨head, .splice, [.rule item]⟩, ⟨head, .splice, [.rule head, word ",", .rule item]⟩]

/-- At least one item, one after the other. -/
def run (head item : Rule) : List Production :=
  [⟨head, .splice, [.rule item]⟩, ⟨head, .splice, [.rule head, .rule item]⟩]

/-- Operators with an operand after each. -/
def chainTail (head op operand : Rule) : List Production :=
  [⟨head, .splice, [.rule op, .rule operand]⟩,
    ⟨head, .splice, [.rule head, .rule op, .rule operand]⟩]

/-- An operand, or a chain of operators that starts with a chain. -/
def chain (head tail operand : Rule) (kind : String) : List Production :=
  [⟨head, .splice, [.rule operand]⟩, ⟨head, .node kind, [.rule head, .rule tail]⟩]

/-- Programs and their statements. -/
def statementRules : List Production :=
  [⟨.program, .node "program", []⟩, ⟨.program, .node "program", [.rule .lines]⟩] ++
  run .lines .line ++
  [⟨.line, .node "line", [.rule .importGroup]⟩,
    ⟨.line, .node "line", [.rule .exportItem]⟩,
    ⟨.line, .node "line", [.rule .letItem]⟩,
    ⟨.line, .node "line", [.rule .defineItem]⟩,
    ⟨.line, .node "line", [.rule .usingItem]⟩,
    ⟨.line, .node "line", [.rule .comment]⟩,
    ⟨.importGroup, .node "import_group", [word "import", .rule .importItems]⟩] ++
  commaList .importItems .importItem ++
  [⟨.importItem, .node "import", [.rule .external]⟩,
    ⟨.importItem, .node "import", [.rule .external, word "as", .rule .external]⟩,
    ⟨.exportItem, .node "export", [word "export", .rule .variableRef]⟩,
    ⟨.exportItem, .node "export",
      [word "export", .rule .variableRef, word "as", .rule .external]⟩,
    ⟨.letItem, .node "let_num",
      [word "let", word "number", .rule .variableRef, word "=", .rule .nexpr]⟩,
    ⟨.letItem, .node "let_vec",
      [word "let", word "vector", .rule .variableRef, word "=", .rule .vexpr]⟩,
    ⟨.letItem, .node "let_mat",
      [word "let", word "matrix", .rule .variableRef, word "=", .rule .mexpr]⟩,
    ⟨.defineItem, .node "def_num",
      [word "define", .rule .macroRef, .rule .paramGroup, word "->", word "number", word "=",
        .rule .nexpr]⟩,
    ⟨.defineItem, .node "def_vec",
      [word "define", .rule .macroRef, .rule .paramGroup, word "->", word "vector", word "=",
        .rule .vexpr]⟩,
    ⟨.defineItem, .node "def_mat",
      [word "define", .rule .macroRef, .rule .paramGroup, word "->", word "matrix", word "=",
        .rule .mexpr]⟩,
    ⟨.usingItem, .node "using", [word "using", .rule .library]⟩,
    ⟨.library, .node "library", [.terminal .libraryName]⟩,
    ⟨.comment, .node "comment", [.terminal .comment]⟩]

/-- Names, parameters and macro calls. -/
def nameRules : List Production :=
  [⟨.variableRef, .node "variable", [.terminal .variableName]⟩,
    ⟨.external, .node "external", [.terminal .externalName]⟩,
    ⟨.macroRef, .node "macro", [.terminal .macroName]⟩,
    ⟨.paramGroup, .node "param_group", [word "(", .rule .params, word ")"]⟩] ++
  commaList .params .param ++
  [⟨.param, .node "param", [.rule .type, .rule .variableRef]⟩] ++
  wordNodes .type [("number", "type_num"), ("vector", "type_vec"), ("matrix", "type_mat")] ++
  [⟨.call, .node "call", [.rule .macroRef, word "!", .rule .args]⟩,
    ⟨.args, .node "args", [word "(", .rule .exprs, word ")"]⟩] ++
  commaList .exprs .expr ++
  [⟨.expr, .splice, [.rule .nexpr]⟩,
    ⟨.expr, .splice, [.rule .vexpr]⟩,
    ⟨.expr, .splice, [.rule .mexpr]⟩]

/-- Number expressions. -/
def numberRules : List Production :=
  [⟨.number, .node "number", [.terminal .literal]⟩] ++
  wordNodes .unaryOp
    [("neg", "neg"), ("not", "not"), ("abs", "abs"), ("sqrt", "sqrt"), ("sin", "sin"),
      ("cos", "cos"), ("tan", "tan"), ("arcsin", "arcsin"), ("arccos", "arccos"),
      ("arctan", "arctan")] ++
  run .unaryOps .unaryOp ++
  wordNodes .binaryOp
    [("+", "add"), ("-", "sub"), ("*", "mul"), ("/", "div"), ("%", "mod"), ("^", "exp"),
      ("<", "lt"), ("<=", "le"), (">", "gt"), (">=", "ge"), ("==", "eq"), ("!=", "ne"),
      ("and", "and"), ("or", "or")] ++
  [⟨.nexpr, .splice, [.rule .nbin]⟩] ++
  chain .nbin .ntail .nbase "num_binary" ++
  chainTail .ntail .binaryOp .nbase ++
  [⟨.nbase, .node "num_unary", [.rule .unaryOps, .rule .nexpr]⟩,
    ⟨.nbase, .node "reduce", [word "reduce", .rule .binaryOp, .rule .vexpr]⟩,
    ⟨.nbase, .node "dot", [.rule .vexpr, word "dot", .rule .vexpr]⟩,
    ⟨.nbase, .node "len", [word "len", .rule .vexpr]⟩,
    ⟨.nbase, .node "rows", [word "rows", .rule .mexpr]⟩,
    ⟨.nbase, .node "cols", [word "cols", .rule .mexpr]⟩,
    ⟨.nbase, .node "vec_elem", [word "elem", .rule .vexpr, .rule .number]⟩,
    ⟨.nbase, .node "mat_elem", [word "elem", .rule .mexpr, .rule .number, .rule .number]⟩,
    ⟨.nbase, .splice, [word "(", .rule .nexpr, word ")"]⟩,
    ⟨.nbase, .splice, [word "$", .rule .external]⟩,
    ⟨.nbase, .splice, [.rule .variableRef]⟩,
    ⟨.nbase, .splice, [.rule .call]⟩,
    ⟨.nbase, .splice, [.rule .number]⟩] ++
  commaList .nexprs .nexpr

/-- Vector expressions. -/
def vectorRules : List Production :=
  [⟨.vector, .node "vector", [word "[", .rule .nexprs, word "]"]⟩] ++
  wordNodes .vecOp [("+", "vec_add"), ("-", "vec_sub")] ++
  [⟨.vexpr, .splice, [.rule .vbin]⟩] ++
  chain .vbin .vtail .vbase "vec_binary" ++
  chainTail .vtail .vecOp .vbase ++
  [⟨.vbase, .node "vec_map", [word "map", .rule .unaryOp, .rule .vexpr]⟩,
    ⟨.vbase, .node "vec_premap", [word "map", .rule .binaryOp, .rule .nexpr, .rule .vexpr]⟩,
    ⟨.vbase, .node "vec_postmap", [word "map", .rule .nexpr, .rule .binaryOp, .rule .vexpr]⟩,
    ⟨.vbase, .node "vec_apply", [word "apply", .rule .binaryOp, .rule .vexprRun]⟩,
    ⟨.vbase, .node "concat", [word "concat", .rule .vexprRun]⟩,
    ⟨.vbase, .node "reverse", [word "reverse", .rule .vexpr]⟩,
    ⟨.vbase, .node "mat_row", [word "row", .rule .mexpr, .rule .number]⟩,
    ⟨.vbase, .node "mat_col", [word "col", .rule .mexpr, .rule .number]⟩,
    ⟨.vbase, .splice, [word "(", .rule .vexpr, word ")"]⟩,
    ⟨.vbase, .splice, [.rule .variableRef]⟩,
    ⟨.vbase, .splice, [.rule .call]⟩,
    ⟨.vbase, .splice, [.rule .vector]⟩] ++
  commaList .vexprs .vexpr ++
  run .vexprRun .vexpr

/-- Matrix expressions. -/
def matrixRules : List Production :=
  [⟨.matrix, .node "matrix", [word "[", .rule .vexprs, word "]"]⟩] ++
  wordNodes .matOp [("+", "mat_add"), ("-", "mat_sub")] ++
  [⟨.mexpr, .splice, [.rule .mbin]⟩] ++
  chain .mbin .mtail .mbase "mat_binary" ++
  chainTail .mtail .matOp .mbase ++
  [⟨.mbase, .node "mat_map", [word "map", .rule .unaryOp, .rule .mexpr]⟩,
    ⟨.mbase, .node "mat_premap", [word "map", .rule .binaryOp, .rule .nexpr, .rule .mexpr]⟩,
    ⟨.mbase, .node "mat_postmap", [word "map", .rule .nexpr, .rule .binaryOp, .rule .mexpr]⟩,
    ⟨.mbase, .node "mat_apply", [word "apply", .rule .binaryOp, .rule .mexprRun]⟩,
    ⟨.mbase, .node "transpose", [word "transpose", .rule .mexpr]⟩,
    ⟨.mbase, .node "mat_mul", [.rule .mexpr, word "@", .rule .mexpr]⟩,
    ⟨.mbase, .splice, [word "(", .rule .mexpr, word ")"]⟩,
    ⟨.mbase, .splice, [.rule .variableRef]⟩,
    ⟨.mbase, .splice, [.rule .call]⟩,
    ⟨.mbase, .splice, [.rule .matrix]⟩] ++
  run .mexprRun .mexpr

/-- All productions. -/
def productions : List Production :=
  statementRules ++ nameRules ++ numberRules ++ vectorRules ++ matrixRules

end Scalarize.Grammar
