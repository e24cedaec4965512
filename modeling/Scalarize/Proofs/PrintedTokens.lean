import Scalarize.Output.Layout
import Scalarize.Proofs.Trees

/-!
# Scalarize — the tokens of a printed expression

The printer writes an expression as a row of tokens and then takes out spaces.

* **`tidy_squeeze`** — `tidy` takes out every space that stands next to a bracket, next to another
  space or at an end of the text. `squeeze` takes out no others.
* **`IsFormula`** — the expressions over names and whole numbers in which every operator has its
  operands.
* **`HasOperands.expression_eq`** — an expression in which every operator has its operands is
  printed, whatever its leaves are, and its text is that of its `tokens`.
* **`IsFormula.alternates_tokens`** — operands and operators alternate in the tokens of a formula.
-/

namespace Scalarize.Layout

/-! ## Spaces that separate nothing -/

/-- What stands before a place of a text: nothing that a space could keep apart from what follows
(`shut`), a character of a word or a symbol (`solid`), or such a character and spaces (`due`). -/
inductive Gap where
  | shut
  | solid
  | due
deriving DecidableEq

def Gap.afterSpace : Gap → Gap
  | shut => shut
  | solid => due
  | due => due

/-- The space that a gap owes to a word or a symbol. -/
def Gap.text : Gap → List Char
  | due => [' ']
  | _ => []

def isBracket (c : Char) : Bool :=
  c == '(' || c == ')'

def advance (g : Gap) (c : Char) : Gap :=
  if c = ' ' then g.afterSpace else if isBracket c then .shut else .solid

/-- What a character adds to the tidy text. -/
def emit (g : Gap) (c : Char) : List Char :=
  if c = ' ' then [] else if isBracket c then [c] else g.text ++ [c]

/-- A text without the spaces that separate nothing. -/
def tidy (g : Gap) : List Char → List Char
  | [] => []
  | c :: cs => emit g c ++ tidy (advance g c) cs

theorem tidy_append (g : Gap) (xs ys : List Char) :
    tidy g (xs ++ ys) = tidy g xs ++ tidy (xs.foldl advance g) ys := by
  induction xs generalizing g with
  | nil => rfl
  | cons x xs ih => simp [tidy, ih]

theorem tidy_space (g : Gap) (cs : List Char) : tidy g (' ' :: cs) = tidy g.afterSpace cs := by
  simp [tidy, emit, advance]

theorem tidy_bracket {c : Char} (h : isBracket c) (g : Gap) (cs : List Char) :
    tidy g (c :: cs) = c :: tidy .shut cs := by
  have hc : c ≠ ' ' := by rintro rfl; simp [isBracket] at h
  simp [tidy, emit, advance, hc, h]

theorem tidy_spaces {cs : List Char} (h : ∀ c ∈ cs, c = ' ') (g : Gap) : tidy g cs = [] := by
  induction cs generalizing g with
  | nil => rfl
  | cons c cs ih =>
    rw [h c List.mem_cons_self, tidy_space]
    exact ih (fun d hd => h d (List.mem_cons_of_mem c hd)) _

theorem replaceAll_pair (a b c x y : Char) (ys : List Char) :
    Text.replaceAll [a, b] [c] (x :: y :: ys)
      = if x = a ∧ y = b then c :: Text.replaceAll [a, b] [c] ys
        else x :: Text.replaceAll [a, b] [c] (y :: ys) := by
  have hmatch : [a, b].isPrefixOf (x :: y :: ys) = true ↔ x = a ∧ y = b := by
    simp [List.isPrefixOf, eq_comm (a := a), eq_comm (a := b)]
  simp only [Text.replaceAll]
  rw [Text.replaceFrom]
  by_cases h : x = a ∧ y = b
  · rw [if_pos (hmatch.mpr h), if_pos h]
    simp [Text.replaceFrom]
  · rw [if_neg (fun hm => h (hmatch.mp hm)), if_neg h]

theorem replaceAll_single (a b c x : Char) : Text.replaceAll [a, b] [c] [x] = [x] := by
  simp [Text.replaceAll, Text.replaceFrom, List.isPrefixOf]

/-- What replacing a pair of characters changes nowhere on the spot, replacing all of them does not
change. The text before the place that has been reached stays as it is. -/
theorem replaceAll_keeps {α : Type*} {f : List Char → α} {a b c : Char}
    (h : ∀ xs ys, f (xs ++ a :: b :: ys) = f (xs ++ c :: ys)) :
    ∀ xs ys, f (xs ++ Text.replaceAll [a, b] [c] ys) = f (xs ++ ys)
  | _, [] => rfl
  | _, [_] => by rw [replaceAll_single]
  | xs, y :: z :: ys => by
    rw [replaceAll_pair]
    split
    · next hyz =>
      obtain ⟨rfl, rfl⟩ := hyz
      rw [h, List.append_cons, replaceAll_keeps h (xs ++ [c]) ys, ← List.append_cons]
    · rw [List.append_cons, replaceAll_keeps h (xs ++ [y]) (z :: ys), ← List.append_cons]

/-- What a blank at either end does not change, trimming does not change. -/
theorem trim_keeps {α : Type*} {f : List Char → α} {cs : List Char}
    (h : ∀ c ∈ cs, Text.isBlank c → (∀ xs, f (c :: xs) = f xs) ∧ ∀ xs, f (xs ++ [c]) = f xs) :
    f (Text.trim cs) = f cs := by
  have hfront : f (cs.dropWhile Text.isBlank) = f cs := by
    induction cs with
    | nil => rfl
    | cons c cs ih =>
      rw [List.dropWhile_cons]
      split
      · next hc =>
        rw [ih fun d hd => h d (List.mem_cons_of_mem c hd), (h c List.mem_cons_self hc).1]
      · rfl
  have hback : ∀ ds : List Char, (∀ c ∈ ds, c ∈ cs) → f (ds.rdropWhile Text.isBlank) = f ds := by
    intro ds hds
    induction ds using List.reverseRecOn with
    | nil => rfl
    | append_singleton ds d ih =>
      rw [List.rdropWhile_concat]
      split
      · next hd =>
        rw [ih fun c hc => hds c (List.mem_append_left _ hc), (h d (hds d (by simp)) hd).2]
      · rfl
  rw [← hfront]
  exact hback _ fun c hc => (List.dropWhile_sublist Text.isBlank).subset hc

/-- Replacing a pair of characters keeps the tidy text if it does so on the spot. -/
theorem tidy_replaceAll {a b c : Char} (h : ∀ g cs, tidy g (a :: b :: cs) = tidy g (c :: cs))
    (g : Gap) (cs : List Char) : tidy g (Text.replaceAll [a, b] [c] cs) = tidy g cs := by
  refine replaceAll_keeps (f := tidy g) (fun xs ys => ?_) [] cs
  rw [tidy_append, h, ← tidy_append]

theorem tidy_trim {cs : List Char} (h : ∀ c ∈ cs, Text.isBlank c → c = ' ') :
    tidy .shut (Text.trim cs) = tidy .shut cs := by
  refine trim_keeps fun c hc hblank => ?_
  obtain rfl := h c hc hblank
  refine ⟨fun xs => tidy_space .shut xs, fun xs => ?_⟩
  have hspace : ∀ c ∈ [' '], c = ' ' := fun c hc => List.mem_singleton.mp hc
  rw [tidy_append, tidy_spaces hspace, List.append_nil]

/-- The printer takes out only spaces that separate nothing. -/
theorem tidy_squeeze {cs : List Char} (h : ∀ c ∈ cs, Text.isBlank c → c = ' ') :
    tidy .shut (squeeze cs) = tidy .shut cs := by
  have hbefore : ∀ b, isBracket b → ∀ g cs, tidy g (' ' :: b :: cs) = tidy g (b :: cs) := by
    intro b hb g cs
    rw [tidy_space, tidy_bracket hb, tidy_bracket hb]
  have hafter : ∀ b, isBracket b → ∀ g cs, tidy g (b :: ' ' :: cs) = tidy g (b :: cs) := by
    intro b hb g cs
    rw [tidy_bracket hb, tidy_bracket hb, tidy_space]
    rfl
  have htwice : ∀ g cs, tidy g (' ' :: ' ' :: cs) = tidy g (' ' :: cs) := by
    intro g cs
    rw [tidy_space, tidy_space, tidy_space]
    cases g <;> rfl
  rw [squeeze, tidy_replaceAll htwice, tidy_replaceAll (hafter ')' rfl),
    tidy_replaceAll (hbefore ')' rfl), tidy_replaceAll (hafter '(' rfl),
    tidy_replaceAll (hbefore '(' rfl), tidy_trim h]

/-! ## Formulas and their tokens -/

/-- The characters of the operators that are not words. -/
def symbolChars : List Char :=
  ['^', '*', '/', '%', '+', '-', '<', '>', '=', '!']

/-- The characters of names and literals: all but blanks, brackets and those of the symbols. -/
def isWordChar (c : Char) : Bool :=
  !Text.isBlank c && !isBracket c && !symbolChars.contains c

/-- A name does not begin with a digit. It may be the word of an operator. -/
structure IsName (s : String) : Prop where
  chars : ∀ c ∈ s.toList, isWordChar c
  start : ∃ c ∈ s.toList.head?, c.isDigit = false

structure IsDigits (s : String) : Prop where
  chars : ∀ c ∈ s.toList, c.isDigit
  start : s.toList ≠ []

def unaryKinds : List String :=
  Operator.unaryTable.map Prod.fst

def binaryKinds : List String :=
  Operator.binaryTable.map Prod.fst

/-- The expressions over names and whole numbers in which every operator has its operands. -/
inductive IsFormula : Tree → Prop where
  | name {v : Option Scalar} (h : IsName (Tree.valueText v)) : IsFormula (.leaf "variable" v)
  | literal {v : Option Scalar} (h : IsDigits (Tree.valueText v)) : IsFormula (.leaf "number" v)
  | unary {k : String} {v : Option Scalar} {x : Tree} (hk : k ∈ unaryKinds) (hx : IsFormula x) :
      IsFormula (.branch k v [x])
  | binary {k : String} {v : Option Scalar} {x y : Tree} (hk : k ∈ binaryKinds)
      (hx : IsFormula x) (hy : IsFormula y) : IsFormula (.branch k v [x, y])

/-- The expressions in which every operator has its operands, whatever the leaves are. -/
inductive HasOperands : Tree → Prop where
  | leaf (k : String) (v : Option Scalar) : HasOperands (.leaf k v)
  | unary {k : String} {v : Option Scalar} {x : Tree} (hk : k ∈ unaryKinds) (hx : HasOperands x) :
      HasOperands (.branch k v [x])
  | binary {k : String} {v : Option Scalar} {x y : Tree} (hk : k ∈ binaryKinds)
      (hx : HasOperands x) (hy : HasOperands y) : HasOperands (.branch k v [x, y])

theorem IsFormula.hasOperands {t : Tree} (ht : IsFormula t) : HasOperands t := by
  induction ht with
  | name => exact .leaf _ _
  | literal => exact .leaf _ _
  | unary hk _ ihx => exact .unary hk ihx
  | binary hk _ _ ihx ihy => exact .binary hk ihx ihy

def operator (k : String) : Operator :=
  (Operator.ofKind? k).getD ⟨"", 0⟩

def precedence (k : String) : Nat :=
  (operator k).precedence

inductive Token where
  | word (s : String)
  | unary (k : String)
  | binary (k : String)
  | opening
  | closing
deriving DecidableEq

/-- A token as the printer writes it, before spaces are taken out. -/
def Token.text : Token → List Char
  | word s => s.toList
  | unary k => (operatorText (operator k)).toList
  | binary k => (operatorText (operator k)).toList
  | opening => ['(']
  | closing => [')']

def bracketed (b : Bool) (ts : List Token) : List Token :=
  if b then .opening :: (ts ++ [.closing]) else ts

/-- The tokens of an expression, under an operator of the given precedence. -/
def tokens (outer : Nat) : Tree → List Token
  | .leaf _ v => [.word (Tree.valueText v)]
  | .branch k _ [x] =>
    bracketed (precedence k < outer) (.unary k :: tokens (precedence k) x)
  | .branch k _ [x, y] =>
    bracketed (precedence k < outer)
      (tokens (precedence k) x ++ .binary k :: tokens (precedence k) y)
  | _ => []

theorem operatorOf_eq {k : String} (hk : k ∈ unaryKinds ++ binaryKinds) :
    operatorOf k = .ok (operator k) := by
  have hall : ∀ k ∈ unaryKinds ++ binaryKinds, (Operator.ofKind? k).isSome := by decide
  obtain ⟨op, hop⟩ := Option.isSome_iff_exists.mp (hall k hk)
  rw [operatorOf, operator, hop]
  rfl

theorem toList_bracketIf (b : Bool) (s : String) {ts : List Token}
    (hs : s.toList = ts.flatMap Token.text) :
    (bracketIf b s).toList = (bracketed b ts).flatMap Token.text := by
  cases b
  · simpa [bracketIf, bracketed] using hs
  · simp [bracketIf, bracketed, Token.text, hs]

/-- An expression in which every operator has its operands is printed, and its text is that of its
tokens. -/
theorem HasOperands.expression_eq {t : Tree} (ht : HasOperands t) (outer : Nat) :
    ∃ s, expression outer t = .ok s ∧ s.toList = (tokens outer t).flatMap Token.text := by
  induction ht generalizing outer with
  | leaf k v =>
    refine ⟨_, rfl, ?_⟩
    simp [tokens, Token.text]
  | @unary k v x hk _ ihx =>
    obtain ⟨s, hs, hts⟩ := ihx (precedence k)
    refine ⟨bracketIf (precedence k < outer) (operatorText (operator k) ++ s), ?_, ?_⟩
    · rw [expression, operatorOf_eq (List.mem_append_left _ hk)]
      change (expression (precedence k) x).bind _ = _
      rw [hs]
      rfl
    · rw [tokens]
      refine toList_bracketIf _ _ ?_
      simp [hts, Token.text]
  | @binary k v x y hk _ _ ihx ihy =>
    obtain ⟨s, hs, hts⟩ := ihx (precedence k)
    obtain ⟨r, hr, htr⟩ := ihy (precedence k)
    refine ⟨bracketIf (precedence k < outer) (s ++ operatorText (operator k) ++ r), ?_, ?_⟩
    · rw [expression, operatorOf_eq (List.mem_append_right _ hk)]
      change (expression (precedence k) x).bind
        (fun s => (expression (precedence k) y).bind _) = _
      rw [hs, hr]
      rfl
    · rw [tokens]
      refine toList_bracketIf _ _ ?_
      simp [hts, htr, Token.text]

/-- A formula is printed, and its text is that of its tokens. -/
theorem expression_eq_tokens {t : Tree} (ht : IsFormula t) (outer : Nat) :
    ∃ s, expression outer t = .ok s ∧ s.toList = (tokens outer t).flatMap Token.text :=
  ht.hasOperands.expression_eq outer

/-! ## Rows of tokens -/

structure IsWord (s : String) : Prop where
  chars : ∀ c ∈ s.toList, isWordChar c
  start : s.toList ≠ []

/-- Rows in which operands and operators alternate. The flag says whether an operand is expected.
That the brackets match is not asked for. -/
inductive Alternates : Bool → List Token → Prop where
  | done : Alternates false []
  | word {s : String} {ts : List Token} (hs : IsWord s) (hts : Alternates false ts) :
      Alternates true (.word s :: ts)
  | unary {k : String} {ts : List Token} (hk : k ∈ unaryKinds) (hts : Alternates true ts) :
      Alternates true (.unary k :: ts)
  | opening {ts : List Token} (hts : Alternates true ts) : Alternates true (.opening :: ts)
  | binary {k : String} {ts : List Token} (hk : k ∈ binaryKinds) (hts : Alternates true ts) :
      Alternates false (.binary k :: ts)
  | closing {ts : List Token} (hts : Alternates false ts) : Alternates false (.closing :: ts)

theorem isWordChar_of_isDigit {c : Char} (h : c.isDigit) : isWordChar c := by
  have hrange : 48 ≤ c.toNat ∧ c.toNat ≤ 57 := by
    simpa [Char.isDigit, UInt32.le_iff_toNat_le] using h
  have hne : ∀ d : Char, ¬ (48 ≤ d.toNat ∧ d.toNat ≤ 57) → c ≠ d := by
    rintro d hd rfl
    exact hd hrange
  have hblank : Text.isBlank c = false := by
    simp only [Text.isBlank, Bool.or_eq_false_iff, Bool.and_eq_false_iff, decide_eq_false_iff_not,
      beq_eq_false_iff_ne]
    omega
  have hbracket : isBracket c = false := by
    simp [isBracket, hne '(' (by decide), hne ')' (by decide)]
  have hsymbol : symbolChars.contains c = false := by
    simp [symbolChars, hne '^' (by decide), hne '*' (by decide), hne '/' (by decide),
      hne '%' (by decide), hne '+' (by decide), hne '-' (by decide), hne '<' (by decide),
      hne '>' (by decide), hne '=' (by decide), hne '!' (by decide)]
  rw [isWordChar, hblank, hbracket, hsymbol]
  rfl

theorem IsName.isWord {s : String} (h : IsName s) : IsWord s := by
  obtain ⟨c, hc, -⟩ := h.start
  refine ⟨h.chars, ?_⟩
  intro hnil
  rw [hnil] at hc
  cases hc

theorem IsDigits.isWord {s : String} (h : IsDigits s) : IsWord s :=
  ⟨fun c hc => isWordChar_of_isDigit (h.chars c hc), h.start⟩

theorem Alternates.bracketed {ts us : List Token} (hts : ∀ us, Alternates false us →
    Alternates true (ts ++ us)) (hus : Alternates false us) (b : Bool) :
    Alternates true (Layout.bracketed b ts ++ us) := by
  cases b
  · exact hts us hus
  · have h := hts (.closing :: us) (.closing hus)
    simpa [Layout.bracketed] using Alternates.opening h

theorem IsFormula.alternates_tokens {t : Tree} (ht : IsFormula t) (outer : Nat) {us : List Token}
    (hus : Alternates false us) : Alternates true (tokens outer t ++ us) := by
  induction ht generalizing outer us with
  | name h =>
    rw [tokens]
    exact .word h.isWord hus
  | literal h =>
    rw [tokens]
    exact .word h.isWord hus
  | @unary k v x hk hx ihx =>
    rw [tokens]
    refine Alternates.bracketed ?_ hus _
    intro us hus
    exact .unary hk (ihx _ hus)
  | @binary k v x y hk hx hy ihx ihy =>
    rw [tokens]
    refine Alternates.bracketed ?_ hus _
    intro us hus
    rw [List.append_assoc]
    exact ihx _ (.binary hk (ihy _ hus))

end Scalarize.Layout
