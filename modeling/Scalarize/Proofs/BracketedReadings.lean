import Scalarize.Proofs.OperandReadings

/-!
# Scalarize — expressions with enough brackets

Derivations of an expression may differ where an operator before an operand meets a chain, where the
operands of a form are chains or forms themselves, and where nothing shows the sort of an argument of
a macro call. Brackets leave none of this open.

* **`isSimple`** — pieces that are one chain or one form.
* **`Piece.isBracketed`** — the same inside all brackets.
* **`fitsAll`**, **`fitsAll_of_reads`** — the sorts that pieces can have.
* **`alike_of_simple`** — pieces that are simple have one tree, up to the grouping of chains.
* **`Piece.oneTree`** — a bracketed piece has one tree.
-/

namespace Scalarize.Grammar

/-! ## Simple expressions -/

/-- A chain of operands, the last of which may have operators before it. -/
def isChain (is : List Piece) : Bool :=
  is.all Piece.isOfChain && decide (SignsFirst is)

/-- A form with a leading word. Beyond its operators all is operands. -/
def isForm : List Piece → Bool
  | .word w :: rest => (Piece.word w).role == .lead && rest.all (·.role != .join) &&
      strangers rest == operatorCount w
  | _ => false

/-- A form between two operands. -/
def isJoin : List Piece → Bool
  | [a, .word w, b] => a.role == .operand && (Piece.word w).role == .join && b.role == .operand
  | _ => false

/-- The pieces are one chain or one form. -/
def isSimple (is : List Piece) : Bool :=
  isChain is || isForm is || isJoin is

theorem isChain_iff {is : List Piece} :
    isChain is = true ↔ (∀ i ∈ is, i.isOfChain = true) ∧ SignsFirst is := by
  rw [isChain, Bool.and_eq_true, List.all_eq_true, decide_eq_true_eq]

theorem of_isForm {is : List Piece} (h : isForm is = true) :
    ∃ w rest, is = .word w :: rest ∧ (Piece.word w).role = .lead ∧
      (∀ i ∈ rest, i.role ≠ .join) ∧ strangers rest = operatorCount w := by
  unfold isForm at h
  split at h
  · next w rest =>
    simp only [Bool.and_eq_true, beq_iff_eq, List.all_eq_true, bne_iff_ne] at h
    exact ⟨w, rest, rfl, h.1.1, h.1.2, h.2⟩
  · cases h

theorem of_isJoin {is : List Piece} (h : isJoin is = true) :
    ∃ a w b, is = [a, .word w, b] ∧ a.role = .operand ∧ (Piece.word w).role = .join ∧
      b.role = .operand := by
  unfold isJoin at h
  split at h
  · next a w b =>
    simp only [Bool.and_eq_true, beq_iff_eq] at h
    exact ⟨a, w, b, rfl, h.1.1, h.1.2, h.2⟩
  · cases h

/-- A piece that has the same tree in all sorts. -/
def Piece.isNeutral : Piece → Bool
  | .word w => isVariableText w
  | .call _ _ => true
  | .round [i] => i.isNeutral
  | _ => false

/-- One piece that has the same tree in all sorts. -/
def isNeutral : List Piece → Bool
  | [i] => i.isNeutral
  | _ => false

/-! ## The sorts of an expression -/

/-- The words that occur in expressions of the sort. -/
def sortWords (s : ValueSort) : List String :=
  (ruleWords (signRule s)).map Prod.fst ++ (if s = .number then unaryWords else []) ++
    (productionsOf (baseRule s)).flatMap fun p => p.body.filterMap fun
      | .terminal (.word w) => some w
      | _ => none

/-- The piece does not stand against the sort. -/
def Piece.marks (s : ValueSort) : Piece → Bool
  | .word w => (sortWords s).contains w
  | _ => true

/-- The sort of the elements of a list. -/
def elementSort : ValueSort → ValueSort
  | .matrix => .vector
  | _ => .number

mutual

/-- Can the piece be an operand of the sort? -/
def Piece.fits : Piece → ValueSort → Bool
  | .word w, s => isVariableText w || (isNumberText w && s == .number)
  | .external _, s => s == .number
  | .call _ _, _ => true
  | .round inner, s => fitsAll inner s
  | .square inner, s => s != .number && fitsAll inner (elementSort s)

/-- Can the pieces be expressions of the sort, with commas between them? This looks at the pieces up
to the first form. -/
def fitsAll : List Piece → ValueSort → Bool
  | [], _ => true
  | i :: is, s =>
    match i.role with
    | .operand =>
      if is.head?.any (·.role == .join) then is.head?.all (·.marks s) else i.fits s && fitsAll is s
    | .sign => i.marks s && fitsAll is s
    | .unary => i.marks s
    | .lead => i.marks s
    | .join => fitsAll is s
    | .other => fitsAll is s

end

/-- The pieces show their sort, or it does not matter. -/
def isSettled (is : List Piece) : Bool :=
  isNeutral is || [ValueSort.number, .vector, .matrix].all fun s =>
    [ValueSort.number, .vector, .matrix].all fun s' =>
      !(fitsAll is s && fitsAll is s') || s == s'

mutual

/-- What stands in the brackets of the piece is simple, and arguments of macro calls show their
sort. -/
def Piece.isBracketed : Piece → Bool
  | .word _ => true
  | .external _ => true
  | .call _ args => (segments args).all (fun seg => isSimple seg && isSettled seg) && allBracketed args
  | .round inner => isSimple inner && allBracketed inner
  | .square inner => (segments inner).all isSimple && allBracketed inner

/-- `Piece.isBracketed` for all pieces of a list. -/
def allBracketed : List Piece → Bool
  | [] => true
  | i :: is => i.isBracketed && allBracketed is

end

theorem allBracketed_iff {is : List Piece} :
    allBracketed is = true ↔ ∀ i ∈ is, i.isBracketed = true := by
  induction is with
  | nil => simp [allBracketed]
  | cons i is ih => rw [allBracketed, Bool.and_eq_true, ih, List.forall_mem_cons]

/-! ## Pieces of expressions -/

/-- The rules of expressions, outside of brackets. -/
def Rule.isExpression : Rule → Bool
  | .variableRef | .call | .expr | .number | .unaryOp | .unaryOps | .binaryOp | .nexpr | .nbin | .ntail
  | .nbase | .vector | .vecOp | .vexpr | .vbin | .vtail | .vbase | .vexprRun | .matrix | .matOp | .mexpr
  | .mbin | .mtail | .mbase | .mexprRun => true
  | _ => false

/-- The part can be one of an expression. -/
def Part.isExpression : Part → Bool
  | .rule r => r.isExpression
  | .terminal (.word w) => (Piece.word w).role != .other
  | .terminal t => t == .variableName || t == .literal

theorem expression_productions : ∀ p ∈ productions, p.head.isExpression = true →
    p.body.all Part.isLoose = true ∨ p.body.all (fun part => !part.isPlain) = true →
    p.body.all Part.isExpression = true := by
  decide +kernel

/-- Each piece of an expression has a role in it. -/
theorem Reads.role_ne_other {r : Rule} {is : List Piece} {ts : List Tree} (h : Reads r is ts)
    (hr : r.isExpression = true) : ∀ i ∈ is, i.role ≠ .other := by
  revert hr
  refine @Reads.rec (fun r is _ _ => r.isExpression = true → ∀ i ∈ is, i.role ≠ .other)
    (fun parts is _ _ => parts.all Part.isExpression = true → ∀ i ∈ is, i.role ≠ .other)
    ?text ?parts ?external ?call ?round ?square ?nil ?word ?rule _ _ _ h
  case text =>
    intro r k t w hp hkept hw hr
    refine List.forall_mem_singleton.mpr ?_
    have hparts := expression_productions _ hp hr
    cases t with
    | word => cases hkept
    | literal => simp [Piece.role, show isNumberText w = true from hw]
    | variableName => simp [Piece.role, show isVariableText w = true from hw]
    | _ => cases hparts (.inr rfl)
  case parts =>
    intro r label body is ts hp hloose _ ih hr
    exact ih (expression_productions _ hp hr (.inl hloose))
  case external => exact fun _ _ _ => List.forall_mem_singleton.mpr fun h => by cases h
  case call => exact fun _ _ _ _ => List.forall_mem_singleton.mpr fun h => by cases h
  case round => exact fun _ _ _ _ => List.forall_mem_singleton.mpr fun h => by cases h
  case square => exact fun _ _ _ _ => List.forall_mem_singleton.mpr fun h => by cases h
  case nil => exact fun _ _ hi => absurd hi List.not_mem_nil
  case word =>
    intro w parts is ts _ ih hparts
    rw [List.all_cons, Bool.and_eq_true] at hparts
    refine List.forall_mem_cons.mpr ⟨?_, ih hparts.2⟩
    simpa [Part.isExpression, word] using hparts.1
  case rule =>
    intro r is ts parts is' ts' _ _ ih ihparts hparts
    rw [List.all_cons, Bool.and_eq_true] at hparts
    exact List.forall_mem_append.mpr ⟨ih hparts.1, ihparts hparts.2⟩

theorem exprRule_isExpression (s : ValueSort) : (exprRule s).isExpression = true := by
  cases s <;> rfl

theorem role_of_isComma {i : Piece} (h : i.isComma = true) : i.role = .other := by
  cases i with
  | word w =>
    obtain rfl : w = "," := beq_iff_eq.mp h
    decide +kernel
  | _ => cases h

theorem Reads.no_comma {r : Rule} {is : List Piece} {ts : List Tree} (h : Reads r is ts)
    (hr : r.isExpression = true) : ∀ i ∈ is, i.isComma = false := by
  intro i hi
  rw [← Bool.not_eq_true]
  exact fun hcomma => h.role_ne_other hr i hi (role_of_isComma hcomma)

/-- An argument of a macro call is an expression of some sort. -/
theorem Reads.of_arg {is : List Piece} {ts : List Tree} (h : Reads .expr is ts) :
    ∃ s, Reads (exprRule s) is ts := by
  obtain ⟨p, hp, hmakes⟩ := h.exists_makes
  have hr : productionsOf .expr = [ValueSort.number, .vector, .matrix].map fun s =>
      ⟨.expr, .splice, [.rule (exprRule s)]⟩ := rfl
  rw [hr] at hp
  obtain ⟨s, -, rfl⟩ := List.mem_map.mp hp
  exact ⟨s, makes_splice hmakes⟩

/-! ## Names and numbers -/

theorem not_isDigit_of_isVariableChar {c : Char} (h : isVariableChar c = true) :
    Text.isDigit c = false := by
  have hrange : 65 ≤ c.toNat ∧ c.toNat < 0x80 := by
    rw [isVariableChar, Bool.or_eq_true, beq_iff_eq] at h
    rcases h with h | rfl
    · simp only [Char.isUpper, decide_eq_true_eq, ge_iff_le] at h
      have hle : c.val.toNat ≤ 90 := h.2
      exact ⟨h.1, Nat.lt_of_le_of_lt hle (by decide)⟩
    · decide
  have hdigit : c.isDigit = false := by
    rw [Char.isDigit, Bool.and_eq_false_iff, decide_eq_false_iff_not, decide_eq_false_iff_not]
    exact .inr fun hle => absurd (Nat.le_trans hrange.1 hle) (by decide)
  rw [Text.isDigit, Text.digitValue?, if_pos hrange.2, hdigit]
  rfl

/-- No text is both a name and a number. -/
theorem not_isNumberText {w : String} (h : isVariableText w = true) : isNumberText w = false := by
  rw [isVariableText, Bool.and_eq_true, List.all_eq_true] at h
  rw [isNumberText]
  cases hchars : w.toList.dropWhile (· == '-') with
  | nil => rfl
  | cons c cs =>
    have hmem : c ∈ w.toList := (List.dropWhile_sublist _).mem (hchars ▸ List.mem_cons_self)
    exact not_isDigit_of_isVariableChar (h.2 c hmem)

/-- Induction over pieces and what stands in their brackets. -/
theorem Piece.induction {P : Piece → Prop} (word : ∀ w, P (.word w)) (external : ∀ x, P (.external x))
    (call : ∀ m args, (∀ i ∈ args, P i) → P (.call m args))
    (round : ∀ inner, (∀ i ∈ inner, P i) → P (.round inner))
    (square : ∀ inner, (∀ i ∈ inner, P i) → P (.square inner)) (a : Piece) : P a :=
  @Piece.rec P (fun is => ∀ i ∈ is, P i) word external call round square
    (fun _ hi => absurd hi List.not_mem_nil)
    (fun _ _ hi his => List.forall_mem_cons.mpr ⟨hi, his⟩) a

/-! ## Sorts of simple expressions -/

/-- The piece fits all sorts that it has as an operand. -/
def Piece.Fitting (a : Piece) : Prop :=
  ∀ s t, BaseReads s [a] t → a.fits s = true

theorem marks_of_sign {s : ValueSort} {w : String × String} (h : w ∈ ruleWords (signRule s)) :
    (Piece.word w.1).marks s = true := by
  rw [Piece.marks, sortWords, List.contains_iff_mem, List.mem_append, List.mem_append]
  exact .inl (.inl (List.mem_map_of_mem h))

theorem marks_of_unary {w : String × String} (h : w ∈ ruleWords .unaryOp) :
    (Piece.word w.1).marks .number = true := by
  rw [Piece.marks, sortWords, List.contains_iff_mem, List.mem_append, List.mem_append]
  exact .inl (.inr (List.mem_map_of_mem h))

theorem marks_of_mem {s : ValueSort} {w : String} {p : Production}
    (hp : p ∈ productionsOf (baseRule s)) (hw : word w ∈ p.body) :
    (Piece.word w).marks s = true := by
  rw [Piece.marks, sortWords, List.contains_iff_mem, List.mem_append]
  exact .inr (List.mem_flatMap.mpr ⟨p, hp, List.mem_filterMap.mpr ⟨_, hw, rfl⟩⟩)

theorem fitsAll_operand {s : ValueSort} {a : Piece} {is : List Piece} (ha : a.role = .operand)
    (his : is.head?.any (·.role == .join) = false) :
    fitsAll (a :: is) s = (a.fits s && fitsAll is s) := by
  simp only [fitsAll, ha, his, Bool.false_eq_true, if_false]

theorem fitsAll_sign {s : ValueSort} {i : Piece} {is : List Piece} (hi : i.role = .sign) :
    fitsAll (i :: is) s = (i.marks s && fitsAll is s) := by
  simp only [fitsAll, hi]

/-- An operand with operators before it fits its sort, whatever comes after it. -/
theorem SegmentReads.fitsAll {s : ValueSort} {is rest : List Piece} {t : Tree}
    (h : SegmentReads s is t) (hpieces : ∀ a ∈ is, a.Fitting)
    (hnext : rest.head?.any (·.role == .join) = false) (hrest : fitsAll rest s = true) :
    Grammar.fitsAll (is ++ rest) s = true := by
  obtain ⟨ws, a, t₀, hws, rfl, ha, -, hnumber⟩ := h.of_unary
  cases ws with
  | nil =>
    rw [List.map_nil, List.nil_append, List.singleton_append, fitsAll_operand ha.atom.role_eq hnext,
      hpieces a (by simp) _ _ ha, hrest]
    rfl
  | cons w ws =>
    obtain ⟨rfl, -⟩ := hnumber (List.cons_ne_nil _ _)
    have hw := hws w List.mem_cons_self
    rw [List.map_cons, List.cons_append, List.cons_append, Grammar.fitsAll]
    simp only [role_of_unary hw]
    exact marks_of_unary hw

/-- The signs and operands of a chain fit its sort. -/
theorem fitsAll_links {s : ValueSort} {links : List Link} {rest : List Piece}
    (hlinks : ∀ l ∈ links, l.IsSegment s)
    (hpieces : ∀ a ∈ Link.piecesOf links, a.Fitting)
    (hnext : rest.head?.any (·.role == .join) = false) (hrest : fitsAll rest s = true) :
    fitsAll (Link.piecesOf links ++ rest) s = true ∧
      (Link.piecesOf links ++ rest).head?.any (·.role == .join) = false := by
  induction links with
  | nil => exact ⟨hrest, hnext⟩
  | cons l links ih =>
    obtain ⟨⟨hword, hsegment⟩, hlinks⟩ := List.forall_mem_cons.mp hlinks
    have hsign := role_of_sign hword
    rw [Link.piecesOf_cons, List.forall_mem_cons, List.forall_mem_append] at hpieces
    obtain ⟨hfits, hhead⟩ := ih hlinks hpieces.2.2
    rw [Link.piecesOf_cons, List.cons_append, List.append_assoc, fitsAll_sign hsign,
      marks_of_sign hword, hsegment.fitsAll hpieces.2.1 hhead hfits]
    exact ⟨rfl, by simp [hsign]⟩

/-- A simple expression fits its sort, whatever comes after it. -/
theorem fitsAll_of_reads {s : ValueSort} {is : List Piece} {t : Tree} (his : isSimple is = true)
    (hpieces : ∀ a ∈ is, a.Fitting)
    (h : Reads (exprRule s) is [t]) (rest : List Piece)
    (hnext : rest.head?.any (·.role == .join) = false) (hrest : fitsAll rest s = true) :
    fitsAll (is ++ rest) s = true := by
  simp only [isSimple, Bool.or_eq_true] at his
  rcases his with (his | his) | his
  · obtain ⟨hroles, hsigns⟩ := isChain_iff.mp his
    obtain ⟨first, t₀, links, rfl, hfirst, hlinks, -⟩ := h.of_chain hroles hsigns
    rw [List.forall_mem_append] at hpieces
    obtain ⟨hfits, hhead⟩ := fitsAll_links hlinks hpieces.2 hnext hrest
    rw [List.append_assoc]
    exact hfirst.fitsAll hpieces.1 hhead hfits
  · -- the word that the form starts with shows the sort
    obtain ⟨w, is, rfl, hw, hjoin, hcount⟩ := of_isForm his
    obtain ⟨k, parts, ts, hp, -⟩ := h.of_lead hw hjoin hcount
    rw [List.cons_append, fitsAll]
    simp only [hw]
    exact marks_of_mem hp List.mem_cons_self
  · -- the word between the operands shows the sort
    obtain ⟨a, w, b, rfl, ha, hw, hb⟩ := of_isJoin his
    obtain ⟨k, s', t₁, t₂, hp, -⟩ := h.of_join ha hw hb
    rw [List.cons_append, List.cons_append, fitsAll]
    simp only [ha, List.head?_cons, Option.any_some, hw, beq_self_eq_true, if_true, Option.all_some]
    exact marks_of_mem hp (by simp)

theorem fitsAll_alone {s : ValueSort} {is : List Piece} {t : Tree} (his : isSimple is = true)
    (hpieces : ∀ a ∈ is, a.Fitting) (h : Reads (exprRule s) is [t]) : fitsAll is s = true := by
  have hfits := fitsAll_of_reads his hpieces h [] rfl rfl
  rwa [List.append_nil] at hfits

theorem elements_productions {s : ValueSort} (hs : s ≠ .number) :
    productionsOf (elementsRule s) = commaList (elementsRule s) (exprRule (elementSort s)) := by
  cases s with
  | number => exact absurd rfl hs
  | vector => rfl
  | matrix => rfl

/-- Simple expressions with commas between them fit their sort. -/
theorem fitsAll_joinCommas {s : ValueSort} {segs : List (List Piece)} {ts : List Tree}
    (hsimple : ∀ seg ∈ segs, isSimple seg = true)
    (hpieces : ∀ a ∈ joinCommas segs, a.Fitting)
    (h : List.Forall₂ (fun seg t => Reads (exprRule s) seg [t]) segs ts) :
    fitsAll (joinCommas segs) s = true := by
  induction h with
  | nil => rfl
  | @cons seg t segs ts hseg hsegs ih =>
    have hseg' := hsimple seg List.mem_cons_self
    cases segs with
    | nil => exact fitsAll_alone hseg' hpieces hseg
    | cons second segs =>
      have hcomma : (Piece.word ",").role = .other := by decide +kernel
      have hsplit : joinCommas (seg :: second :: segs) =
          seg ++ .word "," :: joinCommas (second :: segs) := rfl
      rw [hsplit] at hpieces ⊢
      rw [List.forall_mem_append, List.forall_mem_cons] at hpieces
      refine fitsAll_of_reads hseg' hpieces.1 hseg _ (by simp [hcomma]) ?_
      rw [fitsAll]
      simp only [hcomma]
      exact ih (fun seg hseg => hsimple seg (List.mem_cons_of_mem _ hseg)) hpieces.2.2

/-- A bracketed operand fits its sort. -/
theorem Piece.fitting (a : Piece) (ha : a.isBracketed = true) : a.Fitting := by
  induction a using Piece.induction with
  | word w =>
    intro s t h
    cases h.atom with
    | name hv => simp [Piece.fits, hv]
    | literal hs hw => simp [Piece.fits, hs, hw]
  | external x =>
    intro s t h
    cases h.atom with
    | external hs => simp [Piece.fits, hs]
  | call m args _ => exact fun _ _ _ => rfl
  | round inner ih =>
    intro s t h
    rw [Piece.isBracketed, Bool.and_eq_true, allBracketed_iff] at ha
    cases h.atom with
    | round hinner =>
      exact fitsAll_alone ha.1 (fun a hmem => ih a hmem (ha.2 a hmem)) hinner
  | square inner ih =>
    intro s t h
    rw [Piece.isBracketed, Bool.and_eq_true, allBracketed_iff, List.all_eq_true] at ha
    cases h.atom with
    | list hs helements =>
      obtain ⟨segs, hne, rfl, hsegs⟩ :=
        helements.of_commas (elements_productions hs) (exprRule_isRepetition _)
      rw [segments_of_reads (fun h => h.no_comma (exprRule_isExpression _)) hne hsegs] at ha
      rw [Piece.fits, fitsAll_joinCommas ha.1 (fun a hmem => ih a hmem (ha.2 a hmem)) hsegs,
        Bool.and_true]
      exact bne_iff_ne.mpr hs

/-! ## One tree -/

/-- The trees of the piece as an operand are alike. They may be of two sorts if the piece is
neutral. -/
def Piece.OneTree (a : Piece) : Prop :=
  ∀ ⦃s s' t t'⦄, s = s' ∨ a.isNeutral = true → BaseReads s [a] t → BaseReads s' [a] t' → Alike t t'

/-- A keyword has one kind, which is not that of macro calls. -/
theorem sign_kinds (s : ValueSort) : ∀ w ∈ ruleWords (signRule s), w.2 ≠ "call" ∧
    ∀ w' ∈ ruleWords (signRule s), w.1 = w'.1 → w.2 = w'.2 := by
  cases s <;> decide +kernel

theorem unary_kinds : ∀ w ∈ ruleWords .unaryOp, w.2 ≠ "call" ∧
    ∀ w' ∈ ruleWords .unaryOp, w.1 = w'.1 → w.2 = w'.2 := by
  decide +kernel

theorem operator_kinds {r : Rule} (hr : r = .unaryOp ∨ r = .binaryOp) : ∀ w ∈ ruleWords r,
    w.2 ≠ "call" ∧ ∀ w' ∈ ruleWords r, w.1 = w'.1 → w.2 = w'.2 := by
  rcases hr with rfl | rfl
  · exact unary_kinds
  · exact sign_kinds .number

theorem eq_of_unaryWords {ws ws' : List (String × String)} (hws : ∀ w ∈ ws, w ∈ ruleWords .unaryOp)
    (hws' : ∀ w ∈ ws', w ∈ ruleWords .unaryOp)
    (h : ws.map (fun w => Piece.word w.1) = ws'.map fun w => .word w.1) : ws = ws' := by
  induction ws generalizing ws' with
  | nil => exact (List.map_eq_nil_iff.mp h.symm).symm
  | cons w ws ih =>
    cases ws' with
    | nil => cases h
    | cons w' ws' =>
      rw [List.forall_mem_cons] at hws hws'
      rw [List.map_cons, List.map_cons, List.cons.injEq, Piece.word.injEq] at h
      have hkind := (unary_kinds w hws.1).2 w' hws'.1 h.1
      rw [ih hws.2 hws'.2 h.2, Prod.ext h.1 hkind]

/-- Two derivations of an operand with operators before it. -/
theorem SegmentReads.alike {s : ValueSort} {is : List Piece} {t t' : Tree} (h : SegmentReads s is t)
    (h' : SegmentReads s is t') (hone : ∀ a ∈ is, a.OneTree) : Alike t t' := by
  obtain ⟨ws, a, t₀, hws, rfl, ha, halone, hflattens⟩ := h.of_unary
  obtain ⟨ws', a', t₀', hws', hpieces, ha', halone', hflattens'⟩ := h'.of_unary
  obtain ⟨hwords, hlast⟩ := List.append_inj' hpieces rfl
  obtain rfl := List.singleton_inj.mp hlast
  obtain rfl := eq_of_unaryWords hws hws' hwords
  obtain ⟨u, hu, hu'⟩ := hone a (by simp) (.inl rfl) ha ha'
  by_cases hnil : ws = []
  · rw [halone hnil, halone' hnil]
    exact ⟨u, hu, hu'⟩
  · exact ⟨_, (hflattens hnil).2 hu, (hflattens' hnil).2 hu'⟩

/-- The first operand of a chain ends at the first sign. -/
theorem SegmentReads.takeWhile_eq {s : ValueSort} {first : List Piece} {t : Tree} {links : List Link}
    (h : SegmentReads s first t) (hlinks : ∀ l ∈ links, l.IsSegment s) :
    (first ++ Link.piecesOf links).takeWhile (·.role != .sign) = first := by
  have hfirst : ∀ i ∈ first, (i.role != .sign) = true := by
    intro i hi
    rcases h.roles i hi with hrole | hrole <;> rw [hrole] <;> rfl
  have hrest : (Link.piecesOf links).takeWhile (·.role != .sign) = [] := by
    cases links with
    | nil => rfl
    | cons l links =>
      have hsign := role_of_sign (hlinks l List.mem_cons_self).1
      rw [Link.piecesOf_cons, List.takeWhile_cons_of_neg (by simp [hsign])]
  rw [List.takeWhile_append_of_pos hfirst, hrest, List.append_nil]

theorem split_at_sign {s : ValueSort} {first first' : List Piece} {t t' : Tree}
    {links links' : List Link} (h : SegmentReads s first t) (h' : SegmentReads s first' t')
    (hlinks : ∀ l ∈ links, l.IsSegment s) (hlinks' : ∀ l ∈ links', l.IsSegment s)
    (hpieces : first ++ Link.piecesOf links = first' ++ Link.piecesOf links') :
    first = first' ∧ Link.piecesOf links = Link.piecesOf links' := by
  have hfirst : first = first' := by
    rw [← h.takeWhile_eq hlinks, hpieces, h'.takeWhile_eq hlinks']
  rw [hfirst] at hpieces
  exact ⟨hfirst, List.append_cancel_left hpieces⟩

/-- Links with the same pieces have the same trees. -/
theorem alike_links {s : ValueSort} {links links' : List Link}
    (hlinks : ∀ l ∈ links, l.IsSegment s) (hlinks' : ∀ l ∈ links', l.IsSegment s)
    (hpieces : Link.piecesOf links = Link.piecesOf links')
    (hone : ∀ a ∈ Link.piecesOf links, a.OneTree) :
    List.Forall₂ Alike (Link.treesOf links) (Link.treesOf links') := by
  induction links generalizing links' with
  | nil =>
    cases links' with
    | nil => exact .nil
    | cons l' links' => cases hpieces
  | cons l links ih =>
    cases links' with
    | nil => cases hpieces
    | cons l' links' =>
      obtain ⟨⟨hword, hsegment⟩, hlinks⟩ := List.forall_mem_cons.mp hlinks
      obtain ⟨⟨hword', hsegment'⟩, hlinks'⟩ := List.forall_mem_cons.mp hlinks'
      rw [Link.piecesOf_cons, Link.piecesOf_cons, List.cons.injEq] at hpieces
      rw [Link.piecesOf_cons, List.forall_mem_cons, List.forall_mem_append] at hone
      obtain ⟨hoperand, hrest⟩ := split_at_sign hsegment hsegment' hlinks hlinks' hpieces.2
      obtain ⟨hcall, hkinds⟩ := sign_kinds s _ hword
      have hkind : l.kind = l'.kind := hkinds _ hword' (Piece.word.inj hpieces.1)
      have hsign : Alike (.node l.kind []) (.node l'.kind []) := hkind ▸ .node hcall .nil
      have htree : Alike l.tree l'.tree := hsegment.alike (hoperand ▸ hsegment') hone.2.1
      exact .cons hsign (.cons htree (ih hlinks hlinks' hrest hone.2.2))

theorem base_kinds {s : ValueSort} {k : String} {body : List Part}
    (hp : ⟨baseRule s, .node k, body⟩ ∈ productionsOf (baseRule s)) : k ≠ "call" := by
  have hlabel : ∀ p ∈ productionsOf (baseRule s), p.label ≠ .node "call" := by
    cases s <;> decide +kernel
  rintro rfl
  exact hlabel _ hp rfl

/-- Pieces that fill the parts of a form fill them in one way. -/
theorem alike_of_aligned {parts : List Part} {is : List Piece} {ts ts' : List Tree}
    (hone : ∀ a ∈ is, a.OneTree) (h : Aligned parts is ts) (h' : Aligned parts is ts') :
    List.Forall₂ Alike ts ts' := by
  -- the rule of a part says how it is filled; so both derivations fill it in the same way
  induction h generalizing ts' with
  | nil =>
    cases h' with
    | nil => exact .nil
  | @sign r w parts is ts hr hw h ih =>
    rw [List.forall_mem_cons] at hone
    generalize hfirst : Piece.word w.1 = first at h'
    cases h' with
    | @sign _ w' _ _ _ _ hw' h' =>
      obtain ⟨hcall, hkinds⟩ := operator_kinds hr w hw
      have hkind : w.2 = w'.2 := hkinds w' hw' (Piece.word.inj hfirst)
      have hnode : Alike (.node w.2 []) (.node w'.2 []) := hkind ▸ .node hcall .nil
      exact .cons hnode (ih hone.2 h')
    | @operand s' => rcases hr with hr | hr <;> cases s' <;> cases hr
    | index => rcases hr with hr | hr <;> cases hr
    | @run s' => rcases hr with hr | hr <;> cases s' <;> cases hr
  | @operand s a t parts is ts ha hbase h ih =>
    rw [List.forall_mem_cons] at hone
    generalize hrule : exprRule s = r at h'
    cases h' with
    | sign hr => rcases hr with rfl | rfl <;> cases s <;> cases hrule
    | @operand s' _ t' _ _ _ _ hbase' h' =>
      exact .cons (hone.1 (.inl (exprRule_injective hrule)) hbase hbase') (ih hone.2 h')
    | index => cases s <;> cases hrule
    | @run s' => cases s <;> cases s' <;> cases hrule
  | @index w parts is ts hw h ih =>
    rw [List.forall_mem_cons] at hone
    generalize hrule : Rule.number = r at h'
    cases h' with
    | sign hr => rcases hr with rfl | rfl <;> cases hrule
    | @operand s' => cases s' <;> cases hrule
    | index _ h' => exact .cons (.text (by decide) w) (ih hone.2 h')
    | @run s' => cases s' <;> cases hrule
  | @run s is ts hs h =>
    generalize hrule : runRule s = r at h'
    cases h' with
    | sign hr => rcases hr with rfl | rfl <;> cases s <;> cases hrule
    | @operand s' => cases s <;> cases s' <;> cases hrule
    | index => cases s <;> cases hrule
    | @run s' _ _ _ h' =>
      obtain rfl := runRule_injective hrule
      exact forall₂_of_same (fun a ha _ _ => hone a ha (.inl rfl)) h h'

section

variable {s : ValueSort} {is : List Piece} {t t' : Tree} (hone : ∀ a ∈ is, a.OneTree)
  (h : Reads (exprRule s) is [t]) (h' : Reads (exprRule s) is [t'])

include hone h h'

theorem alike_of_isChain (his : isChain is = true) : Alike t t' := by
  obtain ⟨hroles, hsigns⟩ := isChain_iff.mp his
  obtain ⟨first, t₀, links, rfl, hfirst, hlinks, hgrouped⟩ := h.of_chain hroles hsigns
  obtain ⟨first', t₀', links', hpieces, hfirst', hlinks', hgrouped'⟩ := h'.of_chain hroles hsigns
  obtain ⟨rfl, hrest⟩ := split_at_sign hfirst hfirst' hlinks hlinks' hpieces
  rw [List.forall_mem_append] at hone
  obtain ⟨u, hu, hu'⟩ := hfirst.alike hfirst' hone.1
  have htrees := alike_links hlinks hlinks' hrest hone.2
  obtain ⟨us, hus, hus'⟩ := Alike.exists_flat htrees
  by_cases hnil : links = []
  · subst hnil
    have hnil' : links' = [] := by
      cases links' with
      | nil => rfl
      | cons l' links' => cases hrest
    rw [hgrouped.alone rfl, hgrouped'.alone hnil']
    exact ⟨u, hu, hu'⟩
  · have hnil' : links' ≠ [] := by
      rintro rfl
      cases links with
      | nil => exact hnil rfl
      | cons l links => cases hrest
    exact ⟨_, hgrouped.flattens hnil hu hus, hgrouped'.flattens hnil' hu' hus'⟩

theorem alike_of_isJoin (his : isJoin is = true) : Alike t t' := by
  obtain ⟨a, w, b, rfl, ha, hw, hb⟩ := of_isJoin his
  obtain ⟨k, s₁, t₁, t₂, hp, h₁, h₂, rfl⟩ := h.of_join ha hw hb
  obtain ⟨k', s₁', t₁', t₂', hp', h₁', h₂', rfl⟩ := h'.of_join ha hw hb
  obtain ⟨rfl, rfl⟩ := join_productions hp hp'
  have hleft := hone a (by simp) (.inl rfl) h₁ h₁'
  have hright := hone b (by simp) (.inl rfl) h₂ h₂'
  exact .node (base_kinds hp) (.cons hleft (.cons hright .nil))

theorem alike_of_isForm (his : isForm is = true) : Alike t t' := by
  obtain ⟨w, rest, rfl, hw, hjoin, hcount⟩ := of_isForm his
  obtain ⟨k, parts, ts, hp, haligned, rfl⟩ := h.of_lead hw hjoin hcount
  obtain ⟨k', parts', ts', hp', haligned', rfl⟩ := h'.of_lead hw hjoin hcount
  obtain ⟨rfl, rfl⟩ := haligned.eq_form hp hp' haligned'
  rw [List.forall_mem_cons] at hone
  exact .node (base_kinds hp) (alike_of_aligned hone.2 haligned haligned')

end

/-- The trees of a simple expression are alike. They may be of two sorts if the expression is
neutral. -/
theorem alike_of_simple {s s' : ValueSort} {is : List Piece} {t t' : Tree}
    (hone : ∀ a ∈ is, a.OneTree) (his : isSimple is = true) (hs : s = s' ∨ isNeutral is = true)
    (h : Reads (exprRule s) is [t]) (h' : Reads (exprRule s') is [t']) : Alike t t' := by
  rcases hs with rfl | hneutral
  · simp only [isSimple, Bool.or_eq_true] at his
    rcases his with (his | his) | his
    · exact alike_of_isChain hone h h' his
    · exact alike_of_isForm hone h h' his
    · exact alike_of_isJoin hone h h' his
  · unfold isNeutral at hneutral
    split at hneutral
    · next a =>
      have hrole : ∀ i ∈ [a], i.role = .operand := by
        refine List.forall_mem_singleton.mpr ?_
        cases a with
        | word w => simp [Piece.role, show isVariableText w = true from hneutral]
        | _ => rfl
      obtain ⟨_, heq, hbase⟩ := h.of_operands hrole
      obtain ⟨_, heq', hbase'⟩ := h'.of_operands hrole
      rw [← heq] at hbase
      rw [← heq'] at hbase'
      exact hone a List.mem_cons_self (.inr hneutral) hbase hbase'
    · cases hneutral

theorem eq_or_isNeutral {s s' : ValueSort} {is : List Piece} (h : isSettled is = true)
    (hfits : fitsAll is s = true) (hfits' : fitsAll is s' = true) :
    s = s' ∨ isNeutral is = true := by
  rw [isSettled, Bool.or_eq_true] at h
  rcases h with h | h
  · exact .inr h
  · have hsorts : ∀ s : ValueSort, s ∈ [ValueSort.number, .vector, .matrix] := by
      intro s
      cases s <;> decide
    have hsame := List.all_eq_true.mp (List.all_eq_true.mp h s (hsorts s)) s' (hsorts s')
    rw [hfits, hfits'] at hsame
    exact .inl (beq_iff_eq.mp hsame)

/-- The piece in round brackets is as neutral as what stands in them. -/
theorem isNeutral_round (inner : List Piece) : (Piece.round inner).isNeutral = isNeutral inner := by
  rcases inner with _ | ⟨i, _ | ⟨j, is⟩⟩ <;> rfl

/-- A bracketed piece has one tree. -/
theorem Piece.oneTree (a : Piece) (ha : a.isBracketed = true) : a.OneTree := by
  induction a using Piece.induction with
  | word w =>
    intro s s' t t' _ h h'
    cases h.atom with
    | name hv =>
      cases h'.atom with
      | name => exact .text (by decide) w
      | literal _ hw => exact absurd hw (by rw [not_isNumberText hv]; decide)
    | literal _ hw =>
      cases h'.atom with
      | name hv => exact absurd hw (by rw [not_isNumberText hv]; decide)
      | literal => exact .text (by decide) w
  | external x =>
    intro s s' t t' _ h h'
    cases h.atom with
    | external =>
      cases h'.atom with
      | external => exact .text (by decide) x
  | call m args ih =>
    intro s s' t t' _ h h'
    rw [Piece.isBracketed, Bool.and_eq_true, allBracketed_iff] at ha
    cases h.atom with
    | call hargs =>
      cases h'.atom with
      | call hargs' =>
        refine .call (forall₂_of_commas rfl rfl (fun h => h.no_comma rfl)
          (fun seg hseg hmem t t' harg harg' => ?_) hargs hargs')
        have hseg := List.all_eq_true.mp ha.1 seg hseg
        rw [Bool.and_eq_true] at hseg
        have hbracketed : ∀ a ∈ seg, a.isBracketed = true := fun a ha' => ha.2 a (hmem a ha')
        -- an argument may be of any sort, but its pieces show which one
        obtain ⟨s₁, hreads⟩ := harg.of_arg
        obtain ⟨s₂, hreads'⟩ := harg'.of_arg
        have hfits : ∀ {s t}, Reads (exprRule s) seg [t] → fitsAll seg s = true := fun hreads =>
          fitsAll_alone hseg.1 (fun a ha' => a.fitting (hbracketed a ha')) hreads
        exact alike_of_simple (fun a ha' => ih a (hmem a ha') (hbracketed a ha')) hseg.1
          (eq_or_isNeutral hseg.2 (hfits hreads) (hfits hreads')) hreads hreads'
  | round inner ih =>
    intro s s' t t' hs h h'
    rw [Piece.isBracketed, Bool.and_eq_true, allBracketed_iff] at ha
    cases h.atom with
    | round hinner =>
      cases h'.atom with
      | round hinner' =>
        rw [isNeutral_round] at hs
        exact alike_of_simple (fun a hmem => ih a hmem (ha.2 a hmem)) ha.1 hs hinner hinner'
  | square inner ih =>
    intro s s' t t' hs h h'
    rw [Piece.isBracketed, Bool.and_eq_true, allBracketed_iff, List.all_eq_true] at ha
    cases h.atom with
    | list hlist helements =>
      cases h'.atom with
      | list _ helements' =>
        obtain rfl : s = s' := hs.resolve_right nofun
        refine .node (by cases s <;> decide) (forall₂_of_commas (elements_productions hlist)
          (exprRule_isRepetition _) (fun h => h.no_comma (exprRule_isExpression _))
          (fun seg hseg hmem t t' => ?_) helements helements')
        exact alike_of_simple (fun a ha' => ih a (hmem a ha') (ha.2 a (hmem a ha')))
          (ha.1 seg hseg) (.inl rfl)

end Scalarize.Grammar
