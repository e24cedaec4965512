import Scalarize.Proofs.AlikePrograms
import Scalarize.Proofs.BracketedReadings

/-!
# Scalarize — programs with enough brackets

A statement starts with a keyword or is a comment. Where no such word is taken for a name, the
statements of a program are told apart by it, and each of them has one tree up to the grouping of
chains if its expression is bracketed.

* **`namesApart`** — no word that starts a statement stands where a name is expected.
* **`linesOf`**, **`linesOf_flatten`** — the statements of a program are those of every derivation.
* **`alikeStatement_of_reads`** — one statement.
* **`alike_of_isBracketedProgram`** — all statements of a program.
-/

namespace Scalarize.Grammar

/-! ## Where statements start -/

/-- The keywords that statements start with. -/
def starters : List String :=
  ["import", "export", "let", "define", "using"]

/-- Can a statement start with the piece? -/
def Piece.isStarter : Piece → Bool
  | .word w => starters.contains w || "//".toList.isPrefixOf w.toList
  | _ => false

/-- Can a name of any kind come after the piece? -/
def Piece.leadsName : Piece → Bool
  | .word w => ["import", ",", "as", "define", "using"].contains w
  | _ => false

/-- No word that starts a statement stands where a name is expected. -/
def namesApart : List Piece → Bool
  | i :: j :: is => !(i.leadsName && j.isStarter) && namesApart (j :: is)
  | _ => true

theorem namesApart_cons {i j : Piece} {is : List Piece} (h : namesApart (i :: j :: is) = true) :
    (i.leadsName = true → j.isStarter = false) ∧ namesApart (j :: is) = true := by
  rw [namesApart, Bool.and_eq_true, Bool.not_eq_true', Bool.and_eq_false_iff] at h
  exact ⟨fun hi => h.1.resolve_left (by simp [hi]), h.2⟩

theorem namesApart_append {is js : List Piece} (h : namesApart (is ++ js) = true) :
    namesApart is = true ∧ namesApart js = true := by
  induction is with
  | nil => exact ⟨rfl, h⟩
  | cons i is ih =>
    cases is with
    | nil =>
      cases js with
      | nil => exact ⟨rfl, rfl⟩
      | cons j js => exact ⟨rfl, (namesApart_cons h).2⟩
    | cons i' is =>
      rw [List.cons_append, List.cons_append, namesApart, Bool.and_eq_true] at h
      obtain ⟨hrest, hjs⟩ := ih h.2
      exact ⟨by rw [namesApart, h.1, hrest]; rfl, hjs⟩

theorem role_of_comment {c : String} (h : "//".toList.isPrefixOf c.toList = true) :
    (Piece.word c).role = .other := by
  have hwords : ∀ w ∈ unaryWords ++ signWords ++ leadWords ++ joinWords,
      "//".toList.isPrefixOf w.toList = false := by decide +kernel
  have hmem : c ∉ unaryWords ++ signWords ++ leadWords ++ joinWords := by
    intro hc
    rw [hwords c hc] at h
    cases h
  obtain ⟨rest, hrest⟩ := List.isPrefixOf_iff_prefix.mp h
  have hvariable : isVariableText c = false := by rw [isVariableText, ← hrest]; rfl
  have hnumber : isNumberText c = false := by rw [isNumberText, ← hrest]; rfl
  simp only [List.mem_append, not_or] at hmem
  simp [Piece.role, hvariable, hnumber, hmem]

/-- What starts a statement has no role in an expression. -/
theorem role_of_isStarter {i : Piece} (h : i.isStarter = true) : i.role = .other := by
  have hstarters : ∀ w ∈ starters, (Piece.word w).role = .other := by decide +kernel
  cases i with
  | word w =>
    rw [Piece.isStarter, Bool.or_eq_true, List.contains_iff_mem] at h
    exact h.elim (hstarters w) role_of_comment
  | _ => cases h

theorem not_isStarter_of_role {i : Piece} (h : i.role ≠ .other) : i.isStarter = false := by
  rw [← Bool.not_eq_true]
  exact fun hstarter => h (role_of_isStarter hstarter)

/-! ## Names with commas between them -/

/-- An import has a name, or a name and another one for it. -/
theorem Reads.of_importItem {is : List Piece} {ts : List Tree} (h : Reads .importItem is ts) :
    (∃ x, isNameText x = true ∧ is = [.word x] ∧ ts = [.node "import" [.text "external" x]]) ∨
    ∃ x y, isNameText x = true ∧ isNameText y = true ∧ is = [.word x, .word "as", .word y] ∧
      ts = [.node "import" [.text "external" x, .text "external" y]] := by
  obtain ⟨p, hp, hmakes⟩ := h.exists_makes
  have hr : productionsOf .importItem =
      [⟨.importItem, .node "import", [.rule .external]⟩,
        ⟨.importItem, .node "import", [.rule .external, word "as", .rule .external]⟩] := rfl
  simp only [hr, List.mem_cons, List.not_mem_nil, or_false] at hp
  rcases hp with rfl | rfl <;> obtain ⟨us, hus, rfl⟩ := makes_loose rfl hmakes <;>
    simp only [readsParts_rule, readsParts_word, readsParts_nil] at hus
  · obtain ⟨_, _, _, _, rfl, rfl, hx, rfl, rfl⟩ := hus
    obtain ⟨x, hname, rfl, rfl⟩ := hx.of_external
    exact .inl ⟨x, hname, rfl, rfl⟩
  · obtain ⟨_, _, _, _, rfl, rfl, hx, _, rfl, _, _, _, _, rfl, rfl, hy, rfl, rfl⟩ := hus
    obtain ⟨x, hname, rfl, rfl⟩ := hx.of_external
    obtain ⟨y, hname', rfl, rfl⟩ := hy.of_external
    exact .inr ⟨x, y, hname, hname', rfl, rfl⟩

/-- A parameter has a type and a name. -/
theorem Reads.of_param {is : List Piece} {ts : List Tree} (h : Reads .param is ts) :
    ∃ w ∈ ruleWords .type, ∃ v, isVariableText v = true ∧ is = [.word w.1, .word v] ∧
      ts = [.node "param" [.node w.2 [], .text "variable" v]] := by
  obtain ⟨p, hp, hmakes⟩ := h.exists_makes
  have hr : productionsOf .param =
      [⟨.param, .node "param", [.rule .type, .rule .variableRef]⟩] := rfl
  rw [hr, List.mem_singleton] at hp
  subst hp
  obtain ⟨us, hus, rfl⟩ := makes_loose rfl hmakes
  simp only [readsParts_rule, readsParts_nil] at hus
  obtain ⟨_, _, _, _, rfl, rfl, htype, _, _, _, _, rfl, rfl, hv, rfl, rfl⟩ := hus
  have htypes : productionsOf .type = wordNodes .type (ruleWords .type) := rfl
  obtain ⟨w, hw, rfl, rfl⟩ := htype.of_words htypes rfl
  obtain ⟨v, htext, rfl, rfl⟩ := hv.of_variableRef
  exact ⟨w, hw, v, htext, rfl, rfl⟩

/-- Imports hold no word that starts a statement. -/
theorem not_isStarter_imports {segs : List (List Piece)} {ts : List Tree}
    (h : List.Forall₂ (fun seg t => Reads .importItem seg [t]) segs ts) {i : Piece}
    (hi : i.leadsName = true) (hnames : namesApart (i :: joinCommas segs) = true) :
    ∀ j ∈ joinCommas segs, j.isStarter = false := by
  have hitem : ∀ {i seg t rest}, Reads .importItem seg [t] → i.leadsName = true →
      namesApart (i :: (seg ++ rest)) = true → ∀ j ∈ seg, j.isStarter = false := by
    intro i seg t rest hseg hi hnames
    rcases hseg.of_importItem with ⟨x, -, rfl, -⟩ | ⟨x, y, -, -, rfl, -⟩
    · exact List.forall_mem_singleton.mpr ((namesApart_cons hnames).1 hi)
    · obtain ⟨hx, hnames⟩ := namesApart_cons hnames
      obtain ⟨-, hnames⟩ := namesApart_cons hnames
      obtain ⟨hy, -⟩ := namesApart_cons hnames
      simp [hx hi, hy (by decide), show (Piece.word "as").isStarter = false by decide]
  -- the piece before the imports is the keyword first and then a comma
  induction h generalizing i with
  | nil => exact fun j hj => absurd hj List.not_mem_nil
  | @cons seg t segs ts hseg hsegs ih =>
    cases segs with
    | nil => exact hitem hseg hi (by rw [List.append_nil]; exact hnames)
    | cons second segs =>
      have hsplit : joinCommas (seg :: second :: segs) =
          seg ++ .word "," :: joinCommas (second :: segs) := rfl
      rw [hsplit] at hnames ⊢
      have hrest := (@namesApart_append (i :: seg) _ hnames).2
      refine List.forall_mem_append.mpr ⟨hitem hseg hi hnames, List.forall_mem_cons.mpr ⟨?_, ?_⟩⟩
      · decide
      · exact ih (by decide) hrest

/-! ## The statements of a program -/

/-- Starts with a piece that statements start with, and has no other one. -/
def IsLine (seg : List Piece) : Prop :=
  ∃ i rest, seg = i :: rest ∧ i.isStarter = true ∧ ∀ j ∈ rest, j.isStarter = false

theorem StatementReads.isLine {seg : List Piece} {t : Tree} (h : StatementReads seg t)
    (hnames : namesApart seg = true) : IsLine seg := by
  have hvariable : ∀ {v}, isVariableText v = true → (Piece.word v).isStarter = false := fun hv =>
    not_isStarter_of_role (by simp [Piece.role, hv])
  have hsort : ∀ s : ValueSort, (Piece.word s.word).isStarter = false := fun s => by
    cases s <;> decide
  have hexpr : ∀ {s is e}, Reads (exprRule s) is [e] → ∀ j ∈ is, j.isStarter = false :=
    fun h j hj => not_isStarter_of_role (h.role_ne_other (exprRule_isExpression _) j hj)
  cases h with
  | imports h =>
    obtain ⟨segs, hne, rfl, hsegs⟩ := h.of_commas rfl rfl
    exact ⟨_, _, rfl, by decide, not_isStarter_imports hsegs (by decide) hnames⟩
  | exports hv => exact ⟨_, _, rfl, by decide, List.forall_mem_singleton.mpr (hvariable hv)⟩
  | exportsAs hv =>
    obtain ⟨-, hnames⟩ := namesApart_cons (namesApart_cons hnames).2
    have hname := (namesApart_cons hnames).1 (by decide)
    refine ⟨_, _, rfl, by decide, ?_⟩
    simp [hvariable hv, hname, show (Piece.word "as").isStarter = false by decide]
  | @lets s v is e hv h =>
    refine ⟨_, _, rfl, by decide, ?_⟩
    simp only [List.forall_mem_cons]
    exact ⟨hsort s, hvariable hv, by decide, hexpr h⟩
  | @defines s m ps params is e hparams h =>
    have hname := (namesApart_cons hnames).1 (by decide)
    refine ⟨_, _, rfl, by decide, ?_⟩
    simp only [List.forall_mem_cons]
    exact ⟨hname, rfl, by decide, hsort s, by decide, hexpr h⟩
  | uses =>
    have hname := (namesApart_cons hnames).1 (by decide)
    exact ⟨_, _, rfl, by decide, List.forall_mem_singleton.mpr hname⟩
  | comment hc =>
    refine ⟨_, [], rfl, ?_, fun j hj => absurd hj List.not_mem_nil⟩
    rw [Piece.isStarter, hc, Bool.or_true]

/-- The pieces from each piece that starts a statement to the next one. -/
def linesOf : List Piece → List (List Piece)
  | [] => []
  | i :: is =>
    if is.head?.all Piece.isStarter then [i] :: linesOf is else (linesOf is).modifyHead (i :: ·)

theorem linesOf_append {seg is : List Piece} (hseg : IsLine seg)
    (his : is.head?.all Piece.isStarter = true) : linesOf (seg ++ is) = seg :: linesOf is := by
  obtain ⟨i, rest, rfl, -, hrest⟩ := hseg
  induction rest generalizing i with
  | nil => rw [List.singleton_append, linesOf, if_pos his]
  | cons j rest ih =>
    rw [List.forall_mem_cons] at hrest
    have hnext : ¬ ((j :: rest) ++ is).head?.all Piece.isStarter = true := by
      rw [List.cons_append, List.head?_cons, Option.all_some, hrest.1]
      decide
    rw [List.cons_append, linesOf, if_neg hnext, ih j hrest.2, List.modifyHead_cons]

/-- The statements of a program are those of every derivation. -/
theorem linesOf_flatten {segs : List (List Piece)} (h : ∀ seg ∈ segs, IsLine seg) :
    linesOf segs.flatten = segs := by
  induction segs with
  | nil => rfl
  | cons seg segs ih =>
    rw [List.forall_mem_cons] at h
    have hnext : segs.flatten.head?.all Piece.isStarter = true := by
      cases segs with
      | nil => rfl
      | cons second segs =>
        obtain ⟨i, rest, rfl, hi, -⟩ := h.2 _ List.mem_cons_self
        exact hi
    rw [List.flatten_cons, linesOf_append h.1 hnext, ih h.2]

theorem linesOf_of_reads {segs : List (List Piece)} {statements : List Tree}
    (h : List.Forall₂ StatementReads segs statements) (hnames : namesApart segs.flatten = true) :
    linesOf segs.flatten = segs := by
  refine linesOf_flatten ?_
  induction h with
  | nil => exact fun seg hseg => absurd hseg List.not_mem_nil
  | cons hseg _ ih =>
    obtain ⟨hfirst, hrest⟩ := namesApart_append hnames
    exact List.forall_mem_cons.mpr ⟨hseg.isLine hfirst, ih hrest⟩

/-! ## One statement -/

/-- The expression of the statement, if it has one, is simple and bracketed. -/
def lineIsBracketed : List Piece → Bool
  | .word "let" :: _ :: _ :: _ :: body => isSimple body && allBracketed body
  | .word "define" :: _ :: _ :: _ :: _ :: _ :: body => isSimple body && allBracketed body
  | _ => true

section

variable {is : List Piece} {t : Tree}

theorem StatementReads.of_import (h : StatementReads (.word "import" :: is) t) :
    ∃ ts, Reads .importItems is ts ∧ t = .node "import_group" ts := by
  generalize hseg : Piece.word "import" :: is = seg at h
  cases h with
  | imports h =>
    cases hseg
    exact ⟨_, h, rfl⟩
  | comment hc =>
    cases hseg
    cases hc
  | _ => simp at hseg

theorem StatementReads.of_export (h : StatementReads (.word "export" :: is) t) :
    (∃ v, is = [.word v] ∧ t = .node "export" [.text "variable" v]) ∨
    ∃ v x, is = [.word v, .word "as", .word x] ∧
      t = .node "export" [.text "variable" v, .text "external" x] := by
  generalize hseg : Piece.word "export" :: is = seg at h
  cases h with
  | exports =>
    cases hseg
    exact .inl ⟨_, rfl, rfl⟩
  | exportsAs =>
    cases hseg
    exact .inr ⟨_, _, rfl, rfl⟩
  | comment hc =>
    cases hseg
    cases hc
  | _ => simp at hseg

theorem StatementReads.of_let (h : StatementReads (.word "let" :: is) t) :
    ∃ s v body e, is = .word s.word :: .word v :: .word "=" :: body ∧
      Reads (exprRule s) body [e] ∧ t = .node (letKind s) [.text "variable" v, e] := by
  generalize hseg : Piece.word "let" :: is = seg at h
  cases h with
  | lets _ h =>
    cases hseg
    exact ⟨_, _, _, _, rfl, h, rfl⟩
  | comment hc =>
    cases hseg
    cases hc
  | _ => simp at hseg

theorem StatementReads.of_define (h : StatementReads (.word "define" :: is) t) :
    ∃ s m ps params body e,
      is = .word m :: .round ps :: .word "->" :: .word s.word :: .word "=" :: body ∧
      Reads .params ps params ∧ Reads (exprRule s) body [e] ∧
      t = .node (defineKind s) [.text "macro" m, .node "param_group" params, e] := by
  generalize hseg : Piece.word "define" :: is = seg at h
  cases h with
  | defines hparams h =>
    cases hseg
    exact ⟨_, _, _, _, _, _, rfl, hparams, h, rfl⟩
  | comment hc =>
    cases hseg
    cases hc
  | _ => simp at hseg

theorem StatementReads.of_using (h : StatementReads (.word "using" :: is) t) :
    ∃ l, is = [.word l] ∧ t = .node "using" [.text "library" l] := by
  generalize hseg : Piece.word "using" :: is = seg at h
  cases h with
  | uses =>
    cases hseg
    exact ⟨_, rfl, rfl⟩
  | comment hc =>
    cases hseg
    cases hc
  | _ => simp at hseg

theorem StatementReads.of_comment {c : String} (hc : "//".toList.isPrefixOf c.toList = true)
    (h : StatementReads [.word c] t) : t = .text "comment" c := by
  generalize hseg : [Piece.word c] = seg at h
  cases h with
  | comment =>
    cases hseg
    rfl
  | imports h =>
    cases hseg
    cases hc
  | _ => cases hseg

end

theorem eq_of_importItems {is : List Piece} {ts ts' : List Tree} (h : Reads .importItems is ts)
    (h' : Reads .importItems is ts') : ts = ts' := by
  have hname : ∀ {x}, isNameText x = true → (Piece.word x).isComma = false := by
    intro x hx
    rw [Piece.isComma, beq_eq_false_iff_ne]
    rintro rfl
    cases hx
  have hcommas : ∀ {seg t}, Reads .importItem seg [t] → ∀ i ∈ seg, i.isComma = false := by
    intro seg t hseg
    rcases hseg.of_importItem with ⟨x, hx, rfl, -⟩ | ⟨x, y, hx, hy, rfl, -⟩
    · simpa using hname hx
    · simp [hname hx, hname hy, show (Piece.word "as").isComma = false by decide]
  rw [← List.forall₂_eq_eq_eq]
  refine forall₂_of_commas rfl rfl hcommas (fun seg _ _ t t' hseg hseg' => ?_) h h'
  rcases hseg.of_importItem with ⟨x, -, rfl, ht⟩ | ⟨x, y, -, -, rfl, ht⟩ <;>
    rcases hseg'.of_importItem with ⟨x', -, heq, ht'⟩ | ⟨x', y', -, -, heq, ht'⟩ <;>
    cases heq <;> cases ht <;> cases ht' <;> rfl

theorem eq_of_params {is : List Piece} {ts ts' : List Tree} (h : Reads .params is ts)
    (h' : Reads .params is ts') : ts = ts' := by
  have htypes : ∀ w ∈ ruleWords .type, (Piece.word w.1).isComma = false ∧
      ∀ w' ∈ ruleWords .type, w.1 = w'.1 → w.2 = w'.2 := by decide +kernel
  have hcommas : ∀ {seg t}, Reads .param seg [t] → ∀ i ∈ seg, i.isComma = false := by
    intro seg t hseg
    obtain ⟨w, hw, v, hv, rfl, -⟩ := hseg.of_param
    have hcomma : (Piece.word v).isComma = false := by
      rw [Piece.isComma, beq_eq_false_iff_ne]
      rintro rfl
      cases hv
    simp [(htypes w hw).1, hcomma]
  rw [← List.forall₂_eq_eq_eq]
  refine forall₂_of_commas rfl rfl hcommas (fun seg _ _ t t' hseg hseg' => ?_) h h'
  obtain ⟨w, hw, v, -, rfl, ht⟩ := hseg.of_param
  obtain ⟨w', hw', v', -, heq, ht'⟩ := hseg'.of_param
  simp only [List.cons.injEq, Piece.word.injEq, and_true] at heq
  have hkind := (htypes w hw).2 w' hw' heq.1
  rw [hkind, heq.2] at ht
  exact List.singleton_inj.mp (ht.trans ht'.symm)

/-- Two derivations of a bracketed expression of one sort. -/
theorem alike_of_bracketed {s : ValueSort} {body : List Piece} {e e' : Tree}
    (hbody : (isSimple body && allBracketed body) = true) (h : Reads (exprRule s) body [e])
    (h' : Reads (exprRule s) body [e']) : Alike e e' := by
  rw [Bool.and_eq_true, allBracketed_iff] at hbody
  exact alike_of_simple (fun a ha => a.oneTree (hbody.2 a ha)) hbody.1 (.inl rfl) h h'

/-- Two derivations of a statement. -/
theorem alikeStatement_of_reads {seg : List Piece} {t t' : Tree} (hline : lineIsBracketed seg = true)
    (h : StatementReads seg t) (h' : StatementReads seg t') : AlikeStatement t t' := by
  cases h with
  | imports hitems =>
    obtain ⟨ts', hitems', rfl⟩ := h'.of_import
    rw [eq_of_importItems hitems hitems']
    exact .same (by simp [Tree.node, Tree.kind])
  | exports =>
    rcases h'.of_export with ⟨v', heq, rfl⟩ | ⟨v', x', heq, rfl⟩
    · cases heq
      exact .same (by simp [Tree.node, Tree.kind])
    · cases heq
  | exportsAs =>
    rcases h'.of_export with ⟨v', heq, rfl⟩ | ⟨v', x', heq, rfl⟩
    · cases heq
    · cases heq
      exact .same (by simp [Tree.node, Tree.kind])
  | lets _ hbody =>
    obtain ⟨s', v', body', e', heq, hbody', rfl⟩ := h'.of_let
    simp only [List.cons.injEq, Piece.word.injEq, true_and] at heq
    obtain ⟨hs, rfl, rfl⟩ := heq
    obtain rfl := ValueSort.word_injective hs
    exact .lets (alike_of_bracketed hline hbody hbody')
  | defines hparams hbody =>
    obtain ⟨s', m', ps', params', body', e', heq, hparams', hbody', rfl⟩ := h'.of_define
    simp only [List.cons.injEq, Piece.word.injEq, Piece.round.injEq, true_and] at heq
    obtain ⟨rfl, rfl, hs, rfl⟩ := heq
    obtain rfl := ValueSort.word_injective hs
    rw [eq_of_params hparams hparams']
    exact .defines (alike_of_bracketed hline hbody hbody')
  | uses =>
    obtain ⟨l', heq, rfl⟩ := h'.of_using
    cases heq
    exact .same (by simp [Tree.node, Tree.kind])
  | comment hc =>
    rw [h'.of_comment hc]
    exact .same (by simp [Tree.text, Tree.kind])

/-! ## All statements -/

/-- The statements of the program are told apart by the words that they start with, and their
expressions are bracketed. -/
def isBracketedProgram (is : List Piece) : Bool :=
  namesApart is && (linesOf is).all lineIsBracketed

/-- Two derivations of a bracketed program. -/
theorem alike_of_isBracketedProgram {is : List Piece} {program program' : Tree}
    (his : isBracketedProgram is = true) (h : Reads .program is [program])
    (h' : Reads .program is [program']) :
    List.Forall₂ AlikeStatement (sourceStatements program) (sourceStatements program') := by
  rw [isBracketedProgram, Bool.and_eq_true, List.all_eq_true] at his
  obtain ⟨segs, statements, rfl, hprogram, hsegs⟩ := h.of_program
  obtain ⟨segs', statements', hflatten, hprogram', hsegs'⟩ := h'.of_program
  have hlines : linesOf segs.flatten = segs := linesOf_of_reads hsegs his.1
  -- both derivations divide the program where `linesOf` does
  have hsame : segs = segs' := by
    rw [← hlines, hflatten, linesOf_of_reads hsegs' (hflatten ▸ his.1)]
  subst hsame
  rw [hlines] at his
  rw [List.singleton_inj.mp hprogram, List.singleton_inj.mp hprogram', sourceStatements_lines,
    sourceStatements_lines]
  have hone : ∀ seg ∈ segs, ∀ t t', StatementReads seg t → StatementReads seg t' →
      AlikeStatement t t' :=
    fun seg hseg t t' => alikeStatement_of_reads (his.2 seg hseg)
  exact forall₂_of_same hone hsegs hsegs'

end Scalarize.Grammar
