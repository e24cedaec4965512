import Scalarize.Proofs.PrintedTokens

/-!
# Scalarize — a printed text has one reading

Nothing is lost when spaces are taken out of a row of tokens in which operands and operators
alternate. This holds although a variable may have the name of an operator: in `sin and -x` the
first word is a variable, in `sin and-x` it is an operator, and the space after `and` tells which.

* **`tidyTokens_cons`** — the tidy text of a row, token by token.
* **`tidyTokens_solid_ne_due`** — after a word, the text goes on in one way if the word was an
  operand and in another if it was an operator.
* **`tidyTokens_injective`** — two rows are equal if their tidy texts are.
* **`squeeze_injective`** — so two rows are equal if they are printed alike.
-/

namespace Scalarize.Layout

/-! ## The text of a row -/

def tidyTokens (g : Gap) (ts : List Token) : List Char :=
  tidy g (ts.flatMap Token.text)

/-- A token without the spaces around it. -/
def Token.body : Token → List Char
  | word s => s.toList
  | unary k => (operator k).symbol.toList
  | binary k => (operator k).symbol.toList
  | opening => ['(']
  | closing => [')']

/-- The space that is written before a token. -/
def Token.before (g : Gap) : Token → List Char
  | word _ => g.text
  | unary k => if (operator k).isWord then g.afterSpace.text else g.text
  | binary k => if (operator k).isWord then g.afterSpace.text else g.text
  | opening => []
  | closing => []

def Token.after : Token → Gap
  | word _ => .solid
  | unary k => if (operator k).isWord then .due else .solid
  | binary k => if (operator k).isWord then .due else .solid
  | opening => .shut
  | closing => .shut

/-- What a character can begin. -/
inductive CharClass where
  | opening
  | closing
  | word
  | symbol
deriving DecidableEq

def charClass (c : Char) : CharClass :=
  if c = '(' then .opening else if c = ')' then .closing
  else if isWordChar c then .word else .symbol

def operatorClass (k : String) : CharClass :=
  if (operator k).isWord then .word else .symbol

def Token.charClass : Token → CharClass
  | word _ => .word
  | unary k => operatorClass k
  | binary k => operatorClass k
  | opening => .opening
  | closing => .closing

/-- An operator does not begin like a bracket. -/
theorem operatorClass_ne_bracket (k : String) :
    operatorClass k ≠ .opening ∧ operatorClass k ≠ .closing := by
  unfold operatorClass
  split <;> simp

/-- What the characters of an operator are. -/
theorem operator_chars {k : String} (hk : k ∈ unaryKinds ++ binaryKinds) :
    (operator k).symbol.toList ≠ [] ∧ ∀ c ∈ (operator k).symbol.toList, Text.isBlank c = false ∧
      charClass c = operatorClass k := by
  have hall : (unaryKinds ++ binaryKinds).all (fun k =>
      (operator k).symbol.toList != [] && (operator k).symbol.toList.all fun c =>
        Text.isBlank c == false && charClass c == operatorClass k) = true := by
    decide +kernel
  have h := List.all_eq_true.mp hall k hk
  rw [Bool.and_eq_true, bne_iff_ne, List.all_eq_true] at h
  refine ⟨h.1, ?_⟩
  intro c hc
  have hc := h.2 c hc
  rwa [Bool.and_eq_true, beq_iff_eq, beq_iff_eq] at hc

theorem ne_space_of_not_blank {c : Char} (h : Text.isBlank c = false) : c ≠ ' ' := by
  rintro rfl
  exact absurd h (by decide)

/-- A word that stands before its operand is not one that stands between operands. -/
theorem unary_word_ne {j k : String} (hj : j ∈ unaryKinds) (hk : k ∈ binaryKinds)
    (hw : (operator j).isWord) : (operator j).symbol ≠ (operator k).symbol := by
  have hall : ∀ j ∈ unaryKinds, (operator j).isWord → ∀ k ∈ binaryKinds,
      (operator j).symbol ≠ (operator k).symbol := by decide +kernel
  exact hall j hj hw k hk

theorem unary_symbol_injective {j k : String} (hj : j ∈ unaryKinds) (hk : k ∈ unaryKinds)
    (h : (operator j).symbol = (operator k).symbol) : j = k := by
  have hall : ∀ j ∈ unaryKinds, ∀ k ∈ unaryKinds,
      (operator j).symbol = (operator k).symbol → j = k := by decide +kernel
  exact hall j hj k hk h

theorem unary_not_word {k : String} (hk : k ∈ unaryKinds) (hw : (operator k).isWord = false) :
    k = "neg" := by
  have hall : ∀ k ∈ unaryKinds, (operator k).isWord = false → k = "neg" := by decide +kernel
  exact hall k hk hw

theorem binary_symbol_injective {j k : String} (hj : j ∈ binaryKinds) (hk : k ∈ binaryKinds)
    (h : (operator j).symbol = (operator k).symbol) : j = k := by
  have hall : ∀ j ∈ binaryKinds, ∀ k ∈ binaryKinds,
      (operator j).symbol = (operator k).symbol → j = k := by decide +kernel
  exact hall j hj k hk h

/-- Where one symbol begins another, an equals sign is what is left of the longer one. -/
theorem binary_symbol_rest {j k : String} (hj : j ∈ binaryKinds) (hk : k ∈ binaryKinds)
    (hw : (operator j).isWord = false)
    (h : (operator j).symbol.toList <+: (operator k).symbol.toList) :
    j = k ∨ (operator k).symbol.toList = (operator j).symbol.toList ++ ['='] := by
  have hall : ∀ j ∈ binaryKinds, (operator j).isWord = false → ∀ k ∈ binaryKinds,
      (operator j).symbol.toList <+: (operator k).symbol.toList →
      j = k ∨ (operator k).symbol.toList = (operator j).symbol.toList ++ ['='] := by
    decide +kernel
  exact hall j hj hw k hk h

theorem isWordChar_ne {c : Char} (h : isWordChar c) :
    Text.isBlank c = false ∧ isBracket c = false := by
  simp only [isWordChar, Bool.and_eq_true, Bool.not_eq_true'] at h
  exact h.1

theorem charClass_of_isWordChar {c : Char} (h : isWordChar c) : charClass c = .word := by
  have hb := (isWordChar_ne h).2
  simp only [isBracket, Bool.or_eq_false_iff, beq_eq_false_iff_ne] at hb
  simp [charClass, hb, h]

theorem tidy_plain {w : List Char} (hw : w ≠ [])
    (h : ∀ c ∈ w, Text.isBlank c = false ∧ isBracket c = false)
    (g : Gap) (cs : List Char) : tidy g (w ++ cs) = g.text ++ w ++ tidy .solid cs := by
  induction w generalizing g with
  | nil => exact absurd rfl hw
  | cons c w ih =>
    obtain ⟨hblank, hbracket⟩ := h c List.mem_cons_self
    have hspace := ne_space_of_not_blank hblank
    have hstep : tidy g (c :: (w ++ cs)) = g.text ++ c :: tidy .solid (w ++ cs) := by
      simp [tidy, emit, advance, hspace, hbracket]
    rw [List.cons_append, hstep]
    cases w with
    | nil => simp
    | cons d w =>
      rw [ih (by simp) fun e he => h e (List.mem_cons_of_mem c he)]
      simp [Gap.text]

theorem operator_plain {k : String} (hk : k ∈ unaryKinds ++ binaryKinds) :
    ∀ c ∈ (operator k).symbol.toList, Text.isBlank c = false ∧ isBracket c = false := by
  intro c hc
  obtain ⟨hblank, hclass⟩ := (operator_chars hk).2 c hc
  refine ⟨hblank, ?_⟩
  -- a bracket would be of a class of its own
  by_contra hb
  rw [Bool.not_eq_false, isBracket, Bool.or_eq_true, beq_iff_eq, beq_iff_eq] at hb
  have hne := operatorClass_ne_bracket k
  rcases hb with rfl | rfl
  · exact hne.1 hclass.symm
  · exact hne.2 hclass.symm

theorem tidy_operator {k : String} (hk : k ∈ unaryKinds ++ binaryKinds) (g : Gap)
    (cs : List Char) :
    tidy g ((operatorText (operator k)).toList ++ cs)
      = (if (operator k).isWord then g.afterSpace.text else g.text) ++ (operator k).symbol.toList
        ++ tidy (if (operator k).isWord then .due else .solid) cs := by
  have hne := (operator_chars hk).1
  have hplain := operator_plain hk
  cases hw : (operator k).isWord
  · simp only [operatorText, hw, Bool.false_eq_true, if_false]
    exact tidy_plain hne hplain g cs
  · have htext : (operatorText (operator k)).toList ++ cs
        = ' ' :: ((operator k).symbol.toList ++ ' ' :: cs) := by
      simp [operatorText, hw]
    rw [htext, tidy_space, tidy_plain hne hplain, tidy_space]
    rfl

@[simp] theorem tidyTokens_nil (g : Gap) : tidyTokens g [] = [] :=
  rfl

/-- The text of a row, token by token. -/
theorem Alternates.tidyTokens_cons {b : Bool} {t : Token} {ts : List Token}
    (h : Alternates b (t :: ts)) (g : Gap) :
    tidyTokens g (t :: ts) = t.before g ++ t.body ++ tidyTokens t.after ts := by
  rw [tidyTokens, List.flatMap_cons]
  cases h with
  | word hs => exact tidy_plain hs.start (fun c hc => isWordChar_ne (hs.chars c hc)) g _
  | unary hk => exact tidy_operator (List.mem_append_left _ hk) g _
  | binary hk => exact tidy_operator (List.mem_append_right _ hk) g _
  | opening => exact tidy_bracket rfl g _
  | closing => exact tidy_bracket rfl g _

/-- A token begins with a character of its class. -/
theorem Alternates.head_body {b : Bool} {t : Token} {ts : List Token}
    (h : Alternates b (t :: ts)) :
    ∃ c cs, t.body = c :: cs ∧ c ≠ ' ' ∧ charClass c = t.charClass := by
  have hoperator : ∀ k ∈ unaryKinds ++ binaryKinds, ∃ c cs,
      (operator k).symbol.toList = c :: cs ∧ c ≠ ' ' ∧ charClass c = operatorClass k := by
    intro k hk
    obtain ⟨hne, hchars⟩ := operator_chars hk
    obtain ⟨c, cs, hc⟩ := List.exists_cons_of_ne_nil hne
    obtain ⟨hblank, hclass⟩ := hchars c (by simp [hc])
    exact ⟨c, cs, hc, ne_space_of_not_blank hblank, hclass⟩
  cases h with
  | @word s _ hs =>
    obtain ⟨c, cs, hc⟩ := List.exists_cons_of_ne_nil hs.start
    have hword := hs.chars c (by simp [hc])
    exact ⟨c, cs, hc, ne_space_of_not_blank (isWordChar_ne hword).1, charClass_of_isWordChar hword⟩
  | unary hk => exact hoperator _ (List.mem_append_left _ hk)
  | binary hk => exact hoperator _ (List.mem_append_right _ hk)
  | opening => exact ⟨'(', [], rfl, by decide, by decide⟩
  | closing => exact ⟨')', [], rfl, by decide, by decide⟩

/-- The class of the first character that is not a space. -/
def firstClass (cs : List Char) : Option CharClass :=
  (cs.dropWhile (· == ' ')).head?.map charClass

theorem Alternates.firstClass_tidyTokens {b : Bool} {t : Token} {ts : List Token}
    (h : Alternates b (t :: ts)) (g : Gap) :
    firstClass (tidyTokens g (t :: ts)) = some t.charClass := by
  obtain ⟨c, cs, hbody, hspace, hclass⟩ := h.head_body
  have hbefore : t.before g = [] ∨ t.before g = [' '] := by
    cases t <;> cases g <;> simp [Token.before, Gap.text, Gap.afterSpace]
  rw [h.tidyTokens_cons, hbody, firstClass]
  rcases hbefore with hb | hb <;> simp [hb, hspace, hclass]

/-! ## A text has one reading -/

/-- Where a text goes on after a word, it does not go on with a character of a word. -/
def EndsWord (cs : List Char) : Prop :=
  ∀ c ∈ cs.head?, isWordChar c = false

theorem word_append_injective {v w cs ds : List Char} (hv : ∀ c ∈ v, isWordChar c)
    (hw : ∀ c ∈ w, isWordChar c) (hcs : EndsWord cs) (hds : EndsWord ds)
    (h : v ++ cs = w ++ ds) : v = w ∧ cs = ds := by
  have hstop : ∀ {u es : List Char}, (∀ c ∈ u, isWordChar c) → EndsWord es →
      (u ++ es).takeWhile isWordChar = u := by
    intro u es hu hes
    rw [List.takeWhile_append_of_pos hu]
    cases es with
    | nil => simp
    | cons e es => simp [hes e rfl]
  have hvw : v = w := by rw [← hstop hv hcs, h, hstop hw hds]
  subst hvw
  exact ⟨rfl, List.append_cancel_left h⟩

theorem charClass_of_not_word {c : Char} (h : charClass c ≠ .word) : isWordChar c = false := by
  by_contra hc
  exact h (charClass_of_isWordChar (by simpa using hc))

/-- After an operand comes a symbol, a space or a bracket. -/
theorem Alternates.endsWord_solid {ts : List Token} (h : Alternates false ts) :
    EndsWord (tidyTokens .solid ts) := by
  cases ts with
  | nil => simp [EndsWord]
  | cons t ts =>
    obtain ⟨c, cs, hbody, -, hclass⟩ := h.head_body
    rw [h.tidyTokens_cons, hbody]
    cases h with
    | @binary k _ hk =>
      cases hw : (operator k).isWord
      · have hsymbol : charClass c = .symbol := by
          simpa [Token.charClass, operatorClass, hw] using hclass
        simpa [EndsWord, Token.before, hw, Gap.text] using
          charClass_of_not_word (by simp [hsymbol])
      · simp only [Token.before, hw, if_true, Gap.afterSpace, Gap.text]
        rintro d ⟨rfl⟩
        decide
    | closing =>
      have hclosing : charClass c = .closing := hclass
      simpa [EndsWord, Token.before] using charClass_of_not_word (by simp [hclosing])

/-- After an operator that is a word comes a space or a bracket. -/
theorem Alternates.endsWord_due {ts : List Token} (h : Alternates true ts) :
    EndsWord (tidyTokens .due ts) := by
  have hspace : ∀ cs, EndsWord (' ' :: cs) := by
    rintro cs d ⟨rfl⟩
    decide
  cases h with
  | word hs hts =>
    rw [(Alternates.word hs hts).tidyTokens_cons]
    exact hspace _
  | @unary k _ hk hts =>
    have hbefore : (Token.unary k).before .due = [' '] := by
      simp [Token.before, Gap.afterSpace, Gap.text]
    rw [(Alternates.unary hk hts).tidyTokens_cons, hbefore]
    exact hspace _
  | opening hts =>
    rw [(Alternates.opening hts).tidyTokens_cons]
    rintro d ⟨rfl⟩
    decide

/-- No operand begins with an equals sign. -/
theorem Alternates.head_ne_equals {ts : List Token} (h : Alternates true ts) (cs : List Char) :
    tidyTokens .solid ts ≠ '=' :: cs := by
  intro heq
  cases h with
  | @word s _ hs hts =>
    obtain ⟨c, ds, hc⟩ := List.exists_cons_of_ne_nil hs.start
    have hword := hs.chars c (by simp [hc])
    have hce : c = '=' := by
      have hhead := congrArg List.head? heq
      rw [(Alternates.word hs hts).tidyTokens_cons] at hhead
      simpa [Token.before, Gap.text, Token.body, hc] using hhead
    subst hce
    exact absurd hword (by decide)
  | @unary k _ hk hts =>
    rw [(Alternates.unary hk hts).tidyTokens_cons] at heq
    cases hw : (operator k).isWord
    · obtain rfl := unary_not_word hk hw
      cases heq
    · simp [Token.before, hw, Gap.afterSpace, Gap.text] at heq
  | opening hts =>
    rw [(Alternates.opening hts).tidyTokens_cons] at heq
    cases heq

theorem not_nil_eq_tidyTokens {b : Bool} {t : Token} {ts : List Token}
    (h : Alternates b (t :: ts)) (g : Gap) : [] ≠ tidyTokens g (t :: ts) := by
  intro heq
  have hfirst := h.firstClass_tidyTokens g
  rw [← heq] at hfirst
  cases hfirst

theorem charClass_eq_of_tidyTokens_eq {a b : Bool} {t u : Token} {ts us : List Token} {g g' : Gap}
    (ht : Alternates a (t :: ts)) (hu : Alternates b (u :: us))
    (h : tidyTokens g (t :: ts) = tidyTokens g' (u :: us)) : t.charClass = u.charClass := by
  have hfirst := congrArg firstClass h
  rwa [ht.firstClass_tidyTokens, hu.firstClass_tidyTokens, Option.some.injEq] at hfirst

theorem operator_word_chars {k : String} (hk : k ∈ unaryKinds ++ binaryKinds)
    (hw : (operator k).isWord) : ∀ c ∈ (operator k).symbol.toList, isWordChar c := by
  intro c hc
  have hclass := ((operator_chars hk).2 c hc).2
  rw [operatorClass, if_pos hw] at hclass
  unfold charClass at hclass
  split at hclass
  · cases hclass
  · split at hclass
    · cases hclass
    · split at hclass
      · assumption
      · cases hclass

theorem isWord_eq_of_operatorClass_eq {j k : String} (h : operatorClass j = operatorClass k) :
    (operator j).isWord = (operator k).isWord := by
  unfold operatorClass at h
  cases hj : (operator j).isWord <;> cases hk : (operator k).isWord <;> simp [hj, hk] at h ⊢

theorem isWord_of_operatorClass_eq {k : String} (h : operatorClass k = .word) :
    (operator k).isWord := by
  by_contra hw
  simp [operatorClass, hw] at h

/-- Two words before operands that stand at the same place of the same text are the same. -/
theorem operator_word_injective {j k : String} {ts us : List Token}
    (hj : j ∈ unaryKinds ++ binaryKinds) (hk : k ∈ unaryKinds ++ binaryKinds)
    (hwj : (operator j).isWord) (hwk : (operator k).isWord) (hts : Alternates true ts)
    (hus : Alternates true us)
    (h : (operator j).symbol.toList ++ tidyTokens .due ts
      = (operator k).symbol.toList ++ tidyTokens .due us) :
    (operator j).symbol = (operator k).symbol := by
  have hsplit := word_append_injective (operator_word_chars hj hwj) (operator_word_chars hk hwk)
    hts.endsWord_due hus.endsWord_due h
  exact String.toList_inj.mp hsplit.1

/-- What follows a word does not tell both that the word was an operand and that it was an
operator. -/
theorem tidyTokens_solid_ne_due {ts us : List Token} (hts : Alternates false ts)
    (hus : Alternates true us) : tidyTokens .solid ts ≠ tidyTokens .due us := by
  induction hn : ts.length + us.length using Nat.strong_induction_on generalizing ts us with
  | _ n ih =>
    intro heq
    cases hts with
    | done =>
      cases hus with
      | word hs hus => exact not_nil_eq_tidyTokens (.word hs hus) _ heq
      | unary hj hus => exact not_nil_eq_tidyTokens (.unary hj hus) _ heq
      | opening hus => exact not_nil_eq_tidyTokens (.opening hus) _ heq
    | closing hts =>
      cases hus with
      | word hs hus => cases charClass_eq_of_tidyTokens_eq (.closing hts) (.word hs hus) heq
      | unary hj hus =>
        have hclass := charClass_eq_of_tidyTokens_eq (.closing hts) (.unary hj hus) heq
        exact (operatorClass_ne_bracket _).2 hclass.symm
      | opening hus => cases charClass_eq_of_tidyTokens_eq (.closing hts) (.opening hus) heq
    | @binary k ts hk hts =>
      have hcons := (Alternates.binary hk hts).tidyTokens_cons .solid
      cases hus with
      | @word s us hs hus =>
        have hw := isWord_of_operatorClass_eq
          (charClass_eq_of_tidyTokens_eq (.binary hk hts) (.word hs hus) heq)
        rw [hcons, (Alternates.word hs hus).tidyTokens_cons, List.append_assoc,
          List.append_assoc] at heq
        simp only [Token.before, Token.body, Token.after, hw, if_true, Gap.afterSpace] at heq
        have hsplit := word_append_injective (operator_word_chars (List.mem_append_right _ hk) hw)
          hs.chars hts.endsWord_due hus.endsWord_solid (List.append_cancel_left heq)
        -- the rows have changed their parts, and both are shorter
        refine ih (us.length + ts.length) ?_ hus hts rfl hsplit.2.symm
        simp only [← hn, List.length_cons]
        omega
      | @unary j us hj hus =>
        have hw := isWord_eq_of_operatorClass_eq
          (charClass_eq_of_tidyTokens_eq (.binary hk hts) (.unary hj hus) heq)
        obtain ⟨c, cs, hbody, hspace, -⟩ := (Alternates.binary hk hts).head_body
        rw [hcons, (Alternates.unary hj hus).tidyTokens_cons, List.append_assoc,
          List.append_assoc] at heq
        cases hwj : (operator j).isWord
        · -- one text begins with a symbol, the other with a space
          rw [hbody] at heq
          simp [Token.before, hw, hwj, Gap.text, hspace] at heq
        · simp only [Token.before, Token.body, Token.after, hw, hwj, if_true, Gap.afterSpace] at heq
          have hsame := operator_word_injective (List.mem_append_right _ hk)
            (List.mem_append_left _ hj) (hw.trans hwj) hwj hts hus (List.append_cancel_left heq)
          exact unary_word_ne hj hk hwj hsame.symm
      | opening hus =>
        have hclass := charClass_eq_of_tidyTokens_eq (.binary hk hts) (.opening hus) heq
        exact (operatorClass_ne_bracket k).1 hclass

theorem tidyTokens_word_ne_unary {s k : String} {ts us : List Token} (hs : IsWord s)
    (hts : Alternates false ts) (hk : k ∈ unaryKinds) (hus : Alternates true us) (g : Gap) :
    tidyTokens g (.word s :: ts) ≠ tidyTokens g (.unary k :: us) := by
  intro heq
  have hw := isWord_of_operatorClass_eq
    (charClass_eq_of_tidyTokens_eq (.word hs hts) (.unary hk hus) heq).symm
  obtain ⟨c, cs, hbody, hspace, -⟩ := (Alternates.word hs hts).head_body
  rw [(Alternates.word hs hts).tidyTokens_cons, (Alternates.unary hk hus).tidyTokens_cons,
    List.append_assoc, List.append_assoc] at heq
  by_cases hg : g = .solid
  · -- only the operator has a space before it
    rw [hbody] at heq
    simp [Token.before, hw, hg, Gap.text, Gap.afterSpace, hspace] at heq
  · have hbefore : g.afterSpace = g := by cases g <;> simp [Gap.afterSpace] at hg ⊢
    simp only [Token.before, Token.body, Token.after, hw, if_true, hbefore] at heq
    have hsplit := word_append_injective hs.chars
      (operator_word_chars (List.mem_append_left _ hk) hw) hts.endsWord_solid hus.endsWord_due
      (List.append_cancel_left heq)
    exact tidyTokens_solid_ne_due hts hus hsplit.2

theorem unary_injective {j k : String} {ts us : List Token} {g : Gap}
    (hj : j ∈ unaryKinds) (hk : k ∈ unaryKinds) (hts : Alternates true ts)
    (hus : Alternates true us)
    (h : tidyTokens g (.unary j :: ts) = tidyTokens g (.unary k :: us)) : j = k := by
  have hw := isWord_eq_of_operatorClass_eq
    (charClass_eq_of_tidyTokens_eq (.unary hj hts) (.unary hk hus) h)
  cases hwk : (operator k).isWord
  · rw [unary_not_word hj (hw.trans hwk), unary_not_word hk hwk]
  · rw [(Alternates.unary hj hts).tidyTokens_cons, (Alternates.unary hk hus).tidyTokens_cons,
      List.append_assoc, List.append_assoc] at h
    simp only [Token.before, Token.body, Token.after, hw, hwk, if_true] at h
    exact unary_symbol_injective hj hk <| operator_word_injective (List.mem_append_left _ hj)
      (List.mem_append_left _ hk) (hw.trans hwk) hwk hts hus (List.append_cancel_left h)

/-- A symbol that goes on would do so with an equals sign, and no operand begins with one. -/
theorem binary_symbol_injective_of_append {j k : String} {ts us : List Token}
    (hj : j ∈ binaryKinds) (hk : k ∈ binaryKinds) (hw : (operator j).isWord = false)
    (hts : Alternates true ts) {es : List Char}
    (hes : (operator k).symbol.toList = (operator j).symbol.toList ++ es)
    (hrest : tidyTokens .solid ts = es ++ tidyTokens .solid us) : j = k := by
  rcases binary_symbol_rest hj hk hw ⟨es, hes.symm⟩ with heq | heq
  · exact heq
  · rw [hes] at heq
    rw [List.append_cancel_left heq] at hrest
    exact absurd hrest (hts.head_ne_equals _)

theorem binary_injective {j k : String} {ts us : List Token} {g : Gap}
    (hj : j ∈ binaryKinds) (hk : k ∈ binaryKinds) (hts : Alternates true ts)
    (hus : Alternates true us)
    (h : tidyTokens g (.binary j :: ts) = tidyTokens g (.binary k :: us)) : j = k := by
  have hw := isWord_eq_of_operatorClass_eq
    (charClass_eq_of_tidyTokens_eq (.binary hj hts) (.binary hk hus) h)
  rw [(Alternates.binary hj hts).tidyTokens_cons, (Alternates.binary hk hus).tidyTokens_cons,
    List.append_assoc, List.append_assoc] at h
  simp only [Token.before, Token.body, Token.after, hw] at h
  have h := List.append_cancel_left h
  cases hwk : (operator k).isWord
  · simp only [hwk, Bool.false_eq_true, if_false] at h
    rcases List.append_eq_append_iff.mp h with ⟨es, hes, hrest⟩ | ⟨es, hes, hrest⟩
    · exact binary_symbol_injective_of_append hj hk (hw.trans hwk) hts hes hrest
    · exact (binary_symbol_injective_of_append hk hj hwk hus hes hrest).symm
  · simp only [hwk, if_true] at h
    exact binary_symbol_injective hj hk <| operator_word_injective (List.mem_append_right _ hj)
      (List.mem_append_right _ hk) (hw.trans hwk) hwk hts hus h

/-- After the same token the texts go on alike. -/
theorem tidyTokens_tail_eq {b : Bool} {t : Token} {ts us : List Token} {g : Gap}
    (hts : Alternates b (t :: ts)) (hus : Alternates b (t :: us))
    (h : tidyTokens g (t :: ts) = tidyTokens g (t :: us)) :
    tidyTokens t.after ts = tidyTokens t.after us := by
  rw [hts.tidyTokens_cons, hus.tidyTokens_cons] at h
  exact List.append_cancel_left h

/-- A tidy text is that of one row only. -/
theorem tidyTokens_injective {b : Bool} {ts us : List Token} (hts : Alternates b ts)
    (hus : Alternates b us) {g : Gap} (h : tidyTokens g ts = tidyTokens g us) : ts = us := by
  -- both rows wait for the same kind of token, so only tokens that may stand here are compared
  induction hts generalizing us g with
  | done =>
    cases hus with
    | done => rfl
    | binary hk hus => exact absurd h (not_nil_eq_tidyTokens (.binary hk hus) g)
    | closing hus => exact absurd h (not_nil_eq_tidyTokens (.closing hus) g)
  | @word s ts hs hts ih =>
    cases hus with
    | @word r us hr hus =>
      rw [(Alternates.word hs hts).tidyTokens_cons, (Alternates.word hr hus).tidyTokens_cons,
        List.append_assoc, List.append_assoc] at h
      have hsplit := word_append_injective hs.chars hr.chars hts.endsWord_solid
        hus.endsWord_solid (List.append_cancel_left h)
      rw [String.toList_inj.mp hsplit.1, ih hus hsplit.2]
    | unary hk hus => exact absurd h (tidyTokens_word_ne_unary hs hts hk hus g)
    | opening hus => cases charClass_eq_of_tidyTokens_eq (.word hs hts) (.opening hus) h
  | @unary j ts hj hts ih =>
    cases hus with
    | word hr hus => exact absurd h.symm (tidyTokens_word_ne_unary hr hus hj hts g)
    | unary hk hus =>
      obtain rfl := unary_injective hj hk hts hus h
      rw [ih hus (tidyTokens_tail_eq (.unary hj hts) (.unary hj hus) h)]
    | opening hus =>
      have hclass := charClass_eq_of_tidyTokens_eq (.unary hj hts) (.opening hus) h
      exact absurd hclass (operatorClass_ne_bracket j).1
  | @opening ts hts ih =>
    cases hus with
    | word hr hus => cases charClass_eq_of_tidyTokens_eq (.opening hts) (.word hr hus) h
    | unary hk hus =>
      have hclass := charClass_eq_of_tidyTokens_eq (.opening hts) (.unary hk hus) h
      exact absurd hclass.symm (operatorClass_ne_bracket _).1
    | opening hus => rw [ih hus (tidyTokens_tail_eq (.opening hts) (.opening hus) h)]
  | @binary j ts hj hts ih =>
    cases hus with
    | done => exact absurd h.symm (not_nil_eq_tidyTokens (.binary hj hts) g)
    | binary hk hus =>
      obtain rfl := binary_injective hj hk hts hus h
      rw [ih hus (tidyTokens_tail_eq (.binary hj hts) (.binary hj hus) h)]
    | closing hus =>
      have hclass := charClass_eq_of_tidyTokens_eq (.binary hj hts) (.closing hus) h
      exact absurd hclass (operatorClass_ne_bracket j).2
  | @closing ts hts ih =>
    cases hus with
    | done => exact absurd h.symm (not_nil_eq_tidyTokens (.closing hts) g)
    | binary hk hus =>
      have hclass := charClass_eq_of_tidyTokens_eq (.closing hts) (.binary hk hus) h
      exact absurd hclass.symm (operatorClass_ne_bracket _).2
    | closing hus => rw [ih hus (tidyTokens_tail_eq (.closing hts) (.closing hus) h)]

/-- In the text of a row the space is the only blank. -/
theorem Alternates.eq_space_of_isBlank {b : Bool} {ts : List Token} (h : Alternates b ts) :
    ∀ c ∈ ts.flatMap Token.text, Text.isBlank c → c = ' ' := by
  have hoperator : ∀ k ∈ unaryKinds ++ binaryKinds,
      ∀ c ∈ (operatorText (operator k)).toList, Text.isBlank c → c = ' ' := by
    intro k hk c hc hblank
    have hsymbol : c ∉ (operator k).symbol.toList := by
      intro hmem
      rw [((operator_chars hk).2 c hmem).1] at hblank
      cases hblank
    rw [operatorText] at hc
    split at hc
    · simpa [hsymbol] using hc
    · exact absurd hc hsymbol
  intro c hc hblank
  induction h with
  | done => cases hc
  | word hs _ ih =>
    rcases List.mem_append.mp hc with hc | hc
    · rw [(isWordChar_ne (hs.chars c hc)).1] at hblank
      cases hblank
    · exact ih hc
  | unary hk _ ih =>
    rcases List.mem_append.mp hc with hc | hc
    · exact hoperator _ (List.mem_append_left _ hk) c hc hblank
    · exact ih hc
  | binary hk _ ih =>
    rcases List.mem_append.mp hc with hc | hc
    · exact hoperator _ (List.mem_append_right _ hk) c hc hblank
    · exact ih hc
  | opening _ ih | closing _ ih =>
    rcases List.mem_cons.mp hc with rfl | hc
    · exact absurd hblank (by decide)
    · exact ih hc

/-- A printed text is that of one row only. -/
theorem squeeze_injective {b : Bool} {ts us : List Token} (hts : Alternates b ts)
    (hus : Alternates b us)
    (h : squeeze (ts.flatMap Token.text) = squeeze (us.flatMap Token.text)) : ts = us := by
  refine tidyTokens_injective hts hus (g := .shut) ?_
  rw [tidyTokens, tidyTokens, ← tidy_squeeze hts.eq_space_of_isBlank, h,
    tidy_squeeze hus.eq_space_of_isBlank]

end Scalarize.Layout
