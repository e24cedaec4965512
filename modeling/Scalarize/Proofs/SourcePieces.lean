import Scalarize.Proofs.FlatChains

/-!
# Scalarize — the pieces of a source text

Brackets, the sign `$` of an external name and the sign `!` of a macro call hold words of a source
text together, whatever else the grammar makes of the text. So a derivation of the text is one of
its pieces, and the pieces are the same for all derivations that see the same words.

* **`ParsesWords`** — derivations from words, with no look at the gaps between them.
* **`Piece`**, **`Reads`** — pieces, and derivations from pieces; these give trees and not parse
  trees.
* **`reads_of_parsesWords`** — a derivation from words is one from pieces that have these words.
* **`Reads.piecesOf_eq`** — pieces that a rule can read are determined by their words.
* **`Reads.callsShaped`** — the macro calls in the trees of a derivation.
-/

namespace Scalarize.Grammar

/-! ## Derivations from words -/

/-- Capital letters and underscores. -/
def isVariableText (w : String) : Bool :=
  !w.toList.isEmpty && w.toList.all isVariableChar

/-- Letters, digits and underscores. -/
def isNameText (w : String) : Bool :=
  !w.toList.isEmpty && w.toList.all isNameChar

/-- A text that starts with a digit, perhaps after a sign. -/
def isNumberText (w : String) : Bool :=
  (w.toList.dropWhile (· == '-')).head?.any Text.isDigit

/-- What can be said of a text that the terminal takes, wherever it stands. -/
def Terminal.admits : Terminal → String → Bool
  | word v, w => v == w
  | comment, w => "//".toList.isPrefixOf w.toList
  | literal, w => isNumberText w
  | variableName, w => isVariableText w
  | macroName, w => isNameText w
  | libraryName, w => isNameText w
  | externalName, w => isNameText w

/-- A text that a terminal has taken. -/
structure SourceWord where
  terminal : Terminal
  text : String

mutual

/-- The words have a derivation of the rule that gives these trees. -/
inductive ParsesWords : Rule → List SourceWord → List ParseTree → Prop where
  | production {p ws forest} (hp : p ∈ productions) (h : ParsesWordsParts p.body ws forest) :
      ParsesWords p.head ws (p.label.apply forest)

/-- The words have a derivation of the parts, one after the other. -/
inductive ParsesWordsParts : List Part → List SourceWord → List ParseTree → Prop where
  | nil : ParsesWordsParts [] [] []
  | terminal {t text parts ws forest} (h : Terminal.admits t text = true)
      (hparts : ParsesWordsParts parts ws forest) :
      ParsesWordsParts (.terminal t :: parts) (⟨t, text⟩ :: ws)
        ((if t.isKept then [.token text] else []) ++ forest)
  | rule {r ws trees parts ws' forest} (h : ParsesWords r ws trees)
      (hparts : ParsesWordsParts parts ws' forest) :
      ParsesWordsParts (.rule r :: parts) (ws ++ ws') (trees ++ forest)

end

theorem isNameText_of_all {text : List Char} (hne : text ≠ []) (h : ∀ c ∈ text, isNameChar c = true) :
    isNameText (String.ofList text) = true := by
  rw [isNameText, String.toList_ofList, Bool.and_eq_true, List.all_eq_true]
  exact ⟨by simpa using hne, h⟩

theorem isNumberText_of_isLiteralText {text : List Char} (h : IsLiteralText text) :
    isNumberText (String.ofList text) = true := by
  have hdecimal : ∀ ds, IsDecimal Text.isDigit ds →
      (ds.dropWhile (· == '-')).head?.any Text.isDigit = true := by
    rintro ds ⟨whole, fraction, hne, hdigits, hds⟩
    obtain ⟨c, whole, rfl⟩ := List.exists_cons_of_ne_nil hne
    have hc : Text.isDigit c = true := hdigits c (by simp)
    have hsign : (c == '-') = false := by
      rw [beq_eq_false_iff_ne]
      rintro rfl
      exact absurd hc (by decide)
    rcases hds with rfl | rfl <;>
    · simp only [List.cons_append, List.dropWhile_cons, hsign]
      exact hc
  rw [isNumberText, String.toList_ofList]
  rcases h with h | ⟨ds, rfl, h⟩
  · exact hdecimal text h
  · exact hdecimal ds h

/-- A text that the terminal takes is one that it admits. -/
theorem admits_of_take? {t : Terminal} {cs text rest : List Char}
    (h : t.take? cs = some (text, rest)) : t.admits (String.ofList text) = true := by
  cases t with
  | word w =>
    replace h : takeWord w.toList cs = some (text, rest) := h
    unfold takeWord at h
    split at h
    · cases h
      rw [Terminal.admits, String.ofList_toList]
      exact beq_self_eq_true w
    · cases h
  | comment =>
    replace h : takeComment cs = some (text, rest) := h
    unfold takeComment at h
    split at h
    · cases h
      simp [Terminal.admits]
    · cases h
  | literal => exact isNumberText_of_isLiteralText (isLiteralText_of_takeLiteral h)
  | variableName =>
    obtain ⟨hne, hall⟩ := takeSome_eq_some h
    rw [Terminal.admits, isVariableText, String.toList_ofList, Bool.and_eq_true, List.all_eq_true]
    exact ⟨by simpa using hne, hall⟩
  | macroName =>
    obtain ⟨hne, hall⟩ := takeSome_eq_some h
    exact isNameText_of_all hne hall
  | libraryName =>
    obtain ⟨hne, hall⟩ := takeSome_eq_some h
    exact isNameText_of_all hne hall
  | externalName =>
    replace h : takeExternal cs = some (text, rest) := h
    unfold takeExternal at h
    split at h
    · split at h
      · next c cs' hstart =>
        cases h
        refine isNameText_of_all (List.cons_ne_nil _ _) (List.forall_mem_cons.mpr
          ⟨?_, fun d hd => List.mem_takeWhile_imp hd⟩)
        simp only [isNameStart, isNameChar, Char.isAlphanum, Bool.or_eq_true] at hstart ⊢
        tauto
      · cases h
    · cases h

/-- The text up to the rest consists of the words, with a gap after each. -/
inductive Divides : List Char → List SourceWord → List Char → Prop where
  | nil {cs} : Divides cs [] cs
  | cons {t cs text mid ws rest} (h : Terminal.take? t cs = some (text, mid))
      (hrest : Divides (skipGap mid) ws rest) :
      Divides cs (⟨t, String.ofList text⟩ :: ws) rest

theorem Divides.append {cs mid rest : List Char} {ws ws' : List SourceWord}
    (h : Divides cs ws mid) (h' : Divides mid ws' rest) : Divides cs (ws ++ ws') rest := by
  induction h with
  | nil => exact h'
  | cons htake _ ih => exact .cons htake (ih h')

/-- A derivation from a text is one from words of the text. -/
theorem exists_words_of_parses {r : Rule} {cs rest : List Char} {forest : List ParseTree}
    (h : Parses r cs rest forest) : ∃ ws, Divides cs ws rest ∧ ParsesWords r ws forest := by
  refine @Parses.rec
    (fun r cs rest forest _ => ∃ ws, Divides cs ws rest ∧ ParsesWords r ws forest)
    (fun parts cs rest forest _ => ∃ ws, Divides cs ws rest ∧ ParsesWordsParts parts ws forest)
    ?production ?nil ?terminal ?rule _ _ _ _ h
  case production =>
    rintro p cs rest forest hp - ⟨ws, hws, hparts⟩
    exact ⟨ws, hws, .production hp hparts⟩
  case nil =>
    intro cs
    exact ⟨[], .nil, .nil⟩
  case terminal =>
    rintro t cs text mid parts rest forest htake - ⟨ws, hws, hparts⟩
    exact ⟨_, .cons htake hws, .terminal (admits_of_take? htake) hparts⟩
  case rule =>
    rintro r cs trees mid parts rest forest - - ⟨ws, hws, hr⟩ ⟨ws', hws', hparts⟩
    exact ⟨_, hws.append hws', .rule hr hparts⟩

/-! ## Pieces -/

/-- A word, or words that are held together. -/
inductive Piece where
  | word (text : String)
  /-- An external name after its sign. -/
  | external (name : String)
  /-- A macro call. -/
  | call (name : String) (args : List Piece)
  /-- What stands in round brackets. -/
  | round (inner : List Piece)
  /-- What stands in square brackets. -/
  | square (inner : List Piece)

mutual

/-- The words of a piece. -/
def Piece.words : Piece → List String
  | .word w => [w]
  | .external x => ["$", x]
  | .call m args => m :: "!" :: "(" :: (wordsAll args ++ [")"])
  | .round inner => "(" :: (wordsAll inner ++ [")"])
  | .square inner => "[" :: (wordsAll inner ++ ["]"])

/-- The words of pieces, one after the other. -/
def wordsAll : List Piece → List String
  | [] => []
  | i :: is => i.words ++ wordsAll is

end

theorem wordsAll_append (is js : List Piece) : wordsAll (is ++ js) = wordsAll is ++ wordsAll js := by
  induction is with
  | nil => rfl
  | cons i is ih => rw [List.cons_append, wordsAll, wordsAll, ih, List.append_assoc]

/-- The words that hold others together. -/
def holdingWords : List String :=
  ["(", ")", "[", "]", "$", "!"]

/-- A part that holds no words together and leaves no text in the parse tree. -/
def Part.isLoose : Part → Bool
  | .terminal (.word w) => !holdingWords.contains w
  | .terminal _ => false
  | .rule _ => true

mutual

/-- The pieces have a derivation of the rule that gives these trees. -/
inductive Reads : Rule → List Piece → List Tree → Prop where
  | text {r k t w} (hp : ⟨r, .node k, [.terminal t]⟩ ∈ productions) (hkept : t.isKept = true)
      (hw : t.admits w = true) : Reads r [.word w] [.text k w]
  | parts {r label body is ts} (hp : ⟨r, label, body⟩ ∈ productions)
      (hloose : body.all Part.isLoose = true) (h : ReadsParts body is ts) :
      Reads r is (label.trees ts)
  | external {r x} (hp : ⟨r, .splice, [word "$", .rule .external]⟩ ∈ productions)
      (hx : isNameText x = true) : Reads r [.external x] [.text "external" x]
  | call {m is ts} (hm : isNameText m = true) (h : Reads .exprs is ts) :
      Reads .call [.call m is] [.node "call" [.text "macro" m, .node "args" ts]]
  | round {r label r' is ts} (hp : ⟨r, label, [word "(", .rule r', word ")"]⟩ ∈ productions)
      (h : Reads r' is ts) : Reads r [.round is] (label.trees ts)
  | square {r label r' is ts} (hp : ⟨r, label, [word "[", .rule r', word "]"]⟩ ∈ productions)
      (h : Reads r' is ts) : Reads r [.square is] (label.trees ts)

/-- The pieces have a derivation of the parts, one after the other. -/
inductive ReadsParts : List Part → List Piece → List Tree → Prop where
  | nil : ReadsParts [] [] []
  | word {w parts is ts} (hparts : ReadsParts parts is ts) :
      ReadsParts (word w :: parts) (.word w :: is) ts
  | rule {r is ts parts is' ts'} (h : Reads r is ts) (hparts : ReadsParts parts is' ts') :
      ReadsParts (.rule r :: parts) (is ++ is') (ts ++ ts')

end

@[simp] theorem readsParts_nil {is : List Piece} {ts : List Tree} :
    ReadsParts [] is ts ↔ is = [] ∧ ts = [] := by
  constructor
  · rintro ⟨⟩
    exact ⟨rfl, rfl⟩
  · rintro ⟨rfl, rfl⟩
    exact .nil

@[simp] theorem readsParts_word {w : String} {parts : List Part} {is : List Piece} {ts : List Tree} :
    ReadsParts (word w :: parts) is ts ↔ ∃ is', is = .word w :: is' ∧ ReadsParts parts is' ts := by
  constructor
  · intro h
    cases h with
    | word hparts => exact ⟨_, rfl, hparts⟩
  · rintro ⟨is', rfl, h⟩
    exact .word h

@[simp] theorem readsParts_rule {r : Rule} {parts : List Part} {is : List Piece} {ts : List Tree} :
    ReadsParts (.rule r :: parts) is ts ↔ ∃ is₁ is₂ ts₁ ts₂, is = is₁ ++ is₂ ∧ ts = ts₁ ++ ts₂ ∧
      Reads r is₁ ts₁ ∧ ReadsParts parts is₂ ts₂ := by
  constructor
  · intro h
    cases h with
    | rule h hparts => exact ⟨_, _, _, _, rfl, rfl, h, hparts⟩
  · rintro ⟨is₁, is₂, ts₁, ts₂, rfl, rfl, h, hparts⟩
    exact .rule h hparts

/-! ## From words to pieces -/

/-- How a production holds words together. -/
inductive Production.Holds : Production → Prop where
  | text {r k t} (hkept : Terminal.isKept t = true) : Holds ⟨r, .node k, [.terminal t]⟩
  | loose {r label body} (h : body.all Part.isLoose = true) : Holds ⟨r, label, body⟩
  | external {r} : Holds ⟨r, .splice, [word "$", .rule .external]⟩
  | call : Holds ⟨.call, .node "call", [.rule .macroRef, word "!", .rule .args]⟩
  | round {r label r'} : Holds ⟨r, label, [word "(", .rule r', word ")"]⟩
  | square {r label r'} : Holds ⟨r, label, [word "[", .rule r', word "]"]⟩

theorem holds_of_mem {p : Production} (hp : p ∈ productions) : p.Holds := by
  have hkept : ∀ t ∈ [Terminal.comment, .literal, .variableName, .macroName, .libraryName,
      .externalName], t.isKept = true := by decide
  have hcases : ∀ p ∈ productions,
      (∃ t ∈ [Terminal.comment, .literal, .variableName, .macroName, .libraryName, .externalName],
        p.body = [.terminal t] ∧ p.label ≠ .splice) ∨
      p.body.all Part.isLoose = true ∨
      p.label = .splice ∧ p.body = [word "$", .rule .external] ∨
      p = ⟨.call, .node "call", [.rule .macroRef, word "!", .rule .args]⟩ ∨
      (∃ r ∈ [Rule.params, .exprs, .nexpr, .vexpr, .mexpr],
        p.body = [word "(", .rule r, word ")"]) ∨
      ∃ r ∈ [Rule.nexprs, .vexprs], p.body = [word "[", .rule r, word "]"] := by
    decide +kernel
  obtain ⟨r, label, body⟩ := p
  rcases hcases _ hp with ⟨t, ht, hbody, hlabel⟩ | h | ⟨hlabel, hbody⟩ | h | ⟨r', -, hbody⟩ |
    ⟨r', -, hbody⟩
  · obtain rfl : body = _ := hbody
    cases label with
    | splice => exact absurd rfl hlabel
    | node k => exact .text (hkept t ht)
  · exact .loose h
  · obtain rfl : label = _ := hlabel
    obtain rfl : body = _ := hbody
    exact .external
  · rw [h]
    exact .call
  · obtain rfl : body = _ := hbody
    exact .round
  · obtain rfl : body = _ := hbody
    exact .square

/-- The productions of a rule. -/
def productionsOf (r : Rule) : List Production :=
  productions.filter (·.head == r)

theorem mem_productionsOf {r : Rule} {label : Label} {body : List Part}
    (hp : ⟨r, label, body⟩ ∈ productions) : ⟨r, label, body⟩ ∈ productionsOf r :=
  List.mem_filter.mpr ⟨hp, beq_self_eq_true r⟩

/-- One production makes the trees of the pieces. -/
inductive Makes : Production → List Piece → List Tree → Prop where
  | text {r k t w} (hkept : Terminal.isKept t = true) (hw : t.admits w = true) :
      Makes ⟨r, .node k, [.terminal t]⟩ [.word w] [.text k w]
  | loose {r label body is ts} (hloose : body.all Part.isLoose = true)
      (h : ReadsParts body is ts) : Makes ⟨r, label, body⟩ is (label.trees ts)
  | external {r x} : Makes ⟨r, .splice, [word "$", .rule .external]⟩ [.external x]
      [.text "external" x]
  | call {m is ts} (h : Reads .exprs is ts) :
      Makes ⟨.call, .node "call", [.rule .macroRef, word "!", .rule .args]⟩ [.call m is]
        [.node "call" [.text "macro" m, .node "args" ts]]
  | round {r label r' is ts} (h : Reads r' is ts) :
      Makes ⟨r, label, [word "(", .rule r', word ")"]⟩ [.round is] (label.trees ts)
  | square {r label r' is ts} (h : Reads r' is ts) :
      Makes ⟨r, label, [word "[", .rule r', word "]"]⟩ [.square is] (label.trees ts)

theorem Reads.exists_makes {r : Rule} {is : List Piece} {ts : List Tree} (h : Reads r is ts) :
    ∃ p ∈ productionsOf r, Makes p is ts := by
  cases h with
  | text hp hkept hw => exact ⟨_, mem_productionsOf hp, .text hkept hw⟩
  | parts hp hloose h => exact ⟨_, mem_productionsOf hp, .loose hloose h⟩
  | external hp => exact ⟨_, mem_productionsOf hp, .external⟩
  | call _ h => exact ⟨_, mem_productionsOf (by decide +kernel), .call h⟩
  | round hp h => exact ⟨_, mem_productionsOf hp, .round h⟩
  | square hp h => exact ⟨_, mem_productionsOf hp, .square h⟩

section

variable {r r' : Rule} {label : Label} {body : List Part} {is : List Piece} {ts : List Tree}

theorem not_isLoose {t : Terminal} (hkept : t.isKept = true) :
    [Part.terminal t].all Part.isLoose ≠ true := by
  cases t with
  | word w => cases hkept
  | _ => decide

theorem makes_text {k : String} {t : Terminal} (hkept : t.isKept = true)
    (h : Makes ⟨r, .node k, [.terminal t]⟩ is ts) :
    ∃ w, t.admits w = true ∧ is = [.word w] ∧ ts = [.text k w] := by
  cases h with
  | text _ hw => exact ⟨_, hw, rfl, rfl⟩
  | loose hloose => exact absurd hloose (not_isLoose hkept)

theorem makes_loose (hloose : body.all Part.isLoose = true) (h : Makes ⟨r, label, body⟩ is ts) :
    ∃ us, ReadsParts body is us ∧ ts = label.trees us := by
  cases h with
  | text hkept => exact absurd hloose (not_isLoose hkept)
  | loose _ h => exact ⟨_, h, rfl⟩
  | external => cases hloose
  | call => cases hloose
  | round => cases hloose
  | square => cases hloose

theorem makes_round (h : Makes ⟨r, label, [word "(", .rule r', word ")"]⟩ is ts) :
    ∃ inner us, is = [.round inner] ∧ Reads r' inner us ∧ ts = label.trees us := by
  generalize hp : (⟨r, label, [word "(", .rule r', word ")"]⟩ : Production) = p at h
  cases h with
  | loose hloose =>
    cases hp
    cases hloose
  | round h =>
    simp only [Production.mk.injEq, List.cons.injEq, Part.rule.injEq, and_true, true_and] at hp
    obtain ⟨rfl, rfl, rfl⟩ := hp
    exact ⟨_, _, rfl, h, rfl⟩
  | _ => simp [word] at hp

theorem makes_square (h : Makes ⟨r, label, [word "[", .rule r', word "]"]⟩ is ts) :
    ∃ inner us, is = [.square inner] ∧ Reads r' inner us ∧ ts = label.trees us := by
  generalize hp : (⟨r, label, [word "[", .rule r', word "]"]⟩ : Production) = p at h
  cases h with
  | loose hloose =>
    cases hp
    cases hloose
  | square h =>
    simp only [Production.mk.injEq, List.cons.injEq, Part.rule.injEq, and_true, true_and] at hp
    obtain ⟨rfl, rfl, rfl⟩ := hp
    exact ⟨_, _, rfl, h, rfl⟩
  | _ => simp [word] at hp

theorem makes_external (h : Makes ⟨r, .splice, [word "$", .rule .external]⟩ is ts) :
    ∃ x, is = [.external x] ∧ ts = [.text "external" x] := by
  generalize hp : (⟨r, .splice, [word "$", .rule .external]⟩ : Production) = p at h
  cases h with
  | loose hloose =>
    cases hp
    cases hloose
  | external => exact ⟨_, rfl, rfl⟩
  | _ => simp [word] at hp

theorem makes_call
    (h : Makes ⟨.call, .node "call", [.rule .macroRef, word "!", .rule .args]⟩ is ts) :
    ∃ m inner us, is = [.call m inner] ∧ Reads .exprs inner us ∧
      ts = [.node "call" [.text "macro" m, .node "args" us]] := by
  generalize hp : (⟨.call, .node "call", [.rule .macroRef, word "!", .rule .args]⟩ : Production) = p
    at h
  cases h with
  | loose hloose =>
    cases hp
    cases hloose
  | call h => exact ⟨_, _, _, rfl, h, rfl⟩
  | _ => simp [word] at hp

end

theorem isPlain_of_isLoose {body : List Part} (h : body.all Part.isLoose = true) :
    body.all Part.isPlain = true := by
  rw [List.all_eq_true] at h ⊢
  intro part hpart
  have hloose := h part hpart
  cases part with
  | rule r => rfl
  | terminal t =>
    cases t with
    | word w => rfl
    | _ => cases hloose

theorem toTrees_apply {label : Label} {forest : List ParseTree} {ts : List Tree}
    (h : ParseTree.toTrees forest = .ok ts) :
    ParseTree.toTrees (label.apply forest) = .ok (label.trees ts) := by
  cases label with
  | node k => exact ParseTree.toTrees_singleton (ParseTree.toTree_branch h)
  | splice => exact h

/-- A rule for names and other texts. -/
theorem Reads.of_textRule {r : Rule} {k : String} {t : Terminal}
    (hr : productionsOf r = [⟨r, .node k, [.terminal t]⟩]) (hkept : t.isKept = true)
    {is : List Piece} {ts : List Tree} (h : Reads r is ts) :
    ∃ w, t.admits w = true ∧ is = [.word w] ∧ ts = [.text k w] := by
  obtain ⟨p, hp, hmakes⟩ := h.exists_makes
  rw [hr, List.mem_singleton] at hp
  rw [hp] at hmakes
  exact makes_text hkept hmakes

/-- The arguments of a macro call stand in round brackets. -/
theorem Reads.of_args {is : List Piece} {ts : List Tree} (h : Reads .args is ts) :
    ∃ inner us, is = [.round inner] ∧ Reads .exprs inner us ∧ ts = [.node "args" us] := by
  obtain ⟨p, hp, hmakes⟩ := h.exists_makes
  have hargs : productionsOf .args = [⟨.args, .node "args", [word "(", .rule .exprs, word ")"]⟩] :=
    rfl
  rw [hargs, List.mem_singleton] at hp
  rw [hp] at hmakes
  exact makes_round hmakes

/-- A derivation from words is one from pieces that have these words. -/
theorem reads_of_parsesWords {r : Rule} {ws : List SourceWord} {forest : List ParseTree}
    (h : ParsesWords r ws forest) :
    ∃ is ts, wordsAll is = ws.map SourceWord.text ∧ ParseTree.toTrees forest = .ok ts ∧
      Reads r is ts := by
  -- the second motive is for the parts of a production that leave no text; here the words that hold
  -- others together are still pieces of their own
  refine @ParsesWords.rec
    (fun r ws forest _ => ∃ is ts, wordsAll is = ws.map SourceWord.text ∧
      ParseTree.toTrees forest = .ok ts ∧ Reads r is ts)
    (fun parts ws forest _ => parts.all Part.isPlain = true → ∃ is ts,
      wordsAll is = ws.map SourceWord.text ∧ ParseTree.toTrees forest = .ok ts ∧
      ReadsParts parts is ts) ?production ?nil ?terminal ?rule _ _ _ h
  case production =>
    intro p ws forest hp hparts ih
    cases holds_of_mem hp with
    | text hkept =>
      cases hparts with
      | terminal hw hnil =>
        cases hnil
        rw [if_pos hkept]
        exact ⟨[.word _], _, rfl, rfl, .text hp hkept hw⟩
    | @loose r label body hloose =>
      obtain ⟨is, ts, hwords, hts, hreads⟩ := ih (isPlain_of_isLoose hloose)
      exact ⟨is, label.trees ts, hwords, toTrees_apply hts, .parts hp hloose hreads⟩
    | external =>
      obtain ⟨is, ts, hwords, hts, hreads⟩ := ih rfl
      simp only [readsParts_word, readsParts_rule, readsParts_nil] at hreads
      obtain ⟨_, rfl, is₁, _, ts₁, _, rfl, rfl, hname, rfl, rfl⟩ := hreads
      obtain ⟨x, hx, rfl, rfl⟩ := hname.of_textRule rfl rfl
      exact ⟨[.external x], _, hwords, hts, .external hp hx⟩
    | call =>
      obtain ⟨is, ts, hwords, hts, hreads⟩ := ih rfl
      simp only [readsParts_word, readsParts_rule, readsParts_nil] at hreads
      obtain ⟨is₁, _, ts₁, _, rfl, rfl, hname, _, rfl, is₂, _, ts₂, _, rfl, rfl, hargs, rfl, rfl⟩ :=
        hreads
      obtain ⟨m, hm, rfl, rfl⟩ := hname.of_textRule rfl rfl
      obtain ⟨inner, us, rfl, hinner, rfl⟩ := hargs.of_args
      refine ⟨[.call m inner], _, ?_, toTrees_apply hts, .call hm hinner⟩
      rw [← hwords]
      rfl
    | round =>
      obtain ⟨is, ts, hwords, hts, hreads⟩ := ih rfl
      simp only [readsParts_word, readsParts_rule, readsParts_nil] at hreads
      obtain ⟨_, rfl, inner, _, us, _, rfl, rfl, hinner, _, rfl, rfl, rfl⟩ := hreads
      rw [List.append_nil] at hts
      refine ⟨[.round inner], _, ?_, toTrees_apply hts, .round hp hinner⟩
      rw [← hwords]
      simp only [wordsAll, Piece.words, wordsAll_append, List.append_nil]
      rfl
    | square =>
      obtain ⟨is, ts, hwords, hts, hreads⟩ := ih rfl
      simp only [readsParts_word, readsParts_rule, readsParts_nil] at hreads
      obtain ⟨_, rfl, inner, _, us, _, rfl, rfl, hinner, _, rfl, rfl, rfl⟩ := hreads
      rw [List.append_nil] at hts
      refine ⟨[.square inner], _, ?_, toTrees_apply hts, .square hp hinner⟩
      rw [← hwords]
      simp only [wordsAll, Piece.words, wordsAll_append, List.append_nil]
      rfl
  case nil =>
    intro _
    exact ⟨[], [], rfl, rfl, .nil⟩
  case terminal =>
    intro t text parts ws forest hw _ ih hplain
    rw [List.all_cons, Bool.and_eq_true] at hplain
    obtain ⟨is, ts, hwords, hts, hreads⟩ := ih hplain.2
    cases t with
    | word w =>
      obtain rfl : w = text := beq_iff_eq.mp hw
      refine ⟨.word w :: is, ts, ?_, hts, .word hreads⟩
      rw [wordsAll, hwords]
      rfl
    | _ => exact absurd hplain.1 (by decide)
  case rule =>
    intro r ws trees parts ws' forest _ _ ih ihparts hplain
    rw [List.all_cons, Bool.and_eq_true] at hplain
    obtain ⟨is, ts, hwords, hts, hreads⟩ := ih
    obtain ⟨is', ts', hwords', hts', hreads'⟩ := ihparts hplain.2
    refine ⟨is ++ is', ts ++ ts', ?_, ParseTree.toTrees_append hts hts', .rule hreads hreads'⟩
    rw [wordsAll_append, hwords, hwords', List.map_append]

/-! ## From words back to pieces -/

/-- Pieces that have been put together from the last one on, and arguments that wait for the name
of their macro. -/
structure Frame where
  pieces : List Piece
  args : Option (List Piece)

/-- Put a word before the pieces of the innermost open brackets, which come first. -/
def push (w : String) : List Frame → List Frame
  | [] => []
  | f :: stack =>
    if w == ")" || w == "]" then ⟨[], none⟩ :: f :: stack
    else if w == "(" || w == "[" then
      match stack with
      | [] => []
      | g :: stack =>
        ⟨(if w == "(" then .round f.pieces else .square f.pieces) :: g.pieces, none⟩ :: stack
    else if w == "!" then
      match f.pieces with
      | .round args :: rest => ⟨rest, some args⟩ :: stack
      | _ => []
    else if w == "$" then
      match f.pieces with
      | .word x :: rest => ⟨.external x :: rest, none⟩ :: stack
      | _ => []
    else
      match f.args with
      | some args => ⟨.call w args :: f.pieces, none⟩ :: stack
      | none => ⟨.word w :: f.pieces, none⟩ :: stack

/-- The pieces that words make. -/
def piecesOf (ws : List String) : List Piece :=
  match ws.foldr push [⟨[], none⟩] with
  | f :: _ => f.pieces
  | [] => []

mutual

/-- No word of the piece that could hold others together is one of its own. -/
def Piece.isClean : Piece → Bool
  | .word w => !holdingWords.contains w
  | .external x => !holdingWords.contains x
  | .call m args => !holdingWords.contains m && allClean args
  | .round inner => allClean inner
  | .square inner => allClean inner

/-- `Piece.isClean` for all pieces of a list. -/
def allClean : List Piece → Bool
  | [] => true
  | i :: is => i.isClean && allClean is

end

theorem push_of_not_holding {w : String} (h : (!holdingWords.contains w) = true)
    (f : List Piece) (stack : List Frame) :
    push w (⟨f, none⟩ :: stack) = ⟨.word w :: f, none⟩ :: stack ∧
      ∀ args, push w (⟨f, some args⟩ :: stack) = ⟨.call w args :: f, none⟩ :: stack := by
  simp only [holdingWords, List.contains_cons, List.contains_nil, Bool.or_false, Bool.not_eq_true',
    Bool.or_eq_false_iff] at h
  obtain ⟨h₁, h₂, h₃, h₄, h₅, h₆⟩ := h
  simp only [push, h₁, h₂, h₃, h₄, h₅, h₆, Bool.or_self, Bool.false_eq_true, if_false, implies_true,
    and_self]

mutual

theorem Piece.foldr_push : ∀ {i : Piece}, i.isClean = true → ∀ (f : List Piece)
    (stack : List Frame), i.words.foldr push (⟨f, none⟩ :: stack) = ⟨i :: f, none⟩ :: stack
  | .word w, h, f, stack => (push_of_not_holding h f stack).1
  | .external x, h, f, stack => by
    rw [Piece.words, List.foldr_cons, List.foldr_cons, List.foldr_nil, (push_of_not_holding h f stack).1]
    rfl
  | .call m args, h, f, stack => by
    rw [Piece.isClean, Bool.and_eq_true] at h
    rw [Piece.words, List.foldr_cons, List.foldr_cons, List.foldr_cons, List.foldr_append]
    show push m (push "!" (push "(" ((wordsAll args).foldr push (⟨[], none⟩ :: _)))) = _
    rw [foldr_push_wordsAll h.2, List.append_nil]
    exact (push_of_not_holding h.1 f stack).2 args
  | .round inner, h, f, stack => by
    rw [Piece.words, List.foldr_cons, List.foldr_append]
    show push "(" ((wordsAll inner).foldr push (⟨[], none⟩ :: _)) = _
    rw [foldr_push_wordsAll h, List.append_nil]
    rfl
  | .square inner, h, f, stack => by
    rw [Piece.words, List.foldr_cons, List.foldr_append]
    show push "[" ((wordsAll inner).foldr push (⟨[], none⟩ :: _)) = _
    rw [foldr_push_wordsAll h, List.append_nil]
    rfl

theorem foldr_push_wordsAll : ∀ {is : List Piece}, allClean is = true → ∀ (f : List Piece)
    (stack : List Frame),
    (wordsAll is).foldr push (⟨f, none⟩ :: stack) = ⟨is ++ f, none⟩ :: stack
  | [], _, _, _ => rfl
  | i :: is, h, f, stack => by
    rw [allClean, Bool.and_eq_true] at h
    rw [wordsAll, List.foldr_append, foldr_push_wordsAll h.2, Piece.foldr_push h.1, List.cons_append]

end

theorem piecesOf_wordsAll {is : List Piece} (h : allClean is = true) : piecesOf (wordsAll is) = is := by
  rw [piecesOf, foldr_push_wordsAll h]
  exact List.append_nil is

theorem not_holding_of_admits {t : Terminal} {w : String} (hkept : t.isKept = true)
    (hw : t.admits w = true) : (!holdingWords.contains w) = true := by
  have hwords : ∀ w ∈ holdingWords, ("//".toList.isPrefixOf w.toList || isNumberText w ||
      isVariableText w || isNameText w) = false := by decide +kernel
  rw [Bool.not_eq_true', ← Bool.not_eq_true, List.contains_iff_mem]
  intro hmem
  have hclass := hwords w hmem
  simp only [Bool.or_eq_false_iff] at hclass
  cases t <;> simp_all [Terminal.admits, Terminal.isKept]

theorem allClean_append (is js : List Piece) :
    allClean (is ++ js) = (allClean is && allClean js) := by
  induction is with
  | nil => rfl
  | cons i is ih => rw [List.cons_append, allClean, allClean, ih, Bool.and_assoc]

theorem Reads.allClean {r : Rule} {is : List Piece} {ts : List Tree} (h : Reads r is ts) :
    Grammar.allClean is = true := by
  refine @Reads.rec (fun _ is _ _ => Grammar.allClean is = true)
    (fun parts is _ _ => parts.all Part.isLoose = true → Grammar.allClean is = true)
    ?text ?parts ?external ?call ?round ?square ?nil ?word ?rule _ _ _ h
  case text =>
    intro r k t w _ hkept hw
    simpa [Grammar.allClean, Piece.isClean] using not_holding_of_admits hkept hw
  case parts =>
    intro r label body is ts _ hloose _ ih
    exact ih hloose
  case external =>
    intro r x _ hx
    simpa [Grammar.allClean, Piece.isClean] using
      @not_holding_of_admits .externalName x rfl hx
  case call =>
    intro m is ts hm _ ih
    simpa [Grammar.allClean, Piece.isClean, ih] using @not_holding_of_admits .macroName m rfl hm
  case round =>
    intro r label r' is ts _ _ ih
    simpa [Grammar.allClean, Piece.isClean] using ih
  case square =>
    intro r label r' is ts _ _ ih
    simpa [Grammar.allClean, Piece.isClean] using ih
  case nil =>
    intro _
    rfl
  case word =>
    intro w parts is ts _ ih hloose
    rw [List.all_cons, Bool.and_eq_true] at hloose
    rw [Grammar.allClean, ih hloose.2, Bool.and_true]
    exact hloose.1
  case rule =>
    intro r is ts parts is' ts' _ _ ih ihparts hloose
    rw [List.all_cons, Bool.and_eq_true] at hloose
    rw [allClean_append, ih, ihparts hloose.2]
    rfl

/-- Pieces that a rule reads are determined by their words. -/
theorem Reads.piecesOf_eq {r : Rule} {is : List Piece} {ts : List Tree} (h : Reads r is ts) :
    piecesOf (wordsAll is) = is :=
  piecesOf_wordsAll h.allClean

/-! ## Macro calls -/

theorem callsShaped_trees {label : Label} {ts : List Tree} (hlabel : label ≠ .node "call")
    (h : ∀ t ∈ ts, CallsShaped t) : ∀ t ∈ label.trees ts, CallsShaped t := by
  cases label with
  | splice => exact h
  | node k =>
    refine List.forall_mem_singleton.mpr (.of_forall₂ (fun hk => hlabel (by rw [hk])) ?_)
    exact List.forall₂_same.mpr h

/-- The macro calls in the trees of a derivation are as flat forms need them. -/
theorem Reads.callsShaped {r : Rule} {is : List Piece} {ts : List Tree} (h : Reads r is ts) :
    ∀ t ∈ ts, CallsShaped t := by
  have hcall : ∀ p ∈ productions, p.label = .node "call" →
      p.body = [.rule .macroRef, word "!", .rule .args] := by decide +kernel
  refine @Reads.rec (fun _ _ ts _ => ∀ t ∈ ts, CallsShaped t)
    (fun _ _ ts _ => ∀ t ∈ ts, CallsShaped t)
    ?text ?parts ?external ?call ?round ?square ?nil ?word ?rule _ _ _ h
  case text =>
    intro r k t w hp _ _
    refine List.forall_mem_singleton.mpr (.leaf _ ?_)
    rintro rfl
    cases hcall _ hp rfl
  case parts =>
    intro r label body is ts hp hloose _ ih
    refine callsShaped_trees ?_ ih
    rintro rfl
    rw [show body = _ from hcall _ hp rfl] at hloose
    cases hloose
  case external =>
    intro r x _ _
    exact List.forall_mem_singleton.mpr (.leaf _ (by decide))
  case call =>
    intro m is ts _ _ ih
    exact List.forall_mem_singleton.mpr (.of_args (List.forall₂_same.mpr ih))
  case round =>
    intro r label r' is ts hp _ ih
    refine callsShaped_trees ?_ ih
    rintro rfl
    cases hcall _ hp rfl
  case square =>
    intro r label r' is ts hp _ ih
    refine callsShaped_trees ?_ ih
    rintro rfl
    cases hcall _ hp rfl
  case nil => exact fun t ht => absurd ht List.not_mem_nil
  case word => exact fun _ ih => ih
  case rule =>
    intro r is ts parts is' ts' _ _ ih ihparts
    exact List.forall_mem_append.mpr ⟨ih, ihparts⟩

/-- A source text has a derivation from pieces, and the pieces are those of a division of the text
into words. -/
theorem exists_reads_of_isSource {cs : List Char} {p : ParseTree} (h : IsSource cs p) :
    ∃ ws is program, Divides (skipGap cs) ws [] ∧ ParsesWords .program ws [p] ∧
      wordsAll is = ws.map SourceWord.text ∧ p.toTree = .ok program ∧
      Reads .program is [program] := by
  obtain ⟨ws, hdivides, hws⟩ := exists_words_of_parses h
  obtain ⟨is, ts, hwords, hts, hreads⟩ := reads_of_parsesWords hws
  obtain ⟨_, hts', program, rfl, -⟩ := ruleShape_of_parses h
  obtain rfl := Except.ok.inj (hts'.symm.trans hts)
  exact ⟨ws, is, program, hdivides, hws, hwords, ParseTree.toTree_of_toTrees hts, hreads⟩

end Scalarize.Grammar
