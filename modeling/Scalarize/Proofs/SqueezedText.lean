import Scalarize.Proofs.ConstantFolding
import Scalarize.Proofs.PackedLines
import Scalarize.Proofs.UniqueReading

/-!
# Scalarize — taking spaces out of a printed expression

Trimming and five replacements take the superfluous spaces out of the text of an expression. Each
replacement goes through the text once.

* **`lexemes_squeeze`** — they keep the brackets and the words of every text.
* **`squeeze_spell`** — what they do to a text is said by what they do to the single gaps between
  characters: a bracket on either side takes one space away, and what is left is halved, rounded up.
* **`isRow_tokens`** — the printer leaves at most two spaces between two characters, and at most one
  next to a bracket. So one pass of each replacement is enough.
* **`squeezed_text_tokens`** — the squeezed text of an expression has the tokens of the text, and no
  space in it is superfluous.
-/

namespace Scalarize.Layout

/-! ## The tokens of a text -/

/-- A character of a word or a symbol. -/
def isPlain (c : Char) : Bool :=
  !Text.isBlank c && !isBracket c

theorem isPlain_iff {c : Char} :
    isPlain c = true ↔ Text.isBlank c = false ∧ isBracket c = false := by
  simp [isPlain]

/-- The tokens of a text: single brackets, and the longest runs of plain characters. A bracket and a
blank are cut off from both neighbours, and the blanks are left out. -/
def lexemes (cs : List Char) : List (List Char) :=
  (cs.splitBy fun a b => isPlain a && isPlain b).filter fun w => !w.all Text.isBlank

/-- A text falls apart into tokens at every character that is not plain. -/
theorem lexemes_break {c : Char} (hc : isPlain c = false) (xs ys : List Char) :
    lexemes (xs ++ c :: ys) = lexemes xs ++ lexemes [c] ++ lexemes ys := by
  have hleft : ∀ a ∈ xs.getLast?, (isPlain a && isPlain c) = false := by simp [hc]
  have hright : ∀ a ∈ [c].getLast?, ∀ b ∈ ys.head?, (isPlain a && isPlain b) = false := by
    simp [hc]
  rw [lexemes, List.splitBy_append_cons ys hleft, ← List.singleton_append,
    List.splitBy_append hright, List.filter_append, List.filter_append, ← List.append_assoc]
  rfl

theorem lexemes_blank {c : Char} (hc : Text.isBlank c = true) (xs ys : List Char) :
    lexemes (xs ++ c :: ys) = lexemes xs ++ lexemes ys := by
  have hnone : lexemes [c] = [] := by simp [lexemes, List.splitBy, List.splitBy.loop, hc]
  rw [lexemes_break (by simp [isPlain, hc]), hnone, List.append_nil]

/-- A blank next to a character that is not plain separates nothing. -/
theorem lexemes_blank_break {a b c : Char} (hc : isPlain c = false)
    (hab : Text.isBlank a = true ∧ c = b ∨ Text.isBlank b = true ∧ c = a) (xs ys : List Char) :
    lexemes (xs ++ a :: b :: ys) = lexemes (xs ++ c :: ys) := by
  rcases hab with ⟨ha, rfl⟩ | ⟨hb, rfl⟩
  · have hrest : lexemes (c :: ys) = lexemes [c] ++ lexemes ys := lexemes_break hc [] ys
    rw [lexemes_blank ha, hrest, lexemes_break hc, List.append_assoc]
  · have hrest : lexemes (b :: ys) = lexemes ys := lexemes_blank hb [] ys
    rw [lexemes_break hc, hrest, lexemes_break hc]

/-- Taking out spaces keeps the tokens of every text. -/
theorem lexemes_squeeze (cs : List Char) : lexemes (squeeze cs) = lexemes cs := by
  have hbefore : ∀ b, isPlain b = false →
      ∀ ds, lexemes (Text.replaceAll [' ', b] [b] ds) = lexemes ds :=
    fun b hb => replaceAll_keeps (lexemes_blank_break hb (.inl ⟨rfl, rfl⟩)) []
  have hafter : ∀ b, isPlain b = false →
      ∀ ds, lexemes (Text.replaceAll [b, ' '] [b] ds) = lexemes ds :=
    fun b hb => replaceAll_keeps (lexemes_blank_break hb (.inr ⟨rfl, rfl⟩)) []
  have htrim : lexemes (Text.trim cs) = lexemes cs := by
    refine trim_keeps fun c _ hblank => ⟨fun xs => ?_, fun xs => ?_⟩
    · exact lexemes_blank hblank [] xs
    · rw [lexemes_blank hblank xs []]
      exact List.append_nil _
  rw [squeeze, hbefore ' ' rfl, hafter ')' rfl, hbefore ')' rfl, hafter '(' rfl, hbefore '(' rfl,
    htrim]

example : lexemes " not (a+b)  and c".toList
    = ["not".toList, ['('], "a+b".toList, [')'], "and".toList, ['c']] := by
  decide +kernel

/-! ## The gaps of a text -/

/-- A character that is not blank, with the number of spaces before it. -/
structure Mark where
  gap : Nat
  char : Char
  visible : Text.isBlank char = false

theorem Mark.ne_space (m : Mark) : m.char ≠ ' ' :=
  ne_space_of_not_blank m.visible

theorem Mark.isPlain_char (m : Mark) : isPlain m.char = true ↔ ¬ isBracket m.char := by
  simp [isPlain_iff, m.visible]

def Mark.text (m : Mark) : List Char :=
  List.replicate m.gap ' ' ++ [m.char]

def spell (ms : List Mark) : List Char :=
  ms.flatMap Mark.text

theorem spell_cons (m : Mark) (ms : List Mark) :
    spell (m :: ms) = List.replicate m.gap ' ' ++ m.char :: spell ms := by
  simp [spell, Mark.text]

theorem spell_append (ms ns : List Mark) : spell (ms ++ ns) = spell ms ++ spell ns :=
  List.flatMap_append

/-- A row of marks with other gaps, each of which depends on the old gap and on the characters on
both sides of it. The row follows a character. -/
def regap (f : Char → Nat → Char → Nat) : Char → List Mark → List Mark
  | _, [] => []
  | c, n :: ns => { n with gap := f c n.gap n.char } :: regap f n.char ns

theorem regap_regap (f g : Char → Nat → Char → Nat) (c : Char) (ns : List Mark) :
    regap g c (regap f c ns) = regap (fun x n y => g x (f x n y) y) c ns := by
  induction ns generalizing c with
  | nil => rfl
  | cons n ns ih => simp only [regap, ih]

/-- The pass changes nothing but the gaps behind the first mark, and these by the given rule. -/
def Regaps (pass : List Char → List Char) (f : Char → Nat → Char → Nat) : Prop :=
  ∀ (m : Mark) (ns : List Mark),
    pass (m.char :: spell ns) = m.char :: spell (regap f m.char ns)

theorem Regaps.comp {pass pass' : List Char → List Char} {f f' : Char → Nat → Char → Nat}
    (h : Regaps pass f) (h' : Regaps pass' f') :
    Regaps (fun cs => pass' (pass cs)) fun x n y => f' x (f x n y) y := by
  intro m ns
  show pass' (pass _) = _
  rw [h, h', regap_regap]

/-- A pass that closes one gap after the other. -/
theorem regaps_of_step {pass : List Char → List Char} {f : Char → Nat → Char → Nat}
    (hlast : ∀ m : Mark, pass [m.char] = [m.char])
    (hstep : ∀ (m n : Mark) (cs : List Char),
      pass (m.char :: (List.replicate n.gap ' ' ++ n.char :: cs))
        = m.char :: (List.replicate (f m.char n.gap n.char) ' ' ++ pass (n.char :: cs))) :
    Regaps pass f := by
  intro m ns
  induction ns generalizing m with
  | nil => exact hlast m
  | cons n ns ih => rw [spell_cons, hstep, ih, regap, spell_cons]

theorem replaceAll_cons_of_ne {a x : Char} (hx : x ≠ a) (b c : Char) (xs : List Char) :
    Text.replaceAll [a, b] [c] (x :: xs) = x :: Text.replaceAll [a, b] [c] xs := by
  cases xs with
  | nil => exact replaceAll_single a b c x
  | cons y ys => rw [replaceAll_pair, if_neg fun h => hx h.1]

/-- A space before a character is taken out: the gap before each such character loses one. -/
theorem regaps_space_before {b : Char} (hb : b ≠ ' ') :
    Regaps (Text.replaceAll [' ', b] [b]) fun _ n y => if y = b then n - 1 else n := by
  have hgap : ∀ (k : Nat) (n : Mark) (cs : List Char),
      Text.replaceAll [' ', b] [b] (List.replicate k ' ' ++ n.char :: cs)
        = List.replicate (if n.char = b then k - 1 else k) ' '
          ++ Text.replaceAll [' ', b] [b] (n.char :: cs) := by
    intro k n cs
    induction k with
    | zero => simp
    | succ k ih =>
      cases k with
      | zero =>
        rw [replaceAll_cons_of_ne n.ne_space]
        by_cases hn : n.char = b
        · simp [replaceAll_pair, hn]
        · simp [replaceAll_pair, hn, replaceAll_cons_of_ne n.ne_space]
      | succ k =>
        -- of a longer gap only the last space stands before the character
        have hpair : ¬ (' ' = ' ' ∧ ' ' = b) := fun h => hb h.2.symm
        rw [List.replicate_succ, List.replicate_succ, List.cons_append, List.cons_append,
          replaceAll_pair, if_neg hpair, ← List.cons_append, ← List.replicate_succ, ih]
        split <;> simp [List.replicate_succ]
  refine regaps_of_step (fun m => replaceAll_single ..) fun m n cs => ?_
  rw [replaceAll_cons_of_ne m.ne_space, hgap]

/-- A space after a character is taken out: the gap after each such character loses one. -/
theorem regaps_space_after {b : Char} (hb : b ≠ ' ') :
    Regaps (Text.replaceAll [b, ' '] [b]) fun x n _ => if x = b then n - 1 else n := by
  have hspaces : ∀ (k : Nat) (cs : List Char),
      Text.replaceAll [b, ' '] [b] (List.replicate k ' ' ++ cs)
        = List.replicate k ' ' ++ Text.replaceAll [b, ' '] [b] cs := by
    intro k cs
    induction k with
    | zero => rfl
    | succ k ih =>
      rw [List.replicate_succ, List.cons_append, replaceAll_cons_of_ne hb.symm, ih]
      rfl
  refine regaps_of_step (fun m => replaceAll_single ..) fun m n cs => ?_
  by_cases hm : m.char = b
  · rw [if_pos hm]
    cases n.gap with
    | zero =>
      show Text.replaceAll _ _ (m.char :: n.char :: cs) = _
      rw [replaceAll_pair, if_neg fun h => n.ne_space h.2]
      rfl
    | succ k =>
      -- the search goes on behind the first space, so the others are kept
      show Text.replaceAll _ _ (m.char :: ' ' :: (List.replicate k ' ' ++ _)) = _
      rw [replaceAll_pair, if_pos ⟨hm, rfl⟩, hspaces, hm]
      rfl
  · rw [if_neg hm, replaceAll_cons_of_ne hm, hspaces]

/-- Two spaces become one: every gap is halved, rounded up. -/
theorem regaps_two_spaces :
    Regaps (Text.replaceAll [' ', ' '] [' ']) fun _ n _ => (n + 1) / 2 := by
  have hgap : ∀ (k : Nat) (n : Mark) (cs : List Char),
      Text.replaceAll [' ', ' '] [' '] (List.replicate k ' ' ++ n.char :: cs)
        = List.replicate ((k + 1) / 2) ' ' ++ Text.replaceAll [' ', ' '] [' '] (n.char :: cs) := by
    intro k n cs
    induction k using Nat.twoStepInduction with
    | zero => rfl
    | one =>
      show Text.replaceAll _ _ (' ' :: n.char :: cs) = _
      rw [replaceAll_pair, if_neg fun h => n.ne_space h.2]
      rfl
    | more k ih _ =>
      have hhalf : (k + 2 + 1) / 2 = (k + 1) / 2 + 1 := by omega
      show Text.replaceAll _ _ (' ' :: ' ' :: (List.replicate k ' ' ++ _)) = _
      rw [replaceAll_pair, if_pos ⟨rfl, rfl⟩, ih, hhalf]
      rfl
  refine regaps_of_step (fun m => replaceAll_single ..) fun m n cs => ?_
  rw [replaceAll_cons_of_ne m.ne_space, hgap]

/-- What is left of a gap between two characters. -/
def leftGap (x : Char) (n : Nat) (y : Char) : Nat :=
  let n := if y = '(' then n - 1 else n
  let n := if x = '(' then n - 1 else n
  let n := if y = ')' then n - 1 else n
  let n := if x = ')' then n - 1 else n
  (n + 1) / 2

theorem not_isBlank_of_mem_getLast? (m : Mark) (ns : List Mark) :
    ∀ c ∈ (m.char :: spell ns).getLast?, Text.isBlank c = false := by
  induction ns generalizing m with
  | nil => simpa [spell] using m.visible
  | cons n ns ih =>
    intro c hc
    refine ih n c ?_
    rwa [spell_cons, ← List.cons_append,
      List.getLast?_append_of_ne_nil _ (List.cons_ne_nil n.char (spell ns))] at hc

theorem trim_spell (m : Mark) (ns : List Mark) :
    Text.trim (spell (m :: ns)) = m.char :: spell ns := by
  have hfront : (spell (m :: ns)).dropWhile Text.isBlank = m.char :: spell ns := by
    have hspaces : ∀ c ∈ List.replicate m.gap ' ', Text.isBlank c = true := by
      intro c hc
      rw [List.eq_of_mem_replicate hc]
      rfl
    rw [spell_cons, List.dropWhile_append_of_pos hspaces, List.dropWhile_cons_of_neg]
    simp [m.visible]
  show ((spell (m :: ns)).dropWhile Text.isBlank).rdropWhile Text.isBlank = _
  rw [hfront, List.rdropWhile_eq_self_iff]
  intro hne
  rw [not_isBlank_of_mem_getLast? m ns _ (List.getLast_mem_getLast? hne)]
  exact Bool.false_ne_true

/-- Spaces are taken out gap by gap. -/
theorem squeeze_spell (m : Mark) (ns : List Mark) :
    squeeze (spell (m :: ns)) = m.char :: spell (regap leftGap m.char ns) := by
  have hbracket : ∀ b, b ≠ ' ' → Regaps (fun cs =>
      Text.replaceAll [b, ' '] [b] (Text.replaceAll [' ', b] [b] cs)) _ :=
    fun b hb => (regaps_space_before hb).comp (regaps_space_after hb)
  rw [squeeze, trim_spell]
  have hbrackets := (hbracket '(' (by decide)).comp (hbracket ')' (by decide))
  exact hbrackets.comp regaps_two_spaces m ns

-- of three spaces two are left, so not every text becomes tight
example : squeeze "a   b (  c)".toList = "a  b( c)".toList := by
  decide +kernel

/-! ## Texts without superfluous spaces -/

/-- No space stands at an end of the text, next to another space or next to a bracket. -/
structure IsTight (cs : List Char) : Prop where
  head : cs.head? ≠ some ' '
  last : cs.getLast? ≠ some ' '
  single : ¬ [' ', ' '] <:+: cs
  bracket : ∀ b, isBracket b → ¬ [' ', b] <:+: cs ∧ ¬ [b, ' '] <:+: cs

/-- At most so many spaces stand between the marks, and fewer next to a bracket. -/
def Within (k : Nat) (m n : Mark) : Prop :=
  n.gap ≤ k ∧ (isBracket m.char ∨ isBracket n.char → n.gap < k)

/-- The spaces before the first mark do not matter for those between the marks. -/
theorem isChain_within_of_char_eq {k : Nat} {m m' : Mark} {ns : List Mark}
    (h : (m :: ns).IsChain (Within k)) (hm' : m'.char = m.char) :
    (m' :: ns).IsChain (Within k) := by
  cases ns with
  | nil => exact List.isChain_singleton m'
  | cons n ns =>
    obtain ⟨hgap, hrest⟩ := List.isChain_cons_cons.mp h
    refine List.isChain_cons_cons.mpr ⟨?_, hrest⟩
    rwa [Within, hm']

/-- Where there are at most two spaces, no superfluous one is left. -/
theorem within_leftGap {m n : Mark} (h : Within 2 m n) :
    Within 1 m { n with gap := leftGap m.char n.gap n.char } := by
  obtain ⟨htwo, hone⟩ := h
  simp only [Within, isBracket, Bool.or_eq_true, beq_iff_eq] at hone ⊢
  unfold leftGap
  grind

theorem isChain_regap {m : Mark} {ns : List Mark} (h : (m :: ns).IsChain (Within 2)) :
    (m :: regap leftGap m.char ns).IsChain (Within 1) := by
  induction ns generalizing m with
  | nil => exact List.isChain_singleton m
  | cons n ns ih =>
    obtain ⟨hgap, hrest⟩ := List.isChain_cons_cons.mp h
    refine List.isChain_cons_cons.mpr ⟨within_leftGap hgap, ?_⟩
    exact isChain_within_of_char_eq (ih hrest) rfl

/-- Neighbours of which one may be a space: the other is plain then. -/
def MayMeet (a b : Char) : Prop :=
  (a = ' ' → isPlain b = true) ∧ (b = ' ' → isPlain a = true)

theorem isChain_mayMeet {m : Mark} {ns : List Mark} (h : (m :: ns).IsChain (Within 1)) :
    (m.char :: spell ns).IsChain MayMeet := by
  induction ns generalizing m with
  | nil => exact List.isChain_singleton m.char
  | cons n ns ih =>
    obtain ⟨⟨hone, hnone⟩, hrest⟩ := List.isChain_cons_cons.mp h
    have hrest := ih hrest
    rw [spell_cons]
    obtain hgap | hgap : n.gap = 0 ∨ n.gap = 1 := by omega
    · rw [hgap]
      exact List.isChain_cons_cons.mpr
        ⟨⟨fun hm => absurd hm m.ne_space, fun hn => absurd hn n.ne_space⟩, hrest⟩
    · -- a gap that is left has no bracket at its ends
      have hplain : isPlain m.char = true ∧ isPlain n.char = true := by
        rw [m.isPlain_char, n.isPlain_char, ← not_or]
        intro hbracket
        have := hnone hbracket
        omega
      rw [hgap]
      refine List.isChain_cons_cons.mpr ⟨⟨fun hm => absurd hm m.ne_space, fun _ => hplain.1⟩, ?_⟩
      exact List.isChain_cons_cons.mpr
        ⟨⟨fun _ => hplain.2, fun hn => absurd hn n.ne_space⟩, hrest⟩

theorem isTight_of_isChain {m : Mark} {ns : List Mark} (h : (m :: ns).IsChain (Within 1)) :
    IsTight (m.char :: spell ns) := by
  have hmeet : ∀ {a b}, [a, b] <:+: m.char :: spell ns → MayMeet a b := by
    rintro a b ⟨xs, ys, hsplit⟩
    have hchain := isChain_mayMeet h
    rw [← hsplit, List.append_assoc] at hchain
    exact (List.isChain_cons_cons.mp hchain.right_of_append).1
  have hbracket : ∀ b, isBracket b → ¬ isPlain b = true := by
    intro b hb hplain
    rw [(isPlain_iff.mp hplain).2] at hb
    cases hb
  refine ⟨?_, ?_, ?_, ?_⟩
  · intro hhead
    exact m.ne_space (Option.some.inj hhead)
  · intro hlast
    exact ne_space_of_not_blank (not_isBlank_of_mem_getLast? m ns ' ' hlast) rfl
  · intro hspaces
    exact absurd ((hmeet hspaces).1 rfl) (by decide)
  · intro b hb
    exact ⟨fun hspace => hbracket b hb ((hmeet hspace).1 rfl),
      fun hspace => hbracket b hb ((hmeet hspace).2 rfl)⟩

/-! ## The gaps of a printed expression -/

/-- A text with at most two spaces between its characters, at most one next to a bracket and at most
one at its start, but none before a bracket there. It does not end in a space. -/
def IsRow (cs : List Char) : Prop :=
  ∃ m ns, cs = spell (m :: ns) ∧ m.gap ≤ 1 ∧ (isBracket m.char → m.gap = 0) ∧
    (m :: ns).IsChain (Within 2)

theorem IsRow.isTight_squeeze {cs : List Char} (h : IsRow cs) : IsTight (squeeze cs) := by
  obtain ⟨m, ns, rfl, -, -, hchain⟩ := h
  rw [squeeze_spell]
  exact isTight_of_isChain (isChain_regap hchain)

theorem IsRow.append {cs ds : List Char} (hcs : IsRow cs) (hds : IsRow ds) : IsRow (cs ++ ds) := by
  obtain ⟨m, ms, rfl, hm, hmb, hms⟩ := hcs
  obtain ⟨n, ns, rfl, hn, hnb, hns⟩ := hds
  refine ⟨m, ms ++ n :: ns, ?_, hm, hmb, ?_⟩
  · rw [← List.cons_append, spell_append]
  · rw [← List.cons_append]
    -- the second text begins with one space at most, whatever it is that it follows
    refine List.IsChain.append hms hns fun x _ y hy => ?_
    obtain rfl := Option.some.inj hy
    exact ⟨by omega, fun _ => by omega⟩

/-- A single character, perhaps with a space before it. -/
theorem isRow_char {c : Char} (hc : Text.isBlank c = false) {k : Nat} (hk : k ≤ 1)
    (hb : isBracket c → k = 0) : IsRow (List.replicate k ' ' ++ [c]) :=
  ⟨⟨k, c, hc⟩, [], by simp [spell, Mark.text], hk, hb, List.isChain_singleton _⟩

theorem IsRow.bracketed {ts : List Token} (h : IsRow (ts.flatMap Token.text)) (b : Bool) :
    IsRow ((Layout.bracketed b ts).flatMap Token.text) := by
  cases b with
  | false => exact h
  | true =>
    have hopening : IsRow ['('] := isRow_char (k := 0) rfl (Nat.zero_le 1) fun _ => rfl
    have hclosing : IsRow [')'] := isRow_char (k := 0) rfl (Nat.zero_le 1) fun _ => rfl
    simpa [Layout.bracketed, Token.text] using hopening.append (h.append hclosing)

theorem isRow_plain {c : Char} (hc : isPlain c = true) {k : Nat} (hk : k ≤ 1) :
    IsRow (List.replicate k ' ' ++ [c]) := by
  obtain ⟨hblank, hbracket⟩ := isPlain_iff.mp hc
  exact isRow_char hblank hk (by simp [hbracket])

/-- A space between a plain character and a text adds to the gap at the start of the text. -/
theorem IsRow.plain_space {cs : List Char} (h : IsRow cs) {c : Char} (hc : isPlain c = true)
    {k : Nat} (hk : k ≤ 1) : IsRow (List.replicate k ' ' ++ c :: ' ' :: cs) := by
  obtain ⟨hblank, hbracket⟩ := isPlain_iff.mp hc
  obtain ⟨m, ms, rfl, hm, hmb, hms⟩ := h
  have hgap : Within 2 ⟨k, c, hblank⟩ { m with gap := m.gap + 1 } := by
    refine ⟨Nat.succ_le_succ hm, ?_⟩
    rintro (hb | hb)
    · simp [hbracket] at hb
    · simp [hmb hb]
  refine ⟨⟨k, c, hblank⟩, { m with gap := m.gap + 1 } :: ms, ?_, hk, by simp [hbracket], ?_⟩
  · simp [spell_cons, List.replicate_succ]
  · exact List.isChain_cons_cons.mpr ⟨hgap, isChain_within_of_char_eq hms rfl⟩

/-- A text of plain characters. -/
structure IsPlainText (cs : List Char) : Prop where
  chars : ∀ c ∈ cs, isPlain c = true
  start : cs ≠ []

instance (cs : List Char) : Decidable (IsPlainText cs) :=
  decidable_of_iff (cs.all isPlain = true ∧ cs ≠ [])
    ⟨fun h => ⟨List.all_eq_true.mp h.1, h.2⟩, fun h => ⟨List.all_eq_true.mpr h.chars, h.start⟩⟩

/-- What may follow a plain character may follow a plain text. -/
theorem IsPlainText.isRow_append {w cs : List Char} (h : IsPlainText w)
    (hcs : ∀ c k, isPlain c = true → k ≤ 1 → IsRow (List.replicate k ' ' ++ c :: cs)) {k : Nat}
    (hk : k ≤ 1) : IsRow (List.replicate k ' ' ++ w ++ cs) := by
  induction w generalizing k with
  | nil => exact absurd rfl h.start
  | cons c w ih =>
    have hc : isPlain c = true := h.chars c List.mem_cons_self
    cases w with
    | nil => simpa using hcs c k hc hk
    | cons d w =>
      have hrest : IsPlainText (d :: w) :=
        ⟨fun e he => h.chars e (List.mem_cons_of_mem c he), List.cons_ne_nil d w⟩
      simpa using (isRow_plain hc hk).append (ih hrest (Nat.zero_le 1))

theorem IsPlainText.isRow {w : List Char} (h : IsPlainText w) : IsRow w := by
  have hrow : IsRow (List.replicate 0 ' ' ++ w ++ []) :=
    h.isRow_append (fun _ _ hc hk => isRow_plain hc hk) (Nat.zero_le 1)
  simpa using hrow

theorem isPlainText_operator {k : String} (hk : k ∈ unaryKinds ++ binaryKinds) :
    IsPlainText (operator k).symbol.toList :=
  ⟨fun c hc => isPlain_iff.mpr (operator_plain hk c hc), (operator_chars hk).1⟩

theorem IsRow.after_operator {k : String} (hk : k ∈ unaryKinds ++ binaryKinds) {cs : List Char}
    (h : IsRow cs) : IsRow ((operatorText (operator k)).toList ++ cs) := by
  have hplain := isPlainText_operator hk
  rw [operatorText]
  split
  · -- the space after the word may meet one at the start of the operand
    simpa using hplain.isRow_append (fun _ _ hc hk => h.plain_space hc hk) le_rfl
  · exact hplain.isRow.append h

/-- The leaves of the expression are printed as plain texts. -/
def PlainLeaves (e : Tree) : Prop :=
  ∀ k v, Tree.leaf k v ∈ e.nodes → IsPlainText (Tree.valueText v).toList

theorem PlainLeaves.child {e x : Tree} (h : PlainLeaves e) (hx : x ∈ e.children) :
    PlainLeaves x :=
  fun k v hv => h k v (Tree.mem_nodes_of_child hx hv)

/-- The text of an expression is such a row, whatever operator stands around it. -/
theorem isRow_tokens {e : Tree} (he : HasOperands e) (hleaves : PlainLeaves e) (outer : Nat) :
    IsRow ((tokens outer e).flatMap Token.text) := by
  induction he generalizing outer with
  | leaf k v =>
    have hplain := hleaves k v (Tree.mem_nodes_self _)
    simpa [tokens, Token.text] using hplain.isRow
  | @unary k v x hk _ ihx =>
    have hx := ihx (hleaves.child (by simp [Tree.children])) (precedence k)
    rw [tokens]
    refine IsRow.bracketed ?_ _
    exact hx.after_operator (List.mem_append_left _ hk)
  | @binary k v x y hk _ _ ihx ihy =>
    have hx := ihx (hleaves.child (by simp [Tree.children])) (precedence k)
    have hy := ihy (hleaves.child (by simp [Tree.children])) (precedence k)
    rw [tokens]
    refine IsRow.bracketed ?_ _
    rw [List.flatMap_append]
    exact hx.append (hy.after_operator (List.mem_append_right _ hk))

/-- An expression in which every operator has its operands and every leaf is printed as a plain text
has a text. The squeezed text has the same tokens and no superfluous space, and it is what stands on
the right side of an assignment. -/
theorem squeezed_text_tokens {e : Tree} (he : HasOperands e) (hleaves : PlainLeaves e) :
    ∃ s, expression 0 e = .ok s ∧ lexemes (squeeze s.toList) = lexemes s.toList ∧
      IsTight (squeeze s.toList) ∧ ∀ t x : Tree, t.children = [x, e] →
        assignment t = .ok (x.name ++ "=" ++ String.ofList (squeeze s.toList)) := by
  obtain ⟨s, hs, htext⟩ := he.expression_eq 0
  have hrow : IsRow s.toList := by
    rw [htext]
    exact isRow_tokens he hleaves 0
  exact ⟨s, hs, lexemes_squeeze s.toList, hrow.isTight_squeeze,
    fun t x hchildren => assignment_eq hchildren hs⟩

/-- An expression with words next to words and to brackets on either side. -/
def wordyExpression : Tree :=
  .node "and" [
    .node "or" [
      .node "and" [.variableNamed "a", .variableNamed "b"],
      .node "neg" [.node "not" [.variableNamed "c"]]],
    .node "not" [.node "abs" [.node "add" [.variableNamed "d", .text "number" "-5"]]]]

theorem hasOperands_wordyExpression : HasOperands wordyExpression :=
  .binary (by decide)
    (.binary (by decide) (.binary (by decide) (.leaf _ _) (.leaf _ _))
      (.unary (by decide) (.unary (by decide) (.leaf _ _))))
    (.unary (by decide) (.unary (by decide) (.binary (by decide) (.leaf _ _) (.leaf _ _))))

theorem plainLeaves_wordyExpression : PlainLeaves wordyExpression := by
  intro k v h
  simp only [wordyExpression, Tree.node, Tree.variableNamed, Tree.text, Tree.nodes_branch,
    Tree.nodes_leaf, List.flatMap_cons, List.flatMap_nil, List.mem_cons, List.mem_append,
    Tree.leaf.injEq, List.not_mem_nil, reduceCtorEq, or_false, false_or] at h
  rcases h with ((⟨-, rfl⟩ | ⟨-, rfl⟩) | ⟨-, rfl⟩) | ⟨-, rfl⟩ | ⟨-, rfl⟩ <;> decide

theorem squeezed_text_wordyExpression :
    HasOperands wordyExpression ∧ PlainLeaves wordyExpression ∧
    Tree.leaf "number" (some (.text "-5")) ∈ wordyExpression.nodes ∧
    expression 0 wordyExpression = .ok "(a and b) or -( not c) and  not  abs (d+-5)" ∧
    lexemes (squeeze "(a and b) or -( not c) and  not  abs (d+-5)".toList)
      = lexemes "(a and b) or -( not c) and  not  abs (d+-5)".toList ∧
    IsTight "(a and b)or -(not c)and not abs(d+-5)".toList ∧
    assignment (.node "assignment" [.variableNamed "x", wordyExpression])
      = .ok "x=(a and b)or -(not c)and not abs(d+-5)" := by
  obtain ⟨s, hs, htokens, htight, htext⟩ :=
    squeezed_text_tokens hasOperands_wordyExpression plainLeaves_wordyExpression
  have hprinted : expression 0 wordyExpression
      = .ok "(a and b) or -( not c) and  not  abs (d+-5)" := rfl
  obtain rfl : "(a and b) or -( not c) and  not  abs (d+-5)" = s :=
    Except.ok.inj (hprinted.symm.trans hs)
  have hsqueezed : squeeze "(a and b) or -( not c) and  not  abs (d+-5)".toList
      = "(a and b)or -(not c)and not abs(d+-5)".toList := by decide +kernel
  rw [hsqueezed] at htight
  refine ⟨hasOperands_wordyExpression, plainLeaves_wordyExpression, ?_, hprinted, htokens, htight,
    ?_⟩
  · simp [wordyExpression, Tree.node, Tree.text, Tree.nodes_branch, Tree.nodes_leaf]
  · rw [htext _ _ rfl, hsqueezed]
    rfl

end Scalarize.Layout
