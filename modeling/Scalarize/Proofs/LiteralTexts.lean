import Mathlib
import Scalarize.Expression
import Scalarize.Grammar.Terminal

/-!
# Scalarize — number literals can be read

The grammar takes digits of any script for a number literal. The reader of number texts trims
blanks, turns the digits into ASCII ones and drops underscores before it looks at the text; none of
this touches a literal but for its digits, so every literal stands for a number.

* **`isSome_literalOf`** — the text of a literal stands for a number.
-/

namespace Scalarize

open Grammar

/-! ## Digits -/

/-- The code points of digits are no blanks. -/
theorem digitZeros_not_blank : ∀ z ∈ Text.digitZeros, ∀ k < 10,
    ¬ ((9 ≤ z + k ∧ z + k ≤ 13) ∨ (0x1c ≤ z + k ∧ z + k ≤ 0x20) ∨ z + k = 0x85 ∨ z + k = 0xa0 ∨
      z + k = 0x1680 ∨ (0x2000 ≤ z + k ∧ z + k ≤ 0x200a) ∨ z + k = 0x2028 ∨ z + k = 0x2029 ∨
      z + k = 0x202f ∨ z + k = 0x205f ∨ z + k = 0x3000) := by
  decide +kernel

/-- A digit of some script stands in the ten code points of its zero. -/
theorem exists_zero_of_digitValue {c : Char} {d : Nat} (h : Text.digitValue? c = some d) :
    ∃ z ∈ Text.digitZeros, c.toNat = z + d ∧ d < 10 := by
  unfold Text.digitValue? at h
  split at h
  · split at h
    · next hd =>
      have hd' : 48 ≤ c.toNat ∧ c.toNat ≤ 57 := by
        simpa [Char.isDigit, UInt32.le_iff_toNat_le] using hd
      refine ⟨0x30, by decide, ?_, ?_⟩ <;> (cases h; omega)
    · cases h
  · obtain ⟨z, hz, rfl⟩ := Option.map_eq_some_iff.mp h
    have hmem := List.mem_of_find?_eq_some hz
    have hin := List.find?_some hz
    simp only [Bool.and_eq_true, decide_eq_true_eq] at hin
    exact ⟨z, hmem, by omega, by omega⟩

theorem not_blank_of_isDigit {c : Char} (h : Text.isDigit c = true) :
    Text.isNumberBlank c = false := by
  obtain ⟨d, hd⟩ := Option.isSome_iff_exists.mp h
  obtain ⟨z, hz, hc, hlt⟩ := exists_zero_of_digitValue hd
  have hno := digitZeros_not_blank z hz d hlt
  rw [← hc] at hno
  unfold Text.isNumberBlank Text.isBlank
  simp only [Bool.and_eq_false_imp, Bool.or_eq_true, Bool.and_eq_true, decide_eq_true_eq,
    beq_iff_eq]
  intro hblank
  simp only [or_assoc] at hblank
  exact (hno hblank).elim

/-- The ASCII form of a digit. -/
theorem exists_ascii {c : Char} (h : Text.isDigit c = true) :
    ∃ d, Text.digitValue? c = some d ∧ (Char.ofNat (0x30 + d)).isDigit = true ∧
      Char.ofNat (0x30 + d) ≠ '_' := by
  obtain ⟨d, hd⟩ := Option.isSome_iff_exists.mp h
  obtain ⟨z, -, -, hlt⟩ := exists_zero_of_digitValue hd
  have hall : ∀ d < 10, (Char.ofNat (0x30 + d)).isDigit = true ∧ Char.ofNat (0x30 + d) ≠ '_' := by
    decide
  exact ⟨d, hd, hall d hlt⟩

theorem asciiDigits_digits {ds : List Char} (h : ∀ c ∈ ds, Text.isDigit c = true) :
    ∀ c ∈ asciiDigits ds, c.isDigit = true ∧ c ≠ '_' := by
  intro c hc
  obtain ⟨b, hb, rfl⟩ := List.mem_map.mp hc
  obtain ⟨d, hd, hdigit⟩ := exists_ascii (h b hb)
  rw [hd]
  exact hdigit

/-! ## The reader on a literal -/

theorem trimBy_eq_self {p : Char → Bool} {cs : List Char} (h : ∀ c ∈ cs, p c = false) :
    Text.trimBy p cs = cs := by
  have hdrop : ∀ ds : List Char, (∀ c ∈ ds, p c = false) → ds.dropWhile p = ds := by
    intro ds hds
    cases ds with
    | nil => rfl
    | cons d ds => rw [List.dropWhile_cons, hds d List.mem_cons_self]; rfl
  rw [Text.trimBy, hdrop cs h, hdrop _ fun c hc => h c (List.mem_reverse.mp hc),
    List.reverse_reverse]

theorem dropUnderscores_eq_self {cs : List Char} (h : ∀ c ∈ cs, c ≠ '_') (after : Bool) :
    dropUnderscores after cs = some cs := by
  induction cs generalizing after with
  | nil => rfl
  | cons c cs ih =>
    have hrest := ih fun d hd => h d (List.mem_cons_of_mem _ hd)
    have hc := h c List.mem_cons_self
    unfold dropUnderscores
    split
    · next heq => cases heq
    · next heq => cases heq; exact absurd rfl hc
    · next heq => cases heq; rw [hrest]; rfl

/-- Digits, and perhaps a point with digits after it. -/
def IsDecimal (isDigit : Char → Bool) (cs : List Char) : Prop :=
  ∃ whole fraction, whole ≠ [] ∧ (∀ c ∈ whole ++ fraction, isDigit c = true) ∧
    (cs = whole ∨ cs = whole ++ '.' :: fraction)

theorem takeWhile_digits {ds tail : List Char} (hds : ∀ c ∈ ds, c.isDigit = true)
    (htail : ∀ c ∈ tail.head?, c.isDigit = false) :
    (ds ++ tail).takeWhile Char.isDigit = ds ∧ (ds ++ tail).dropWhile Char.isDigit = tail := by
  rw [List.takeWhile_append_of_pos hds, List.dropWhile_append_of_pos hds]
  cases tail with
  | nil => exact ⟨List.append_nil ds, rfl⟩
  | cons c tail =>
    have hc : ¬ c.isDigit = true := by simp [htail c rfl]
    rw [List.takeWhile_cons_of_neg hc, List.dropWhile_cons_of_neg hc]
    exact ⟨List.append_nil ds, rfl⟩

/-- An exponent does not start as the rest of a decimal does. -/
theorem head_of_readExponent {tail : List Char} (h : (readExponent? tail).isSome = true) :
    ∀ c ∈ tail.head?, c.isDigit = false ∧ c ≠ '.' := by
  intro c hc
  cases tail with
  | nil => cases hc
  | cons d ds =>
    obtain rfl : d = c := Option.some.inj hc
    by_cases hd : d = 'e' ∨ d = 'E'
    · rcases hd with rfl | rfl <;> decide
    · rw [not_or] at hd
      simp [readExponent?, hd.1, hd.2] at h

/-- A decimal is read, with an exponent after it or without one. -/
theorem isSome_readMagnitude {cs tail : List Char} (h : IsDecimal Char.isDigit cs)
    (htail : (readExponent? tail).isSome = true) : (readMagnitude? (cs ++ tail)).isSome = true := by
  obtain ⟨whole, fraction, hne, hdigits, hcs⟩ := h
  obtain ⟨e, he⟩ := Option.isSome_iff_exists.mp htail
  have hwhole : ∀ c ∈ whole, c.isDigit = true := fun c hc =>
    hdigits c (List.mem_append_left _ hc)
  have hfraction : ∀ c ∈ fraction, c.isDigit = true := fun c hc =>
    hdigits c (List.mem_append_right _ hc)
  have hempty : whole.isEmpty = false := by simpa using hne
  have hnodigit : ∀ c ∈ tail.head?, c.isDigit = false := fun c hc =>
    (head_of_readExponent htail c hc).1
  unfold readMagnitude?
  simp only
  split
  · rfl
  split
  · rfl
  rcases hcs with rfl | rfl
  · rw [(takeWhile_digits hwhole hnodigit).1, (takeWhile_digits hwhole hnodigit).2]
    split
    · exact absurd rfl (head_of_readExponent htail '.' rfl).2
    · simp only [hempty, he]
      rfl
  · have hpoint := @takeWhile_digits whole ('.' :: (fraction ++ tail)) hwhole
      (fun c hc => by cases hc; rfl)
    rw [List.append_assoc, List.cons_append, hpoint.1, hpoint.2]
    simp only [takeWhile_digits hfraction hnodigit, hempty, he]
    rfl

/-- A decimal with perhaps a minus before it. -/
def IsLiteralText (cs : List Char) : Prop :=
  IsDecimal Text.isDigit cs ∨ ∃ ds, cs = '-' :: ds ∧ IsDecimal Text.isDigit ds

theorem asciiDigits_append (cs ds : List Char) :
    asciiDigits (cs ++ ds) = asciiDigits cs ++ asciiDigits ds :=
  List.map_append

theorem IsDecimal.ascii {cs : List Char} (h : IsDecimal Text.isDigit cs) :
    IsDecimal Char.isDigit (asciiDigits cs) := by
  obtain ⟨whole, fraction, hne, hdigits, hcs⟩ := h
  refine ⟨asciiDigits whole, asciiDigits fraction, ?_, ?_, ?_⟩
  · exact fun hnil => hne (List.map_eq_nil_iff.mp hnil)
  · rw [← asciiDigits_append]
    exact fun c hc => (asciiDigits_digits hdigits c hc).1
  · rcases hcs with rfl | rfl
    · exact .inl rfl
    · exact .inr (asciiDigits_append whole ('.' :: fraction))

theorem IsDecimal.not_blank {cs : List Char} (h : IsDecimal Text.isDigit cs) :
    ∀ c ∈ cs, Text.isNumberBlank c = false := by
  obtain ⟨whole, fraction, -, hdigits, hcs⟩ := h
  have hblank := fun c hc => not_blank_of_isDigit (hdigits c hc)
  intro c hc
  rcases hcs with rfl | rfl
  · exact hblank c (List.mem_append_left _ hc)
  · rcases List.mem_append.mp hc with hc | hc
    · exact hblank c (List.mem_append_left _ hc)
    · rcases List.mem_cons.mp hc with rfl | hc
      · decide
      · exact hblank c (List.mem_append_right _ hc)

theorem IsDecimal.no_underscore {cs : List Char} (h : IsDecimal Char.isDigit cs) :
    ∀ c ∈ cs, c ≠ '_' := by
  obtain ⟨whole, fraction, -, hdigits, hcs⟩ := h
  have hdigit : ∀ c ∈ whole ++ fraction, c ≠ '_' := by
    rintro c hc rfl
    exact absurd (hdigits _ hc) (by decide)
  intro c hc
  rcases hcs with rfl | rfl
  · exact hdigit c (List.mem_append_left _ hc)
  · rcases List.mem_append.mp hc with hc | hc
    · exact hdigit c (List.mem_append_left _ hc)
    · rcases List.mem_cons.mp hc with rfl | hc
      · decide
      · exact hdigit c (List.mem_append_right _ hc)

/-- The text of a literal, in plain form. -/
theorem IsLiteralText.plain {cs : List Char} (h : IsLiteralText cs) :
    plainNumber (String.ofList cs) = some (asciiDigits cs) := by
  rw [plainNumber, String.toList_ofList]
  rcases h with h | ⟨ds, rfl, h⟩
  · rw [trimBy_eq_self h.not_blank, dropUnderscores_eq_self h.ascii.no_underscore]
  · rw [trimBy_eq_self, dropUnderscores_eq_self]
    · intro c hc
      rcases List.mem_cons.mp hc with rfl | hc
      · decide
      · exact h.ascii.no_underscore c hc
    · intro c hc
      rcases List.mem_cons.mp hc with rfl | hc
      · decide
      · exact h.not_blank c hc

theorem splitSign_append {cs : List Char} (h : IsDecimal Char.isDigit cs) (tail : List Char) :
    splitSign (cs ++ tail) = (false, cs ++ tail) := by
  obtain ⟨whole, fraction, hne, hdigits, hcs⟩ := h
  obtain ⟨d, ds, rfl⟩ := List.exists_cons_of_ne_nil hne
  have hd : d.isDigit = true := hdigits d List.mem_cons_self
  obtain ⟨rest, rfl⟩ : ∃ rest, cs = d :: rest := by
    rcases hcs with rfl | rfl
    · exact ⟨ds, rfl⟩
    · exact ⟨ds ++ '.' :: fraction, rfl⟩
  unfold splitSign
  split
  · next heq => cases heq; exact absurd hd (by decide)
  · next heq => cases heq; exact absurd hd (by decide)
  · rfl

theorem splitSign_of_isDecimal {cs : List Char} (h : IsDecimal Char.isDigit cs) :
    splitSign cs = (false, cs) := by
  have hsplit := splitSign_append h []
  rwa [List.append_nil] at hsplit

/-- The sign of a number, written only if it is a minus. -/
def minusSign (negative : Bool) : List Char :=
  if negative then ['-'] else []

/-- A decimal with perhaps a minus before it and an exponent after it is read. -/
theorem isSome_readFloat {s : String} {negative : Bool} {cs tail : List Char}
    (hplain : plainNumber s = some (minusSign negative ++ cs ++ tail))
    (h : IsDecimal Char.isDigit cs) (htail : (readExponent? tail).isSome = true) :
    (readFloat? s).isSome = true := by
  have hsplit : splitSign (minusSign negative ++ cs ++ tail) = (negative, cs ++ tail) := by
    cases negative with
    | false => exact splitSign_append h tail
    | true => rfl
  obtain ⟨x, hx⟩ := Option.isSome_iff_exists.mp (isSome_readMagnitude h htail)
  unfold readFloat?
  rw [hplain]
  simp only [Option.bind_eq_bind, Option.bind_some, hsplit, hx]
  rfl

/-- Every text of a literal is that of a number. -/
theorem IsLiteralText.isSome_read {cs : List Char} (h : IsLiteralText cs) :
    (Numeral.read? (String.ofList cs)).isSome = true := by
  have hfloat : (readFloat? (String.ofList cs)).isSome = true := by
    have hplain := h.plain
    rcases h with h | ⟨ds, rfl, h⟩
    · refine @isSome_readFloat _ false _ [] ?_ h.ascii rfl
      rw [hplain, List.append_nil]
      rfl
    · refine @isSome_readFloat _ true _ [] ?_ h.ascii rfl
      rw [hplain, List.append_nil]
      rfl
  unfold Numeral.read?
  split
  · rfl
  · rwa [Option.isSome_map]

/-! ## The texts that the grammar takes -/

theorem takeSome_eq_some {p : Char → Bool} {cs ds rest : List Char}
    (h : takeSome p cs = some (ds, rest)) : ds ≠ [] ∧ ∀ c ∈ ds, p c = true := by
  unfold takeSome at h
  split at h
  · cases h
  · next hne =>
    cases h
    exact ⟨hne, fun c hc => List.mem_takeWhile_imp hc⟩

theorem takePlaces_eq_some {cs ds rest : List Char} (h : takePlaces cs = some (ds, rest)) :
    ∀ c ∈ ds, Text.isDigit c = true := by
  unfold takePlaces at h
  split at h
  · cases h
  · cases h
    exact fun c hc => List.mem_takeWhile_imp hc

theorem isDecimal_of_takeUnsigned {cs text rest : List Char}
    (h : takeUnsigned cs = some (text, rest)) : IsDecimal Text.isDigit text := by
  unfold takeUnsigned at h
  split at h
  · cases h
  · next ds rest' hds =>
    obtain ⟨hne, hdigits⟩ := takeSome_eq_some hds
    split at h
    · next places rest'' hplaces =>
      cases h
      refine ⟨ds, places, hne, fun c hc => ?_, .inr rfl⟩
      rcases List.mem_append.mp hc with hc | hc
      · exact hdigits c hc
      · exact takePlaces_eq_some hplaces c hc
    · cases h
      exact ⟨text, [], hne, by simpa using hdigits, .inl rfl⟩
  · next ds rest' _ hds =>
    cases h
    obtain ⟨hne, hdigits⟩ := takeSome_eq_some hds
    exact ⟨text, [], hne, by simpa using hdigits, .inl rfl⟩

theorem isLiteralText_of_takeLiteral {cs text rest : List Char}
    (h : takeLiteral cs = some (text, rest)) : IsLiteralText text := by
  unfold takeLiteral at h
  split at h
  · obtain ⟨⟨ds, rest'⟩, hds, heq⟩ := Option.map_eq_some_iff.mp h
    cases heq
    exact .inr ⟨ds, rfl, isDecimal_of_takeUnsigned hds⟩
  · exact .inl (isDecimal_of_takeUnsigned h)

/-- A literal of the source stands for a number. -/
theorem isSome_literalOf {cs text rest : List Char} (h : takeLiteral cs = some (text, rest)) :
    (literalOf (some (.text (String.ofList text)))).toOption.isSome = true := by
  obtain ⟨n, hn⟩ := Option.isSome_iff_exists.mp (isLiteralText_of_takeLiteral h).isSome_read
  simp only [literalOf, hn]
  rfl

end Scalarize
