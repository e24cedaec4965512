import Scalarize.Proofs.LiteralTexts
import Scalarize.Proofs.NearestDouble
import Scalarize.Program.Folding

/-!
# Scalarize — the numbers of literals

A literal stands for a number in decimal notation, exactly. The reader makes a double of it, and
this is the nearest one; a whole literal is kept as a whole number of any size, and becomes the
nearest double when it is folded. A literal of at most fifteen digits is known from its double.

* **`literalValue`** — the number of a literal.
* **`IsLiteralText.exists_float`** — a literal is read as the nearest double.
* **`IsLiteralText.literalValue_eq`** — a whole literal is read as its number.
* **`LiteralNode.decimal_cases`** — what a node for a literal is folded with.
* **`IsLiteralText.isShortDecimal`** — literals of at most fifteen digits.
-/

namespace Scalarize

/-! ## The numbers that literals stand for -/

/-- The value of a digit of any script. -/
def digitOf (c : Char) : ℕ :=
  (Text.digitValue? c).getD 0

/-- The whole number with these digits. -/
def wholeValue (ds : List Char) : ℕ :=
  ds.foldl (fun n d => 10 * n + digitOf d) 0

/-- The fraction with these digits after the point. -/
def placesValue : List Char → ℚ
  | [] => 0
  | d :: ds => (digitOf d + placesValue ds) / 10

/-- The number of a literal without a sign. -/
def decimalValue (cs : List Char) : ℚ :=
  wholeValue (cs.takeWhile Text.isDigit) + placesValue ((cs.dropWhile Text.isDigit).drop 1)

/-- The number of a literal. -/
def literalValue : List Char → ℚ
  | '-' :: cs => -decimalValue cs
  | cs => decimalValue cs

theorem foldl_digits (ds : List Char) (n : ℕ) :
    ds.foldl (fun n d => 10 * n + digitOf d) n = n * 10 ^ ds.length + wholeValue ds := by
  unfold wholeValue
  induction ds generalizing n with
  | nil => simp
  | cons d ds ih =>
    rw [List.foldl_cons, List.foldl_cons, ih, ih (10 * 0 + digitOf d), List.length_cons, pow_succ]
    ring

theorem wholeValue_append (ds es : List Char) :
    wholeValue (ds ++ es) = wholeValue ds * 10 ^ es.length + wholeValue es := by
  rw [← foldl_digits, wholeValue, List.foldl_append]
  rfl

theorem placesValue_eq (ds : List Char) : placesValue ds = wholeValue ds / 10 ^ ds.length := by
  induction ds with
  | nil => simp [placesValue, wholeValue]
  | cons d ds ih =>
    have hcons : wholeValue (d :: ds) = digitOf d * 10 ^ ds.length + wholeValue ds := by
      simpa [wholeValue] using foldl_digits ds (digitOf d)
    rw [placesValue, ih, hcons, List.length_cons, pow_succ]
    push_cast
    field_simp

/-- Digits with a point among them are the digits without it, divided by a power of ten. -/
theorem wholeValue_div (ds es : List Char) :
    (wholeValue (ds ++ es) : ℚ) / 10 ^ es.length = wholeValue ds + placesValue es := by
  rw [wholeValue_append, placesValue_eq]
  push_cast
  field_simp

theorem digitsValue_ascii {ds : List Char} (h : ∀ c ∈ ds, Text.isDigit c = true) :
    digitsValue (asciiDigits ds) = wholeValue ds := by
  unfold digitsValue asciiDigits wholeValue
  rw [List.foldl_map]
  refine List.foldl_ext _ _ _ fun n c hc => ?_
  obtain ⟨d, hd⟩ := Option.isSome_iff_exists.mp (h c hc)
  obtain ⟨-, -, -, hlt⟩ := exists_zero_of_digitValue hd
  have hall : ∀ d < 10, (Char.ofNat (0x30 + d)).toNat - 0x30 = d := by decide
  simp only [digitOf, hd, Option.getD_some, hall d hlt]

/-- The digits before and after the point. -/
theorem IsDecimal.exists_parts {isDigit : Char → Bool} {cs : List Char} (h : IsDecimal isDigit cs)
    (hpoint : isDigit '.' = false) :
    ∃ whole fraction, whole ≠ [] ∧ (∀ c ∈ whole ++ fraction, isDigit c = true) ∧
      (cs = whole ∧ fraction = [] ∨ cs = whole ++ '.' :: fraction) ∧
      cs.takeWhile isDigit = whole ∧ (cs.dropWhile isDigit).drop 1 = fraction := by
  obtain ⟨whole, fraction, hne, hdigits, hcs⟩ := h
  have hwhole : ∀ c ∈ whole, isDigit c = true := fun c hc => hdigits c (List.mem_append_left _ hc)
  rcases hcs with rfl | rfl
  · refine ⟨cs, [], hne, by simpa using hwhole, .inl ⟨rfl, rfl⟩, ?_, ?_⟩
    · exact List.takeWhile_eq_self_iff.mpr hwhole
    · rw [List.dropWhile_eq_nil_iff.mpr hwhole, List.drop_nil]
  · refine ⟨whole, fraction, hne, hdigits, .inr rfl, ?_, ?_⟩
    · rw [List.takeWhile_append_of_pos hwhole, List.takeWhile_cons, hpoint]
      simp
    · rw [List.dropWhile_append_of_pos hwhole, List.dropWhile_cons, hpoint]
      rfl

/-! ## Reading a literal -/

theorem toLower_of_isDigit {c : Char} (h : c.isDigit = true) : c.toLower = c := by
  have hc : 48 ≤ c.toNat ∧ c.toNat ≤ 57 := by
    simpa [Char.isDigit, UInt32.le_iff_toNat_le] using h
  unfold Char.toLower
  refine dif_neg fun hupper => ?_
  have hge : 65 ≤ c.toNat := UInt32.le_iff_toNat_le.mp hupper.1
  omega

/-- A text that begins with a digit is none of the words. -/
theorem word_ne_of_isDigit {d c : Char} (h : d.isDigit = true) (cs : List Char) {w : String}
    {ws : List Char} (hw : w.toList = c :: ws) (hc : c.isDigit = false) :
    (String.ofList ((d :: cs).map Char.toLower) == w) = false := by
  refine beq_eq_false_iff_ne.mpr fun heq => ?_
  rw [← heq, String.toList_ofList, List.map_cons, toLower_of_isDigit h] at hw
  rw [← List.head_eq_of_cons_eq hw, h] at hc
  cases hc

theorem readMagnitude_eq {cs whole fraction : List Char} (hne : whole ≠ [])
    (hdigits : ∀ c ∈ whole ++ fraction, c.isDigit = true)
    (hcs : cs = whole ∧ fraction = [] ∨ cs = whole ++ '.' :: fraction) :
    readMagnitude? cs = some (scientific (digitsValue (whole ++ fraction)) (-fraction.length)) := by
  have hwhole : ∀ c ∈ whole, c.isDigit = true := fun c hc => hdigits c (List.mem_append_left _ hc)
  have hfraction : ∀ c ∈ fraction, c.isDigit = true := fun c hc =>
    hdigits c (List.mem_append_right _ hc)
  obtain ⟨d, ds, rfl⟩ := List.exists_cons_of_ne_nil hne
  have hd := hwhole d List.mem_cons_self
  obtain ⟨rest, hrest⟩ : ∃ rest, cs = d :: rest := by
    rcases hcs with ⟨rfl, -⟩ | rfl
    · exact ⟨ds, rfl⟩
    · exact ⟨ds ++ '.' :: fraction, rfl⟩
  unfold readMagnitude?
  -- the text begins with a digit, so it is none of the words for infinity and for no number
  simp only [hrest]
  simp only [word_ne_of_isDigit hd rest (w := "inf") rfl rfl,
    word_ne_of_isDigit hd rest (w := "infinity") rfl rfl,
    word_ne_of_isDigit hd rest (w := "nan") rfl rfl, Bool.or_self, Bool.false_eq_true, if_false]
  rw [← hrest]
  rcases hcs with ⟨rfl, rfl⟩ | rfl
  · simp only [List.takeWhile_eq_self_iff.mpr hwhole, List.dropWhile_eq_nil_iff.mpr hwhole]
    simp [readExponent?]
  · have htake : ((d :: ds) ++ '.' :: fraction).takeWhile Char.isDigit = d :: ds := by
      rw [List.takeWhile_append_of_pos hwhole]
      exact List.append_nil _
    have hdrop : ((d :: ds) ++ '.' :: fraction).dropWhile Char.isDigit = '.' :: fraction :=
      List.dropWhile_append_of_pos hwhole
    simp only [htake, hdrop, List.takeWhile_eq_self_iff.mpr hfraction,
      List.dropWhile_eq_nil_iff.mpr hfraction]
    simp [readExponent?]

/-- A literal without a sign is read as the nearest double. -/
theorem IsDecimal.exists_magnitude {cs : List Char} (h : IsDecimal Text.isDigit cs) :
    ∃ x, readMagnitude? (asciiDigits cs) = some x ∧
      (FloatClass.of x).number? = some (roundMagnitude (decimalValue cs)) := by
  obtain ⟨whole, fraction, hne, hdigits, hcs, htake, hdrop⟩ := h.exists_parts rfl
  have hascii : asciiDigits cs = asciiDigits whole ∧ asciiDigits fraction = [] ∨
      asciiDigits cs = asciiDigits whole ++ '.' :: asciiDigits fraction := by
    rcases hcs with ⟨rfl, rfl⟩ | rfl
    · exact .inl ⟨rfl, rfl⟩
    · exact .inr (asciiDigits_append whole ('.' :: fraction))
  have hne' : asciiDigits whole ≠ [] := fun hnil => hne (List.map_eq_nil_iff.mp hnil)
  refine ⟨_, readMagnitude_eq hne' ?_ hascii, ?_⟩
  · rw [← asciiDigits_append]
    exact fun c hc => (asciiDigits_digits hdigits c hc).1
  · have hlength : (asciiDigits fraction).length = fraction.length := List.length_map _
    rw [number_scientific, ← asciiDigits_append, digitsValue_ascii hdigits, hlength, zpow_neg,
      zpow_natCast, ← div_eq_mul_inv, wholeValue_div, decimalValue, htake, hdrop]

theorem literalValue_of_isDecimal {cs : List Char} (h : IsDecimal Text.isDigit cs) :
    literalValue cs = decimalValue cs := by
  obtain ⟨whole, fraction, hne, hdigits, hcs⟩ := h
  obtain ⟨d, ds, rfl⟩ := List.exists_cons_of_ne_nil hne
  have hd : d ≠ '-' := by
    rintro rfl
    exact absurd (hdigits '-' List.mem_cons_self) (by decide)
  rcases hcs with rfl | rfl <;> unfold literalValue <;> split
  · next heq => exact absurd (List.head_eq_of_cons_eq heq) hd
  · rfl
  · next heq => exact absurd (List.head_eq_of_cons_eq heq) hd
  · rfl

theorem decimalValue_nonneg (cs : List Char) : 0 ≤ decimalValue cs := by
  unfold decimalValue
  rw [placesValue_eq]
  positivity

/-- A literal is read as the nearest double. -/
theorem IsLiteralText.exists_float {cs : List Char} (h : IsLiteralText cs) :
    ∃ x, readFloat? (String.ofList cs) = some x ∧
      (FloatClass.of x).number? = some (nearestDouble (literalValue cs)) := by
  unfold readFloat?
  rw [h.plain]
  rcases h with h | ⟨ds, rfl, h⟩
  · obtain ⟨x, hx, hnumber⟩ := h.exists_magnitude
    simp only [Option.bind_eq_bind, Option.bind_some, splitSign_of_isDecimal h.ascii, hx]
    refine ⟨x, rfl, ?_⟩
    rw [hnumber, literalValue_of_isDecimal h, nearestDouble_of_nonneg (decimalValue_nonneg cs)]
  · obtain ⟨x, hx, hnumber⟩ := h.exists_magnitude
    have hsign : splitSign (asciiDigits ('-' :: ds)) = (true, asciiDigits ds) := rfl
    simp only [Option.bind_eq_bind, Option.bind_some, hsign, hx]
    refine ⟨-x, rfl, ?_⟩
    have hvalue : literalValue ('-' :: ds) = -decimalValue ds := rfl
    rw [number_neg hnumber, hvalue, nearestDouble_neg,
      nearestDouble_of_nonneg (decimalValue_nonneg ds)]

theorem decimalValue_of_isDigit {cs : List Char} (h : ∀ c ∈ cs, Text.isDigit c = true) :
    decimalValue cs = wholeValue cs := by
  unfold decimalValue
  rw [List.takeWhile_eq_self_iff.mpr h, List.dropWhile_eq_nil_iff.mpr h]
  simp [placesValue]

/-- A literal of which all characters are digits after the conversion has only digits. -/
theorem IsDecimal.isDigit_of_ascii {cs : List Char} (h : IsDecimal Text.isDigit cs)
    (hall : (asciiDigits cs).all Char.isDigit = true) : ∀ c ∈ cs, Text.isDigit c = true := by
  obtain ⟨whole, fraction, -, hdigits, rfl | rfl⟩ := h
  · exact fun c hc => hdigits c (List.mem_append_left _ hc)
  · rw [asciiDigits_append, List.all_append, Bool.and_eq_true] at hall
    exact absurd hall.2 (by simp [asciiDigits, Text.digitValue?])

/-- What is read as a whole number is the number of the literal. -/
theorem IsLiteralText.literalValue_eq {cs : List Char} (h : IsLiteralText cs) {n : ℤ}
    (hn : readInt? (String.ofList cs) = some n) : literalValue cs = n := by
  unfold readInt? at hn
  rw [h.plain] at hn
  rcases h with h | ⟨ds, rfl, h⟩
  · simp only [Option.bind_eq_bind, Option.bind_some, splitSign_of_isDecimal h.ascii] at hn
    split at hn
    · cases hn
    · next hall =>
      rw [Bool.or_eq_true, not_or, Bool.not_eq_true', Bool.not_eq_false] at hall
      have hdigits := h.isDigit_of_ascii hall.2
      cases hn
      rw [literalValue_of_isDecimal h, decimalValue_of_isDigit hdigits, digitsValue_ascii hdigits]
      simp
  · have hsign : splitSign (asciiDigits ('-' :: ds)) = (true, asciiDigits ds) := rfl
    simp only [Option.bind_eq_bind, Option.bind_some, hsign] at hn
    split at hn
    · cases hn
    · next hall =>
      rw [Bool.or_eq_true, not_or, Bool.not_eq_true', Bool.not_eq_false] at hall
      have hdigits := h.isDigit_of_ascii hall.2
      cases hn
      have hvalue : literalValue ('-' :: ds) = -decimalValue ds := rfl
      rw [hvalue, decimalValue_of_isDigit hdigits, digitsValue_ascii hdigits]
      simp

/-! ## Number nodes -/

/-- The nodes for a literal: with its text, or with the number that the text is read as. -/
inductive LiteralNode (cs : List Char) : Tree → Prop
  | text : LiteralNode cs (.text "number" (String.ofList cs))
  | number {n : Numeral} (h : literalOf (some (.text (String.ofList cs))) = .ok n) :
    LiteralNode cs (.numberOf n)

/-- The node holds a whole number that is too large for a double. -/
def TooLarge (t : Tree) : Prop :=
  ∃ n : ℤ, t.value = some (.numeral (.int n)) ∧ |nearestDouble n| = 2 ^ 1024

theorem abs_lt_of_finite {x : Float} {d : FloatParts} (h : FloatClass.of x = .finite d) :
    |d.toRat| < 2 ^ 1024 := by
  have hcanonical := isCanonical_unpack x.toModel
  rw [FloatClass.of_eq] at h
  generalize x.toModel.unpack = u at h hcanonical
  cases u with
  | notANumber => cases h
  | infinity s => cases h
  | zero s =>
    cases h
    cases s <;> simp [FloatParts.toRat, signed, isMinus]
  | finite s m e hm =>
    cases h
    have hlt := (hcanonical s m e hm rfl).value_lt
    have habs : |FloatParts.toRat ⟨isMinus s, m, e⟩| = m * 2 ^ e := by
      cases s <;> simp [FloatParts.toRat, signed, isMinus]
    rwa [habs]

/-- A whole number is converted to the nearest double, unless that is infinite. -/
theorem floatOfInt_cases (n : ℤ) :
    (|nearestDouble n| = 2 ^ 1024 ∧ floatOfInt? n = none) ∨
    (|nearestDouble n| < 2 ^ 1024 ∧ ∃ x, floatOfInt? n = some x ∧
      (FloatClass.of x).number? = some (nearestDouble n)) := by
  have hnumber := number_scientific n.natAbs 0
  rw [zpow_zero, mul_one, Nat.cast_natAbs, Int.cast_abs] at hnumber
  rw [abs_nearestDouble]
  unfold floatOfInt?
  dsimp only
  cases hclass : FloatClass.of (scientific n.natAbs 0) with
  | finite d =>
    have hvalue : d.toRat = roundMagnitude |(n : ℚ)| := by
      rw [hclass] at hnumber
      exact Option.some.inj hnumber
    have hlt := abs_lt_of_finite hclass
    rw [hvalue, abs_of_nonneg (roundMagnitude_nonneg (abs_nonneg _))] at hlt
    refine .inr ⟨hlt, _, rfl, ?_⟩
    rcases lt_or_ge n 0 with hn | hn
    · have hn' : (n : ℚ) < 0 := by exact_mod_cast hn
      rw [if_pos hn, number_neg hnumber, nearestDouble, if_pos hn', abs_of_neg hn']
    · have hn' : (0 : ℚ) ≤ n := by exact_mod_cast hn
      rw [if_neg hn.not_gt, hnumber, nearestDouble_of_nonneg hn', abs_of_nonneg hn']
  | infinite b =>
    rw [hclass] at hnumber
    have hvalue : signed b (2 ^ 1024) = roundMagnitude |(n : ℚ)| := Option.some.inj hnumber
    cases b with
    | false => exact .inl ⟨hvalue.symm, rfl⟩
    | true =>
      have hpos := roundMagnitude_nonneg (abs_nonneg (n : ℚ))
      rw [← hvalue] at hpos
      exact absurd hpos (not_le.mpr (neg_neg_of_pos (by positivity)))
  | notANumber =>
    rw [hclass] at hnumber
    cases hnumber

namespace LiteralNode

variable {cs : List Char} {t : Tree}

theorem isNumber (ht : LiteralNode cs t) : t.isNumber = true := by
  cases ht <;> rfl

/-- The value of the node: the text, the whole number that it stands for, or a double. -/
theorem value_cases (ht : LiteralNode cs t) (h : IsLiteralText cs) :
    t.value = some (.text (String.ofList cs)) ∨
    (∃ n : ℤ, t.value = some (.numeral (.int n)) ∧ literalValue cs = n) ∨
    ∃ x, t.value = some (.numeral (.float x)) ∧ readFloat? (String.ofList cs) = some x := by
  cases ht with
  | text => exact .inl rfl
  | @number n hn =>
    obtain ⟨x, hx, -⟩ := h.exists_float
    unfold literalOf Numeral.read? at hn
    dsimp only at hn
    cases hint : readInt? (String.ofList cs) with
    | some k =>
      rw [hint] at hn
      cases hn
      exact .inr (.inl ⟨k, rfl, h.literalValue_eq hint⟩)
    | none =>
      rw [hint, hx] at hn
      cases hn
      exact .inr (.inr ⟨x, rfl, hx⟩)

/-- The decimal of the node is the nearest double, unless the node holds a whole number that is too
large. -/
theorem decimal_cases (ht : LiteralNode cs t) (h : IsLiteralText cs) :
    (TooLarge t ∧ t.decimal = .error .tooLarge) ∨
    (¬ TooLarge t ∧ ∃ x, t.decimal = .ok ⟨x⟩ ∧
      (FloatClass.of x).number? = some (nearestDouble (literalValue cs))) := by
  obtain ⟨x, hx, hnumber⟩ := h.exists_float
  unfold Tree.decimal TooLarge
  rcases ht.value_cases h with hvalue | ⟨n, hvalue, hn⟩ | ⟨y, hvalue, hy⟩ <;> rw [hvalue]
  · refine .inr ⟨by simp, x, ?_, hnumber⟩
    simp only [Decimal.ofScalar, hx]
  · rcases floatOfInt_cases n with ⟨htop, hnone⟩ | ⟨hlt, y, hy, hnumber'⟩
    · refine .inl ⟨⟨n, rfl, htop⟩, ?_⟩
      simp only [Decimal.ofScalar, hnone]
    · refine .inr ⟨?_, y, ?_, by rw [hnumber', hn]⟩
      · rintro ⟨j, hj, htop⟩
        cases hj
        exact hlt.ne htop
      · simp only [Decimal.ofScalar, hy]
  · obtain rfl := Option.some.inj (hx.symm.trans hy)
    exact .inr ⟨by simp, x, rfl, hnumber⟩

end LiteralNode

/-! ## Short literals -/

theorem digitOf_lt (c : Char) : digitOf c < 10 := by
  unfold digitOf
  cases h : Text.digitValue? c with
  | none => simp
  | some d =>
    obtain ⟨-, -, -, hlt⟩ := exists_zero_of_digitValue h
    exact hlt

theorem wholeValue_lt (ds : List Char) : wholeValue ds < 10 ^ ds.length := by
  induction ds using List.reverseRecOn with
  | nil => simp [wholeValue]
  | append_singleton ds d ih =>
    have hd := digitOf_lt d
    have hone : wholeValue [d] = digitOf d := by simp [wholeValue]
    rw [wholeValue_append, hone, List.length_append, List.length_singleton, pow_add, pow_one]
    omega

/-- A literal of at most fifteen digits. -/
def IsShortLiteral (cs : List Char) : Prop :=
  (cs.filter Text.isDigit).length ≤ 15

instance (cs : List Char) : Decidable (IsShortLiteral cs) :=
  inferInstanceAs (Decidable (_ ≤ _))

theorem IsDecimal.isShortDecimal {cs : List Char} (h : IsDecimal Text.isDigit cs)
    (hshort : IsShortLiteral cs) : IsShortDecimal (decimalValue cs) := by
  obtain ⟨whole, fraction, -, hdigits, hcs, htake, hdrop⟩ := h.exists_parts rfl
  have hlength : whole.length + fraction.length ≤ 15 := by
    have hfilter : (whole ++ fraction).filter Text.isDigit = whole ++ fraction :=
      List.filter_eq_self.mpr hdigits
    rw [← List.length_append, ← hfilter]
    rcases hcs with ⟨rfl, rfl⟩ | rfl
    · rwa [List.append_nil]
    · rw [IsShortLiteral, List.filter_append, List.filter_cons_of_neg (by decide)] at hshort
      rwa [List.filter_append]
  refine ⟨wholeValue (whole ++ fraction), fraction.length, ?_, by omega, ?_⟩
  · refine (wholeValue_lt _).trans_le (Nat.pow_le_pow_right (by norm_num) ?_)
    rwa [List.length_append]
  · rw [abs_of_nonneg (decimalValue_nonneg cs), wholeValue_div, decimalValue, htake, hdrop]

theorem IsLiteralText.isShortDecimal {cs : List Char} (h : IsLiteralText cs)
    (hshort : IsShortLiteral cs) : IsShortDecimal (literalValue cs) := by
  rcases h with h | ⟨ds, rfl, h⟩
  · rw [literalValue_of_isDecimal h]
    exact h.isShortDecimal hshort
  · have hvalue : literalValue ('-' :: ds) = -decimalValue ds := rfl
    rw [IsShortLiteral, List.filter_cons_of_neg (by decide)] at hshort
    rw [hvalue]
    exact (h.isShortDecimal hshort).neg

theorem LiteralNode.not_tooLarge {cs : List Char} {t : Tree} (ht : LiteralNode cs t)
    (h : IsLiteralText cs) (hshort : IsShortLiteral cs) : ¬ TooLarge t := by
  rintro ⟨n, hn, htop⟩
  have hvalue : literalValue cs = n := by
    rcases ht.value_cases h with hv | ⟨k, hv, hk⟩ | ⟨x, hv, -⟩ <;> rw [hv] at hn <;> cases hn
    exact hk
  have hdecimal := h.isShortDecimal hshort
  rw [hvalue] at hdecimal
  exact hdecimal.abs_nearestDouble_lt.ne htop

end Scalarize
