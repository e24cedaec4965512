import Scalarize.Proofs.IdentityFolding
import Scalarize.Proofs.LiteralTexts
import Scalarize.Proofs.PrintedTokens

/-!
# Scalarize — constants after folding

A folded constant is kept as a text, and the next operation on it reads this text again. Doubles are
written in a form that can be read, so an operation on constants fails for reasons of arithmetic
only. One of these reasons is not counted among the failures of arithmetic: the power of a negative
number to a fraction is not real.

* **`isSome_readFloat_render`** — the text of a decimal stands for a number.
* **`Decimal.Undefined`**, **`Decimal.apply_error`** — why an operator on two doubles has no result.
-/

namespace Scalarize

/-! ## Plain number texts -/

/-- The characters that doubles are written with, infinite ones apart. -/
def IsPlainChar (c : Char) : Prop :=
  c.isDigit = true ∨ c ∈ ['+', '-', '.', 'e']

theorem exists_digit {c : Char} (h : c.isDigit = true) : ∃ k < 10, c = Char.ofNat (0x30 + k) := by
  have hc : 48 ≤ c.toNat ∧ c.toNat ≤ 57 := by
    simpa [Char.isDigit, UInt32.le_iff_toNat_le] using h
  refine ⟨c.toNat - 48, by omega, ?_⟩
  rw [show 0x30 + (c.toNat - 48) = c.toNat by omega, Char.ofNat_toNat]

/-- A plain character is kept as it is. -/
theorem IsPlainChar.kept {c : Char} (h : IsPlainChar c) :
    Text.isNumberBlank c = false ∧ asciiDigits [c] = [c] ∧ c ≠ '_' := by
  have hdigits : ∀ k < 10, Text.isNumberBlank (Char.ofNat (0x30 + k)) = false ∧
      asciiDigits [Char.ofNat (0x30 + k)] = [Char.ofNat (0x30 + k)] ∧
      Char.ofNat (0x30 + k) ≠ '_' := by
    decide
  rcases h with h | h
  · obtain ⟨k, hk, rfl⟩ := exists_digit h
    exact hdigits k hk
  · simp only [List.mem_cons, List.not_mem_nil, or_false] at h
    rcases h with rfl | rfl | rfl | rfl <;> decide

theorem plainNumber_eq {cs : List Char} (h : ∀ c ∈ cs, IsPlainChar c) :
    plainNumber (String.ofList cs) = some cs := by
  have hascii : asciiDigits cs = cs := by
    refine (List.map_congr_left fun c hc => ?_).trans cs.map_id
    exact List.head_eq_of_cons_eq (h c hc).kept.2.1
  rw [plainNumber, String.toList_ofList, trimBy_eq_self fun c hc => (h c hc).kept.1, hascii,
    dropUnderscores_eq_self fun c hc => (h c hc).kept.2.2]

theorem IsDecimal.plain {cs : List Char} (h : IsDecimal Char.isDigit cs) :
    ∀ c ∈ cs, IsPlainChar c := by
  obtain ⟨whole, fraction, -, hdigits, hcs⟩ := h
  intro c hc
  rcases hcs with rfl | rfl
  · exact .inl (hdigits c (List.mem_append_left _ hc))
  · rcases List.mem_append.mp hc with hc | hc
    · exact .inl (hdigits c (List.mem_append_left _ hc))
    · rcases List.mem_cons.mp hc with rfl | hc
      · exact .inr (by simp)
      · exact .inl (hdigits c (List.mem_append_right _ hc))

/-- Nothing, or an exponent with a sign. -/
def IsExponent (cs : List Char) : Prop :=
  cs = [] ∨ ∃ sign ds, sign ∈ ['+', '-'] ∧ ds ≠ [] ∧ (∀ c ∈ ds, c.isDigit = true) ∧
    cs = 'e' :: sign :: ds

theorem IsExponent.plain {cs : List Char} (h : IsExponent cs) : ∀ c ∈ cs, IsPlainChar c := by
  rcases h with rfl | ⟨sign, ds, hsign, -, hds, rfl⟩
  · exact fun c hc => absurd hc List.not_mem_nil
  · refine List.forall_mem_cons.mpr ⟨.inr (by simp), List.forall_mem_cons.mpr ⟨.inr ?_, ?_⟩⟩
    · exact List.mem_append_left ['.', 'e'] hsign
    · exact fun c hc => .inl (hds c hc)

theorem IsExponent.isSome_read {cs : List Char} (h : IsExponent cs) :
    (readExponent? cs).isSome = true := by
  rcases h with rfl | ⟨sign, ds, hsign, hne, hds, rfl⟩
  · rfl
  · have hempty : ds.isEmpty = false := by simpa using hne
    have hdigits : ds.all Char.isDigit = true := List.all_eq_true.mpr hds
    rcases List.mem_pair.mp hsign with rfl | rfl
    · simp [readExponent?, splitSign, hempty, hdigits]
    · simp [readExponent?, splitSign, hempty, hdigits]

/-- Sign, digits and exponent, one after the other. -/
theorem isSome_readFloat_ofList (negative : Bool) {cs tail : List Char}
    (h : IsDecimal Char.isDigit cs) (htail : IsExponent tail) :
    (readFloat? (String.ofList (minusSign negative ++ cs ++ tail))).isSome = true := by
  refine isSome_readFloat (plainNumber_eq fun c hc => ?_) h htail.isSome_read
  rcases List.mem_append.mp hc with hc | hc
  · rcases List.mem_append.mp hc with hc | hc
    · cases negative with
      | false => cases hc
      | true =>
        obtain rfl := List.mem_singleton.mp hc
        exact .inr (by simp)
    · exact h.plain c hc
  · exact htail.plain c hc

theorem isSome_readFloat_decimal (negative : Bool) {cs : List Char}
    (h : IsDecimal Char.isDigit cs) :
    (readFloat? (String.ofList (minusSign negative ++ cs))).isSome = true := by
  have hread := isSome_readFloat_ofList negative h (.inl rfl)
  rwa [List.append_nil] at hread

/-! ## The texts of doubles -/

theorem isDigit_toDigits (n : Nat) : ∀ c ∈ Nat.toDigits 10 n, c.isDigit = true :=
  fun _ hc => Nat.isDigit_of_mem_toDigits (by decide) (by decide) hc

theorem isDigit_zeros (n : Nat) : ∀ c ∈ zeros n, c.isDigit = true := by
  intro c hc
  rw [List.eq_of_mem_replicate hc]
  rfl

section

variable {ds : List Char} (hds : ∀ c ∈ ds, c.isDigit = true)

include hds

theorem isDecimal_positional (hne : ds ≠ []) (point : Int) :
    IsDecimal Char.isDigit (positional ds point) := by
  unfold positional
  split
  · -- all digits come after the point
    refine ⟨['0'], zeros (-point).toNat ++ ds, by simp, ?_, .inr (by simp)⟩
    refine List.forall_mem_append.mpr ⟨List.forall_mem_singleton.mpr rfl, ?_⟩
    exact List.forall_mem_append.mpr ⟨isDigit_zeros _, hds⟩
  · split
    · -- all digits come before the point, and zeros fill the gap
      refine ⟨ds ++ zeros (point.toNat - ds.length), ['0'], by simp [hne], ?_, .inr (by simp)⟩
      refine List.forall_mem_append.mpr ⟨List.forall_mem_append.mpr ⟨hds, isDigit_zeros _⟩, ?_⟩
      exact List.forall_mem_singleton.mpr rfl
    · next hpoint _ =>
      -- the point divides the digits
      refine ⟨ds.take point.toNat, ds.drop point.toNat, ?_, ?_, .inr (by simp)⟩
      · rw [Ne, List.take_eq_nil_iff]
        exact fun h => h.elim (fun h => by omega) hne
      · rwa [List.take_append_drop]

theorem exists_exponential (hne : ds ≠ []) (power : Int) :
    ∃ cs tail, exponential ds power = cs ++ tail ∧ IsDecimal Char.isDigit cs ∧
      IsExponent tail := by
  set es := Nat.toDigits 10 power.natAbs with hes
  have hexponent : IsExponent
      ('e' :: (if power < 0 then '-' else '+') :: (zeros (2 - es.length) ++ es)) := by
    refine .inr ⟨_, _, ?_, ?_, ?_, rfl⟩
    · split <;> simp
    · simp [hes, Nat.toDigits_ne_nil]
    · exact List.forall_mem_append.mpr ⟨isDigit_zeros _, isDigit_toDigits _⟩
  -- a single digit is written without a point
  by_cases hfraction : (ds.drop 1).isEmpty = true
  · refine ⟨ds, _, ?_, ⟨ds, [], hne, by simpa using hds, .inl rfl⟩, hexponent⟩
    simp only [exponential, if_pos hfraction, ← hes]
    simp
  · have hdecimal : IsDecimal Char.isDigit (ds.take 1 ++ '.' :: ds.drop 1) := by
      refine ⟨ds.take 1, ds.drop 1, ?_, ?_, .inr rfl⟩
      · rw [Ne, List.take_eq_nil_iff]
        exact fun h => h.elim (fun h => by omega) hne
      · rwa [List.take_append_drop]
    refine ⟨_, _, ?_, hdecimal, hexponent⟩
    simp only [exponential, if_neg hfraction, ← hes]
    simp

end

theorem isSome_readFloat_floatText (x : Float) : (readFloat? (floatText x)).isSome = true := by
  unfold floatText
  split
  · decide +kernel
  · split <;> decide +kernel
  · next d _ =>
    have hsign : (if d.negative = true then ['-'] else []) = minusSign d.negative := rfl
    simp only [hsign]
    split
    · have hzero : IsDecimal Char.isDigit ['0', '.', '0'] :=
        ⟨['0'], ['0'], by simp, isDigit_zeros 2, .inr rfl⟩
      exact isSome_readFloat_decimal d.negative hzero
    · have hdigits := isDigit_toDigits d.shortest.digits
      have hne : Nat.toDigits 10 d.shortest.digits ≠ [] := Nat.toDigits_ne_nil
      split
      · exact isSome_readFloat_decimal d.negative (isDecimal_positional hdigits hne _)
      · obtain ⟨cs, tail, heq, hcs, htail⟩ := exists_exponential hdigits hne _
        rw [heq, ← List.append_assoc]
        exact isSome_readFloat_ofList d.negative hcs htail

theorem isSome_readFloat_toString (n : Int) : (readFloat? (toString n)).isSome = true := by
  have hnat : ∀ m : Nat, IsDecimal Char.isDigit (Nat.toDigits 10 m) := fun m =>
    ⟨Nat.toDigits 10 m, [], Nat.toDigits_ne_nil, by simpa using isDigit_toDigits m, .inl rfl⟩
  cases n with
  | ofNat m =>
    have htext : toString (Int.ofNat m) = String.ofList (minusSign false ++ Nat.toDigits 10 m) := by
      rw [← String.toList_inj, String.toList_ofList]
      exact Nat.toList_repr
    rw [htext]
    exact isSome_readFloat_decimal false (hnat m)
  | negSucc m =>
    have htext : toString (Int.negSucc m)
        = String.ofList (minusSign true ++ Nat.toDigits 10 (m + 1)) := by
      rw [← String.toList_inj, String.toList_ofList]
      show ("-" ++ (m + 1).repr).toList = _
      rw [String.toList_append, Nat.toList_repr]
      rfl
    rw [htext]
    exact isSome_readFloat_decimal true (hnat (m + 1))

/-- The text of a decimal stands for a number. -/
theorem isSome_readFloat_render (d : Decimal) : (readFloat? d.render).isSome = true := by
  unfold Decimal.render
  split
  · split
    · exact isSome_readFloat_toString _
    · exact isSome_readFloat_floatText _
  · exact isSome_readFloat_floatText _

/-! ## Operations without a result -/

theorem error_of_bind {ε α β : Type} {x : Except ε α} {f : α → Except ε β} {e : ε}
    (h : x.bind f = .error e) : x = .error e ∨ ∃ a, x = .ok a ∧ f a = .error e := by
  cases x with
  | error d =>
    cases h
    exact .inl rfl
  | ok a => exact .inr ⟨a, rfl, h⟩

/-- Only zero is equal to zero. -/
theorem number_of_beq_zero {y : Float} (h : (y == 0.0) = true) :
    (FloatClass.of y).number? = some 0 := by
  cases hy : (FloatClass.of y).number? with
  | some b => rw [(beq_iff_number hy number_zero_double).mp h]
  | none =>
    -- what is no number is not compared
    rw [FloatClass.of_eq] at hy
    replace h : (y.toModel.unpack.compare (0.0 : Float).toModel.unpack == some .eq) = true := h
    generalize y.toModel.unpack = u at hy h
    cases u with
    | notANumber => cases h
    | infinity s => cases hy
    | zero s => cases hy
    | finite s m e hm => cases hy

theorem FloatParts.toRat_ne_intCast {d : FloatParts} (h : d.isWhole = false) (n : ℤ) :
    d.toRat ≠ n := by
  have hden : (d.denominator : ℚ) ≠ 0 := by simp [denominator]
  intro heq
  -- the number and its negation are whole at the same time
  obtain ⟨m, hm⟩ : ∃ m : ℤ, (d.numerator / d.denominator : ℚ) = m := by
    rw [toRat_eq, signed] at heq
    split at heq
    · exact ⟨-n, by rw [Int.cast_neg, ← heq, neg_neg]⟩
    · exact ⟨n, heq⟩
  rw [div_eq_iff hden] at hm
  have hdvd : (d.denominator : ℤ) ∣ d.numerator := ⟨m, by rw [mul_comm]; exact_mod_cast hm⟩
  have hmod := Nat.mod_eq_zero_of_dvd (Int.natCast_dvd_natCast.mp hdvd)
  rw [isWhole, hmod] at h
  cases h

namespace Decimal

/-- Why a power has no result. -/
inductive PowerFails (x y : Float) : DecimalError → Prop where
  | zeroToNegative {p q : FloatParts} (hx : FloatClass.of x = .finite p)
      (hy : FloatClass.of y = .finite q) (hp : p.toRat = 0) (hq : q.toRat < 0) :
      PowerFails x y .zeroToNegative
  /-- The power is real, and too large for a double. -/
  | overflow {p q : FloatParts} {negative : Bool} (hx : FloatClass.of x = .finite p)
      (hy : FloatClass.of y = .finite q) (hreal : 0 ≤ p.toRat ∨ ∃ n : ℤ, q.toRat = n)
      (hsize : FloatClass.of (Float.pow (if x < 0.0 then -x else x) y) = .infinite negative) :
      PowerFails x y .overflow
  /-- The base is negative and the exponent a fraction. -/
  | notReal {p q : FloatParts} (hx : FloatClass.of x = .finite p)
      (hy : FloatClass.of y = .finite q) (hp : p.toRat < 0) (hq : ∀ n : ℤ, q.toRat ≠ n) :
      PowerFails x y (if overflows (-x) y then .notRealOverflow else .notReal)

theorem positivePower_error {x y : Float} {d : DecimalError} (h : positivePower x y = .error d) :
    d = .overflow ∧ ∃ negative, FloatClass.of (Float.pow x y) = .infinite negative := by
  unfold positivePower at h
  dsimp only at h
  split at h
  · next negative hsize =>
    cases h
    exact ⟨rfl, negative, hsize⟩
  · cases h

section

variable {x y : Float} {p q : FloatParts} {d : DecimalError} (hx : FloatClass.of x = .finite p)
  (hy : FloatClass.of y = .finite q)

include hx hy

theorem finitePower_error (h : finitePower x y = .error d) : PowerFails x y d := by
  have hneg : x < 0.0 ↔ p.toRat < 0 := lt_iff_number (by rw [hx]; rfl) number_zero_double
  have hwhole : isWhole y = q.isWhole := by rw [isWhole, hy]
  unfold finitePower at h
  by_cases hlt : x < 0.0
  · rw [if_pos hlt] at h
    split at h
    · next hfraction =>
      cases h
      rw [hwhole, Bool.not_eq_true'] at hfraction
      exact .notReal hx hy (hneg.mp hlt) (FloatParts.toRat_ne_intCast hfraction)
    · next hfraction =>
      rw [hwhole, Bool.not_eq_true', Bool.not_eq_false] at hfraction
      rcases error_of_bind h with h | ⟨r, -, h⟩
      · obtain ⟨rfl, negative, hsize⟩ := positivePower_error h
        rw [← show (if x < 0.0 then -x else x) = -x from if_pos hlt] at hsize
        exact .overflow hx hy (.inr ⟨_, FloatParts.toRat_of_isWhole hfraction⟩) hsize
      · cases h
  · rw [if_neg hlt] at h
    obtain ⟨rfl, negative, hsize⟩ := positivePower_error h
    rw [← show (if x < 0.0 then -x else x) = x from if_neg hlt] at hsize
    exact .overflow hx hy (.inl (not_lt.mp fun hp => hlt (hneg.mpr hp))) hsize

end

theorem power_error {x y : Float} {d : DecimalError} (h : power x y = .error d) :
    PowerFails x y d := by
  unfold power at h
  split at h
  · cases h
  · split at h
    · cases h
    · cases h
    · dsimp only at h
      split at h
      · cases h
      · split at h <;> cases h
    · split at h <;> cases h
    · next p q hx hy =>
      -- with an operand that is not finite there is always a result
      split at h
      · next hmantissa =>
        split at h
        · next hlt =>
          cases h
          have hp : p.toRat = 0 := by
            rw [FloatParts.toRat, beq_iff_eq.mp hmantissa, signed]
            simp
          exact .zeroToNegative hx hy hp
            ((lt_iff_number (by rw [hy]; rfl) number_zero_double).mp hlt)
        · cases h
      · exact finitePower_error hx hy h

/-- Why an operator on two doubles has no result. -/
inductive Undefined : String → Float → Float → DecimalError → Prop where
  | division {x y : Float} (hy : (FloatClass.of y).number? = some 0) :
      Undefined "div" x y .divisionByZero
  | remainder {x y : Float} (hy : (FloatClass.of y).number? = some 0) :
      Undefined "mod" x y .remainderByZero
  | power {x y : Float} {d : DecimalError} (h : PowerFails x y d) : Undefined "exp" x y d

/-- The operators on two numbers have results, but for these reasons. -/
theorem apply_error {op : String} (hop : op ∈ Layout.binaryKinds) {x y : Float} {d : DecimalError}
    (h : apply op x y = .error d) : Undefined op x y d := by
  unfold apply at h
  split at h
  case h_4 | h_5 =>
    split at h
    · next hzero =>
      cases h
      constructor
      exact number_of_beq_zero hzero
    · cases h
  case h_6 => exact .power (power_error h)
  -- there are no other operators
  case h_15 => simp_all [Layout.binaryKinds, Operator.binaryTable]
  all_goals cases h

/-- There is one reason that does not count as a failure of arithmetic. -/
theorem Undefined.isArithmetic {op : String} {x y : Float} {d : DecimalError}
    (h : Undefined op x y d) (hd : d ≠ .notReal) : d.isArithmetic = true := by
  cases h with
  | division hy => rfl
  | remainder hy => rfl
  | power h =>
    cases h with
    | zeroToNegative => rfl
    | overflow => rfl
    | notReal =>
      split at hd
      · next hover => rw [if_pos hover]; rfl
      · exact absurd rfl hd

end Decimal

end Scalarize
