import Scalarize.Proofs.MantissaRounding

/-!
# Scalarize — the doubles of decimal notation

The quotient and the product of two doubles are computed with a mantissa that is long enough, so
they are the doubles nearest to the exact results. Decimal notation is read by one such operation on
exact operands, and is thereby read as the nearest double.

* **`number_div`**, **`number_mul`**, **`number_neg`** — operations on doubles.
* **`number_ofScientific`** — digits with a power of ten.
* **`number_scientific`** — the double of `d * 10 ^ e` is the nearest one.
-/

namespace Scalarize

open Float.Model Float.Model.UnpackedFloat

/-! ## Operations on mantissas -/

theorem describes_accuracyOfFraction {r d : ℕ} (h : r < d) :
    Describes (accuracyOfFraction r d) ((r : ℚ) / d) := by
  have hd : (0 : ℚ) < d := by exact_mod_cast Nat.zero_lt_of_lt h
  have hhalf : 2 * ((r : ℚ) / d) = (2 * r : ℕ) / d := by push_cast; ring
  unfold accuracyOfFraction
  split
  · next hr => simp [Describes, hr]
  · next hr =>
    have hpos : (0 : ℚ) < r / d := div_pos (by exact_mod_cast Nat.pos_of_ne_zero hr) hd
    rcases lt_trichotomy (2 * r) d with hlt | heq | hgt
    · rw [compare_lt_iff_lt.mpr hlt]
      refine ⟨hpos, ?_⟩
      rw [hhalf, div_lt_one hd]
      exact_mod_cast hlt
    · rw [compare_eq_iff_eq.mpr heq]
      show 2 * _ = _
      rw [hhalf, heq, div_self hd.ne']
    · rw [compare_gt_iff_gt.mpr hgt]
      refine ⟨?_, ?_⟩
      · rw [hhalf, one_lt_div hd]
        exact_mod_cast hgt
      · rw [div_lt_one hd]
        exact_mod_cast h

/-- A quotient with its remainder is a mantissa. -/
theorem mantissa_quotient {m d : ℕ} {t : ℤ} (hd : 0 < d) (h : t ≤ -1074 ∨ 2 ^ 52 * d ≤ m) :
    Mantissa (m / d * 2 ^ t) (m / d) t (accuracyOfFraction (m % d) d) := by
  refine ⟨?_, ?_⟩
  · have hpos : (d : ℚ) ≠ 0 := by exact_mod_cast hd.ne'
    have hdiv : (m : ℚ) = d * (m / d : ℕ) + (m % d : ℕ) := by
      exact_mod_cast (Nat.div_add_mod m d).symm
    have hrest : (m : ℚ) / d * 2 ^ t / 2 ^ t - (m / d : ℕ) = (m % d : ℕ) / d := by
      field_simp
      linarith
    rw [hrest]
    exact describes_accuracyOfFraction (Nat.mod_lt _ hd)
  · rcases h with h | h
    · exact h.trans (le_max_right _ _)
    · have hle : 2 ^ 52 ≤ m / d := (Nat.le_div_iff_mul_le hd).mpr h
      have hlog : 52 ≤ (m / d).log2 := (Nat.le_log2 (by omega)).mpr hle
      omega

theorem mantissa_exact {m : ℕ} {e : ℤ} (h : e ≤ -1074 ∨ 2 ^ 52 ≤ m) :
    Mantissa (m * 2 ^ e) m e .exact := by
  refine ⟨?_, ?_⟩
  · show _ / _ - _ = _
    rw [mul_div_cancel_right₀ _ (by positivity), sub_self]
  · rcases h with h | h
    · exact h.trans (le_max_right _ _)
    · have hlog : 52 ≤ m.log2 := (Nat.le_log2 (by omega)).mpr h
      omega

theorem two_pow_le_shiftLeft {m j k : ℕ} (hm : 0 < m) (h : j ≤ m.log2 + k) : 2 ^ j ≤ m <<< k :=
  calc 2 ^ j ≤ 2 ^ (m.log2 + k) := Nat.pow_le_pow_right (by norm_num) h
    _ = 2 ^ m.log2 * 2 ^ k := pow_add 2 m.log2 k
    _ ≤ m * 2 ^ k := Nat.mul_le_mul_right _ (Nat.log2_self_le hm.ne')
    _ = m <<< k := (Nat.shiftLeft_eq m k).symm

section

variable {m n : ℕ} (e f : ℤ) (hm : 0 < m) (hn : 0 < n)

include hm in
/-- Division extends the dividend until the quotient has all bits. -/
theorem divCore_eq (n : ℕ) :
    ∃ (t : ℤ) (k : ℕ), e - f = t + k ∧ (t ≤ -1074 ∨ 2 ^ 52 * n ≤ m <<< k) ∧
      divCore .binary64 m e n f = (m <<< k / n, t, accuracyOfFraction (m <<< k % n) n) := by
  -- the exponent of the quotient; the dividend takes as many zeros as it is lower than `e - f`
  let t := min (e - f) (max (m.log2 + e + 1 - (n.log2 + f + 1) - 53) (-1074))
  refine ⟨t, (e - f - t).toNat, by omega, ?_, ?_⟩
  · refine or_iff_not_imp_left.mpr fun ht => ?_
    calc 2 ^ 52 * n ≤ 2 ^ 52 * 2 ^ (n.log2 + 1) := Nat.mul_le_mul_left _ Nat.lt_log2_self.le
      _ = 2 ^ (52 + (n.log2 + 1)) := (pow_add 2 _ _).symm
      _ ≤ m <<< (e - f - t).toNat := two_pow_le_shiftLeft hm (by omega)
  · unfold divCore
    rw [targetExponent_eq, totalExponent_eq, totalExponent_eq]

theorem number_div_finite :
    (FloatClass.of ⟨.pack (.div .binary64 (.finite .positive m e hm)
      (.finite .positive n f hn))⟩).number? = some (roundMagnitude (m * 2 ^ e / (n * 2 ^ f))) := by
  obtain ⟨t, k, hexp, hlong, hcore⟩ := divCore_eq e f hm n
  have hquot : (m * 2 ^ e : ℚ) / (n * 2 ^ f) = (m <<< k : ℕ) / n * 2 ^ t := by
    have hpow : (2 : ℚ) ^ e / 2 ^ f = 2 ^ t * 2 ^ k := by
      rw [← zpow_sub₀ (by norm_num), hexp, zpow_add₀ (by norm_num), zpow_natCast]
    rw [Nat.shiftLeft_eq, mul_div_mul_comm, hpow]
    push_cast
    ring
  have hpos : 0 < (m * 2 ^ e : ℚ) / (n * 2 ^ f) := by positivity
  unfold UnpackedFloat.div
  dsimp only
  rw [hcore]
  rw [hquot] at hpos ⊢
  exact (mantissa_quotient hn hlong).number hpos _

theorem number_mul_finite (h : e + f ≤ -1074 ∨ 2 ^ 52 ≤ m * n) :
    (FloatClass.of ⟨.pack (.mul .binary64 (.finite .positive m e hm)
      (.finite .positive n f hn))⟩).number? = some (roundMagnitude (m * 2 ^ e * (n * 2 ^ f))) := by
  have hprod : (m * 2 ^ e * (n * 2 ^ f) : ℚ) = (m * n : ℕ) * 2 ^ (e + f) := by
    rw [zpow_add₀ (by norm_num)]
    push_cast
    ring
  have hpos : 0 < (m * 2 ^ e * (n * 2 ^ f) : ℚ) := by positivity
  rw [hprod] at hpos ⊢
  exact (mantissa_exact h).number hpos _

end

theorem round_eq (s : Sign) {m k : ℕ} {e : ℤ}
    (hk : (e - max (m.log2 + e + 1 - 53) (-1074)).toNat = k) :
    round .binary64 s m e = roundWithAccuracy .binary64 s (m <<< k) (e - k) .exact := by
  unfold UnpackedFloat.round decreaseExponent
  rw [targetExponent_eq, totalExponent_eq]
  dsimp only
  rw [hk]

theorem number_round {m : ℕ} (e : ℤ) (hm : 0 < m) :
    (FloatClass.of ⟨.pack (round .binary64 .positive m e)⟩).number? =
      some (roundMagnitude (m * 2 ^ e)) := by
  obtain ⟨k, hk⟩ : ∃ k, (e - max ((m.log2 : ℤ) + e + 1 - 53) (-1074)).toNat = k := ⟨_, rfl⟩
  have hvalue : (m * 2 ^ e : ℚ) = (m <<< k : ℕ) * 2 ^ (e - k) := by
    rw [Nat.shiftLeft_eq, zpow_sub₀ (by norm_num), zpow_natCast]
    push_cast
    field_simp
  have hpos : 0 < (m * 2 ^ e : ℚ) := by positivity
  have hlong : e - k ≤ -1074 ∨ 2 ^ 52 ≤ m <<< k :=
    or_iff_not_imp_left.mpr fun he => two_pow_le_shiftLeft hm (by omega)
  rw [round_eq _ hk]
  rw [hvalue] at hpos ⊢
  exact (mantissa_exact hlong).number hpos _

/-! ## Operations on doubles -/

theorem finite_of_number {x : Float} {a : ℚ} (hx : (FloatClass.of x).number? = some a)
    (hpos : 0 < a) (hlt : a < 2 ^ 1024) :
    ∃ m e hm, x.toModel.unpack = .finite .positive m e hm ∧ IsDouble m e ∧ a = m * 2 ^ e := by
  have hcanonical := isCanonical_unpack x.toModel
  rw [FloatClass.of_eq] at hx
  generalize x.toModel.unpack = u at hx hcanonical
  cases u with
  | notANumber => cases hx
  | infinity s =>
    obtain rfl := Option.some.inj hx
    cases s
    · exact absurd hpos (not_lt.mpr (neg_nonpos.mpr (by positivity)))
    · exact absurd hlt (lt_irrefl _)
  | zero s =>
    obtain rfl := Option.some.inj ((number_zero s).symm.trans hx)
    exact absurd hpos (lt_irrefl _)
  | finite s m e hm =>
    obtain rfl := Option.some.inj hx
    cases s
    · exact absurd hpos (not_lt.mpr (neg_nonpos.mpr (by positivity)))
    · exact ⟨m, e, hm, rfl, hcanonical _ _ _ _ rfl, rfl⟩

section

variable {x y : Float} {a b : ℚ} (hx : (FloatClass.of x).number? = some a)
  (hy : (FloatClass.of y).number? = some b) (ha : 0 < a) (hb : 0 < b) (ha' : a < 2 ^ 1024)
  (hb' : b < 2 ^ 1024)

include hx hy ha hb ha' hb'

theorem number_div : (FloatClass.of (x / y)).number? = some (roundMagnitude (a / b)) := by
  obtain ⟨m, e, hm, hu, -, rfl⟩ := finite_of_number hx ha ha'
  obtain ⟨n, f, hn, hv, -, rfl⟩ := finite_of_number hy hb hb'
  have hdiv : x / y = ⟨.pack (.div .binary64 x.toModel.unpack y.toModel.unpack)⟩ := rfl
  rw [hdiv, hu, hv]
  exact number_div_finite e f hm hn

theorem number_mul : (FloatClass.of (x * y)).number? = some (roundMagnitude (a * b)) := by
  obtain ⟨m, e, hm, hu, hd, rfl⟩ := finite_of_number hx ha ha'
  obtain ⟨n, f, hn, hv, hd', rfl⟩ := finite_of_number hy hb hb'
  have hmul : x * y = ⟨.pack (.mul .binary64 x.toModel.unpack y.toModel.unpack)⟩ := rfl
  rw [hmul, hu, hv]
  refine number_mul_finite e f hm hn ?_
  -- One normal factor is long enough; two others are below the lowest bit.
  rcases hd.normal with h | rfl
  · exact .inr (h.trans (Nat.le_mul_of_pos_right _ hn))
  · rcases hd'.normal with h | rfl
    · exact .inr (h.trans (Nat.le_mul_of_pos_left _ hm))
    · exact .inl (by norm_num)

end

theorem signed_neg (s : Sign) (q : ℚ) : signed (isMinus (-s)) q = -signed (isMinus s) q := by
  cases s
  · exact (neg_neg q).symm
  · rfl

theorem number_neg {x : Float} {a : ℚ} (hx : (FloatClass.of x).number? = some a) :
    (FloatClass.of (-x)).number? = some (-a) := by
  have hcanonical := isCanonical_unpack x.toModel
  have hneg : -x = ⟨.pack x.toModel.unpack.neg⟩ := rfl
  rw [FloatClass.of_eq] at hx
  rw [hneg]
  generalize x.toModel.unpack = u at hx hcanonical
  cases u with
  | notANumber => cases hx
  | infinity s =>
    obtain rfl := Option.some.inj hx
    show (FloatClass.of ⟨.pack (.infinity (-s))⟩).number? = _
    rw [FloatClass.of_packedInfinity rfl]
    exact congrArg some (signed_neg s _)
  | zero s =>
    obtain rfl := Option.some.inj ((number_zero s).symm.trans hx)
    show (FloatClass.of ⟨.pack (.zero (-s))⟩).number? = _
    rw [FloatClass.of_packedZero rfl, neg_zero]
    exact number_zero _
  | finite s m e hm =>
    obtain rfl := Option.some.inj hx
    show (FloatClass.of ⟨.pack (.finite (-s) m e hm)⟩).number? = _
    rw [FloatClass.of_pack hm (hcanonical _ _ _ _ rfl)]
    exact congrArg some (signed_neg s _)

/-! ## The exact operands of decimal notation -/

theorem number_natCast {n : ℕ} (hn : n < 2 ^ 53) :
    (FloatClass.of n.toUInt64.toFloat).number? = some (n : ℚ) := by
  have hmod : n.toUInt64.toNat = n := by
    rw [Nat.toUInt64, UInt64.toNat_ofNat']
    omega
  have hfloat : n.toUInt64.toFloat = ⟨.pack (normalize .binary64 n.toUInt64.toNat 0 .positive)⟩ :=
    rfl
  rw [hfloat, hmod]
  unfold UnpackedFloat.normalize
  rcases Nat.eq_zero_or_pos n with rfl | hpos
  · rw [Nat.cast_zero, Nat.cast_zero, compare_eq_iff_eq.mpr rfl]
    dsimp only
    rw [FloatClass.of_packedZero rfl]
    exact number_zero .positive
  · rw [compare_gt_iff_gt.mpr (by exact_mod_cast hpos)]
    dsimp only
    rw [Int.toNat_natCast, number_round 0 hpos, zpow_zero, mul_one, roundMagnitude_natCast hn]

/-- The number of a double as a fraction. -/
theorem FloatParts.toRat_eq (d : FloatParts) :
    d.toRat = signed d.negative (d.numerator / d.denominator) := by
  unfold toRat numerator denominator
  congr 1
  rcases le_total 0 d.exponent with h | h
  · obtain ⟨n, hn⟩ := Int.eq_ofNat_of_zero_le h
    rw [hn, Int.toNat_natCast, Int.toNat_neg_natCast]
    simp [Nat.pow_eq]
  · obtain ⟨n, hn⟩ := Int.exists_eq_neg_ofNat h
    rw [hn, Int.toNat_neg_natCast, neg_neg, Int.toNat_natCast, zpow_neg, zpow_natCast]
    simp [Nat.pow_eq, div_eq_mul_inv]

/-- Is the double this power of ten? -/
def isPowerOfTen (x : Float) (e : ℕ) : Bool :=
  match FloatClass.of x with
  | .finite d => !d.negative && d.numerator == 10 ^ e * d.denominator
  | _ => false

theorem number_of_isPowerOfTen {x : Float} {e : ℕ} (h : isPowerOfTen x e = true) :
    (FloatClass.of x).number? = some (10 ^ e) := by
  unfold isPowerOfTen at h
  cases hx : FloatClass.of x with
  | finite d =>
    rw [hx] at h
    simp only [Bool.and_eq_true, Bool.not_eq_true', beq_iff_eq] at h
    have hden : (d.denominator : ℚ) ≠ 0 := by simp [FloatParts.denominator]
    rw [FloatClass.number?, FloatParts.toRat_eq, h.1, h.2]
    push_cast
    rw [mul_div_cancel_right₀ _ hden]
    rfl
  | infinite b =>
    rw [hx] at h
    cases h
  | notANumber =>
    rw [hx] at h
    cases h

theorem isPowerOfTen_table : ∀ e, (h : e < Float.exactlyRepresentablePowersOfTen.size) →
    isPowerOfTen Float.exactlyRepresentablePowersOfTen[e] e = true := by
  decide +kernel

theorem ten_pow_lt_top {e : ℕ} (h : e ≤ 22) : (10 : ℚ) ^ e < 2 ^ 1024 :=
  calc (10 : ℚ) ^ e ≤ 10 ^ 22 := pow_le_pow_right₀ (by norm_num) h
    _ < 2 ^ 74 := by norm_num
    _ ≤ 2 ^ 1024 := pow_le_pow_right₀ (by norm_num) (by norm_num)

/-! ## Decimal notation -/

theorem two_pow_le_ten_pow {j k : ℕ} (h : j ≤ 3 * k) : (2 : ℚ) ^ j ≤ 10 ^ k :=
  calc (2 : ℚ) ^ j ≤ 2 ^ (3 * k) := pow_le_pow_right₀ (by norm_num) h
    _ = 8 ^ k := by rw [pow_mul]; norm_num
    _ ≤ 10 ^ k := by gcongr; norm_num

/-- Numbers with more than four hundred digits before the point are too large. -/
theorem roundMagnitude_of_many_digits {m : ℕ} {n e : ℤ} (hm : 10 ^ n ≤ (m : ℚ)) (h : 400 ≤ n + e) :
    roundMagnitude (m * 10 ^ e) = 2 ^ 1024 := by
  obtain ⟨k, hk⟩ := Int.eq_ofNat_of_zero_le (by omega : 0 ≤ n + e)
  refine roundMagnitude_of_large ?_
  calc (2 : ℚ) ^ 1024 ≤ 10 ^ k := two_pow_le_ten_pow (by omega)
    _ = 10 ^ n * 10 ^ e := by rw [← zpow_add₀ (by norm_num), hk, zpow_natCast]
    _ ≤ m * 10 ^ e := by gcongr

/-- Numbers that begin only after four hundred places are too small. -/
theorem roundMagnitude_of_many_places {m : ℕ} {n e : ℤ} (hm : (m : ℚ) ≤ 10 ^ n) (h : n + e ≤ -400) :
    roundMagnitude (m * 10 ^ e) = 0 := by
  obtain ⟨k, hk⟩ := Int.exists_eq_neg_ofNat (by omega : n + e ≤ 0)
  refine roundMagnitude_of_small (by positivity) ?_
  calc (m * 10 ^ e : ℚ) ≤ 10 ^ n * 10 ^ e := by gcongr
    _ = (10 ^ k)⁻¹ := by rw [← zpow_add₀ (by norm_num), hk, zpow_neg, zpow_natCast]
    _ ≤ (2 ^ 1075)⁻¹ := inv_anti₀ (by positivity) (two_pow_le_ten_pow (by omega))
    _ = 2 ^ (-1075 : ℤ) := by rw [zpow_neg, zpow_ofNat]

theorem number_modelOfScientific (m : ℕ) (e : ℤ) :
    (FloatClass.of ⟨Float.Model.ofScientific m e⟩).number? =
      some (roundMagnitude (m * 10 ^ e)) := by
  have hbits : (2 : ℤ) ^ Format.binary64.exponentBits = 2048 := rfl
  unfold Float.Model.ofScientific UnpackedFloat.ofScientific
  rw [hbits]
  -- no digits, an exponent that is too large or too small, and then a product or a quotient
  split_ifs with hm hlarge hsmall hsign
  · rw [FloatClass.of_packedZero rfl, hm, Nat.cast_zero, zero_mul, roundMagnitude_zero]
    exact number_zero .positive
  · have hone : (10 : ℚ) ^ (0 : ℤ) ≤ m := by
      rw [zpow_zero]
      exact_mod_cast Nat.pos_of_ne_zero hm
    rw [FloatClass.of_packedInfinity rfl, roundMagnitude_of_many_digits hone (by omega)]
    rfl
  · have hlog : (m : ℚ) ≤ 10 ^ (m.log2 + 1 : ℤ) :=
      calc (m : ℚ) ≤ 2 ^ (m.log2 + 1) := by exact_mod_cast Nat.lt_log2_self.le
        _ ≤ 10 ^ (m.log2 + 1) := by gcongr; norm_num
        _ = 10 ^ (m.log2 + 1 : ℤ) := by norm_cast
    rw [FloatClass.of_packedZero rfl, roundMagnitude_of_many_places hlog (by omega)]
    exact number_zero .positive
  · have hlong : 2 ^ 52 ≤ m <<< 53 * 10 ^ e.toNat :=
      calc 2 ^ 52 ≤ m <<< 53 := two_pow_le_shiftLeft (Nat.pos_of_ne_zero hm) (by omega)
        _ ≤ m <<< 53 * 10 ^ e.toNat := Nat.le_mul_of_pos_right _ (by positivity)
    have hvalue : (m * 10 ^ e : ℚ) =
        ((m <<< 53 : ℕ) : ℚ) * 2 ^ (-53 : ℤ) * ((10 ^ e.toNat : ℕ) * 2 ^ (0 : ℤ)) := by
      obtain ⟨k, rfl⟩ := Int.eq_ofNat_of_zero_le hsign
      rw [Nat.shiftLeft_eq, Int.toNat_natCast]
      push_cast
      field_simp
      norm_num
      ring
    rw [hvalue]
    exact number_mul_finite (-53) 0 _ _ (.inr hlong)
  · have hvalue : (m * 10 ^ e : ℚ) =
        (m * 2 ^ (0 : ℤ)) / ((10 ^ (-e).toNat : ℕ) * 2 ^ (0 : ℤ)) := by
      obtain ⟨k, rfl⟩ := Int.exists_eq_neg_ofNat (le_of_not_ge hsign)
      rw [neg_neg, Int.toNat_natCast, zpow_neg, zpow_natCast]
      push_cast
      simp [div_eq_mul_inv]
    rw [hvalue]
    exact number_div_finite 0 0 _ _

/-- Digits with a power of ten below or above them. -/
theorem number_ofScientific {m : ℕ} (hm : 0 < m) (e : ℕ) :
    (FloatClass.of (Float.ofScientific m true e)).number? =
        some (roundMagnitude (m * 10 ^ (-e : ℤ))) ∧
      (FloatClass.of (Float.ofScientific m false e)).number? =
        some (roundMagnitude (m * 10 ^ (e : ℤ))) := by
  have hpos : (0 : ℚ) < m := by exact_mod_cast hm
  unfold Float.ofScientific
  by_cases h : m < 2 ^ 53 ∧ e ≤ 22
  · -- Both operands are doubles themselves.
    have hx := number_natCast h.1
    have hy := number_of_isPowerOfTen (isPowerOfTen_table e (Nat.lt_succ_of_le h.2))
    have hdiv := number_div hx hy hpos (by positivity) (natCast_lt_top h.1) (ten_pow_lt_top h.2)
    have hmul := number_mul hx hy hpos (by positivity) (natCast_lt_top h.1) (ten_pow_lt_top h.2)
    rw [dif_pos h, dif_pos h, zpow_neg, zpow_natCast, ← div_eq_mul_inv]
    exact ⟨hdiv, hmul⟩
  · have hneg : (-e : ℤ) = Int.negOfNat e := Int.negOfNat_eq.symm
    rw [dif_neg h, dif_neg h, hneg]
    exact ⟨number_modelOfScientific m _, number_modelOfScientific m e⟩

theorem lt_pow_length_toDigits (d : ℕ) : d < 10 ^ (Nat.toDigits 10 d).length :=
  (Nat.length_toDigits_le_iff (by norm_num) Nat.length_toDigits_pos).mp le_rfl

theorem pow_length_toDigits_le {d : ℕ} (hd : 0 < d) :
    10 ^ ((Nat.toDigits 10 d).length - 1) ≤ d := by
  rcases Nat.eq_zero_or_pos ((Nat.toDigits 10 d).length - 1) with h | h
  · rw [h, pow_zero]
    exact hd
  · by_contra hlt
    have := (Nat.length_toDigits_le_iff (by norm_num) h).mpr (not_le.mp hlt)
    omega

theorem number_zero_double : (FloatClass.of 0.0).number? = some 0 := by
  rw [show FloatClass.of 0.0 = .finite ⟨false, 0, -1074⟩ by decide +kernel]
  exact number_zero .positive

/-- The double of a number in decimal notation is the nearest one. -/
theorem number_scientific (d : ℕ) (e : ℤ) :
    (FloatClass.of (scientific d e)).number? = some (roundMagnitude (d * 10 ^ e)) := by
  have hlow : (d : ℚ) ≤ 10 ^ ((Nat.toDigits 10 d).length : ℤ) := by
    rw [zpow_natCast]
    exact_mod_cast (lt_pow_length_toDigits d).le
  unfold scientific
  dsimp only
  split_ifs with hsmall hlarge hneg
  · rw [number_zero_double]
    rw [Bool.or_eq_true, beq_iff_eq, decide_eq_true_eq] at hsmall
    rcases hsmall with rfl | hsize
    · rw [Nat.cast_zero, zero_mul, roundMagnitude_zero]
    · rw [roundMagnitude_of_many_places hlow (by omega)]
  all_goals
    have hpos : 0 < d := Nat.pos_of_ne_zero fun h => hsmall (by simp [h])
  · have hhigh : (10 : ℚ) ^ (((Nat.toDigits 10 d).length - 1 : ℕ) : ℤ) ≤ d := by
      rw [zpow_natCast]
      exact_mod_cast pow_length_toDigits_le hpos
    have htop : FloatClass.of (1.0 / 0.0) = .infinite false := by decide +kernel
    rw [htop, roundMagnitude_of_many_digits hhigh (by omega)]
    rfl
  · have habs : (-(e.natAbs : ℤ)) = e := by omega
    rw [(number_ofScientific hpos _).1, habs]
  · have habs : (10 : ℚ) ^ e = 10 ^ e.natAbs := by
      rw [← zpow_natCast, show (e.natAbs : ℤ) = e by omega]
    rw [Nat.pow_eq, (number_ofScientific (Nat.mul_pos hpos (by positivity)) 0).2, habs]
    simp

end Scalarize
