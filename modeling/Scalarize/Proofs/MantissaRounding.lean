import Scalarize.Proofs.DoubleValues
import Scalarize.Proofs.DoubleRounding

/-!
# Scalarize — rounding a mantissa

An operation on doubles computes a mantissa with all bits that a double can have, and says of the
rest only whether it is nothing, less than a half, a half or more. Shifting the mantissa to the
right keeps this account of the rest right, so it is enough to find the nearest double.

* **`Describes`** — the rest that an accuracy stands for.
* **`describes_shiftRight`** — shifting keeps the account of the rest.
* **`Mantissa`** — a mantissa that is long enough, with the account of the rest.
* **`Mantissa.round_cases`** — it is rounded to the count of the nearest double.
* **`Mantissa.number`** — packed into a double, it is the nearest one.
-/

namespace Scalarize

open Float.Model Float.Model.UnpackedFloat

/-! ## The rest after a mantissa -/

/-- The rest that an accuracy stands for, in units of the last bit. -/
def Describes : Accuracy → ℚ → Prop
  | .exact, f => f = 0
  | .inexact .lt, f => 0 < f ∧ 2 * f < 1
  | .inexact .eq, f => 2 * f = 1
  | .inexact .gt, f => 1 < 2 * f ∧ f < 1

theorem Describes.bounds {a : Accuracy} {f : ℚ} (h : Describes a f) : 0 ≤ f ∧ f < 1 := by
  rcases a with _ | _ | _ | _ <;> simp only [Describes] at h <;> grind

theorem Describes.floor {a : Accuracy} {q : ℚ} {m : ℕ} (h : Describes a (q - m)) : ⌊q⌋ = m := by
  obtain ⟨h₀, h₁⟩ := h.bounds
  rw [Int.floor_eq_iff]
  constructor <;> push_cast <;> linarith

theorem Describes.rounded {a : Accuracy} {q : ℚ} {m : ℕ} (h : Describes a (q - m)) :
    (a.roundToNearestEven m : ℤ) = roundEven q := by
  unfold roundEven
  rw [h.floor, Int.cast_natCast]
  rcases a with _ | _ | _ | _ <;> simp only [Describes] at h <;>
    simp only [Accuracy.roundToNearestEven]
  · rw [if_pos (by linarith)]
  · rw [if_pos (by linarith)]
  · rw [if_neg (by linarith), if_pos (by linarith)]
    push_cast
    rfl
  · rw [if_neg (by linarith), if_neg (by linarith)]
    push_cast
    rfl

/-- One step to the right: the bit that falls out and what was known of the rest make up the new
account. -/
theorem describes_shiftRightOne {em : ExtendedMantissa} {q : ℚ}
    (h : Describes em.accuracy (2 * q - em.mantissa)) :
    Describes em.shiftRightOne.accuracy (q - em.shiftRightOne.mantissa) := by
  obtain ⟨m, round, sticky⟩ := em
  have hdiv : (m : ℚ) = 2 * (m / 2 : ℕ) + (m % 2 : ℕ) := by
    exact_mod_cast (Nat.div_add_mod m 2).symm
  unfold ExtendedMantissa.shiftRightOne
  generalize m / 2 = n at *
  -- eight cases: the bit that falls out, the round bit and the sticky bit
  rcases Nat.mod_two_eq_zero_or_one m with hm | hm <;> rw [hm] at hdiv ⊢ <;>
    cases round <;> cases sticky <;>
    simp only [ExtendedMantissa.accuracy, Describes, bne_self_eq_false, Bool.or_true,
      Bool.or_false, Nat.cast_zero, Nat.cast_one, Nat.reduceBNe] at h hdiv ⊢ <;> grind

theorem describes_shiftRight {em : ExtendedMantissa} {q : ℚ}
    (h : Describes em.accuracy (q - em.mantissa)) (k : ℕ) :
    Describes (em >>> k).accuracy (q / 2 ^ k - (em >>> k).mantissa) := by
  induction k with
  | zero =>
    rw [pow_zero, div_one]
    exact h
  | succ k ih =>
    refine describes_shiftRightOne ?_
    rwa [pow_succ, ← div_div, mul_div_cancel₀ _ two_ne_zero]

theorem describes_ofMantissa {a : Accuracy} {m : ℕ} {q : ℚ} (h : Describes a (q - m)) :
    Describes (ExtendedMantissa.ofMantissaAndAccuracy m a).accuracy
      (q - (ExtendedMantissa.ofMantissaAndAccuracy m a).mantissa) := by
  rcases a with _ | _ | _ | _ <;> exact h

/-! ## Shifting and rounding -/

theorem targetExponent_eq (e : ℤ) :
    Format.binary64.targetExponent e = max (e - 53) (-1074) := rfl

theorem totalExponent_eq (m : ℕ) (e : ℤ) : totalExponent m e = m.log2 + e + 1 := by
  unfold totalExponent
  ring

theorem shiftToTargetExponent_eq {m k : ℕ} {e : ℤ} (a : Accuracy)
    (hk : (max (m.log2 + e - 52) (-1074) - e).toNat = k) :
    shiftToTargetExponent .binary64 m e a =
      (ExtendedMantissa.ofMantissaAndAccuracy m a >>> k, e + k) := by
  have htarget : max ((m.log2 : ℤ) + e + 1 - 53) (-1074) = max (m.log2 + e - 52) (-1074) := by
    omega
  unfold shiftToTargetExponent shiftToExponent
  rw [targetExponent_eq, totalExponent_eq, htarget]
  dsimp only
  rw [hk]

/-- A mantissa before rounding, for the number `q`. It has all bits that the result will have: the
exponent is not above that of the result. -/
structure Mantissa (q : ℚ) (m : ℕ) (e : ℤ) (a : Accuracy) : Prop where
  describes : Describes a (q / 2 ^ e - m)
  long : e ≤ max (m.log2 + e - 52) (-1074)

namespace Mantissa

variable {q : ℚ} {m : ℕ} {e : ℤ} {a : Accuracy}

theorem log_eq (h : Mantissa q m e a) (hm : 0 < m) : Int.log 2 q = m.log2 + e := by
  obtain ⟨h₀, h₁⟩ := h.describes.bounds
  have hpos : (0 : ℚ) < 2 ^ e := by positivity
  have hlow : (2 : ℚ) ^ m.log2 ≤ m := by exact_mod_cast Nat.log2_self_le hm.ne'
  have hhigh : (m : ℚ) + 1 ≤ 2 ^ (m.log2 + 1) := by exact_mod_cast Nat.lt_log2_self
  have hge : (2 : ℚ) ^ (m.log2 + e : ℤ) ≤ q := by
    rw [zpow_add₀ (by norm_num), zpow_natCast, ← le_div_iff₀ hpos]
    linarith
  have hlt : q < 2 ^ (m.log2 + e + 1 : ℤ) := by
    rw [show (m.log2 + e + 1 : ℤ) = (m.log2 + 1 : ℕ) + e by push_cast; ring,
      zpow_add₀ (by norm_num), zpow_natCast, ← div_lt_iff₀ hpos]
    linarith
  have hq : 0 < q := lt_of_lt_of_le (by positivity) hge
  have hlog : m.log2 + e ≤ Int.log 2 q :=
    (Int.zpow_le_iff_le_log (by norm_num) hq).mp (by exact_mod_cast hge)
  have hlog' : Int.log 2 q < m.log2 + e + 1 :=
    (Int.lt_zpow_iff_log_lt (by norm_num) hq).mp (by exact_mod_cast hlt)
  omega

theorem gridExponent_eq (h : Mantissa q m e a) (hq : 0 < q) :
    max (m.log2 + e - 52) (-1074) = gridExponent q := by
  unfold gridExponent
  rcases Nat.eq_zero_or_pos m with rfl | hm
  · -- Nothing but the rest is left, so the number is below the lowest bit.
    have hlong : e ≤ -1074 := by simpa using h.long
    have hlt : q < 2 ^ (-1074 : ℤ) := by
      have h₁ := h.describes.bounds.2
      have hpos : (0 : ℚ) < 2 ^ e := by positivity
      rw [Nat.cast_zero, sub_zero, div_lt_one hpos] at h₁
      exact h₁.trans_le (zpow_le_zpow_right₀ (by norm_num) hlong)
    have hlog : Int.log 2 q < -1074 :=
      (Int.lt_zpow_iff_log_lt (by norm_num) hq).mp (by exact_mod_cast hlt)
    rw [Nat.log2_zero]
    omega
  · rw [h.log_eq hm]

/-- Shifted to the grid and rounded, the mantissa is the count of the nearest double. -/
theorem shift (h : Mantissa q m e a) (hq : 0 < q) :
    ∃ em, shiftToTargetExponent .binary64 m e a = (em, gridExponent q) ∧
      (em.roundedMantissa : ℤ) = roundEven (q / 2 ^ gridExponent q) := by
  have hlong := h.long
  rw [h.gridExponent_eq hq] at hlong
  obtain ⟨k, hk⟩ := Int.le.dest hlong
  refine ⟨ExtendedMantissa.ofMantissaAndAccuracy m a >>> k, ?_, ?_⟩
  · rw [@shiftToTargetExponent_eq m k e a (by rw [h.gridExponent_eq hq]; omega), hk]
  · have hshift := describes_shiftRight (describes_ofMantissa h.describes) k
    rw [div_div, ← zpow_natCast, ← zpow_add₀ (by norm_num), hk] at hshift
    exact hshift.rounded

end Mantissa

theorem shift_exact {r : ℕ} {t : ℤ} (hr : r < 2 ^ 53) (ht : -1074 ≤ t) :
    shiftToTargetExponent .binary64 r t .exact = (⟨r, false, false⟩, t) := by
  have hlog : r.log2 ≤ 52 := by
    rcases Nat.eq_zero_or_pos r with rfl | hpos
    · simp
    · exact Nat.lt_succ_iff.mp ((Nat.log2_lt hpos.ne').mpr hr)
  rw [@shiftToTargetExponent_eq r 0 t .exact (by omega), Nat.cast_zero, add_zero]
  rfl

/-- Rounding up to the next power of two takes one more bit. -/
theorem shift_carry {t : ℤ} (ht : -1074 ≤ t) :
    shiftToTargetExponent .binary64 (2 ^ 53) t .exact = (⟨2 ^ 52, false, false⟩, t + 1) := by
  have hone : (max (((2 ^ 53 : ℕ).log2 : ℤ) + t - 52) (-1074) - t).toNat = 1 := by
    rw [Nat.log2_two_pow]
    omega
  rw [shiftToTargetExponent_eq .exact hone]
  rfl

theorem roundWithAccuracy_eq {m : ℕ} {e t t' : ℤ} {a : Accuracy} {em em' : ExtendedMantissa}
    (s : Sign) (h : shiftToTargetExponent .binary64 m e a = (em, t))
    (h' : shiftToTargetExponent .binary64 em.roundedMantissa t .exact = (em', t')) :
    roundWithAccuracy .binary64 s m e a =
      if hm : em'.mantissa = 0 then .zero s
      else .finite s em'.mantissa t' (Nat.pos_of_ne_zero hm) := by
  unfold roundWithAccuracy
  rw [h]
  dsimp only
  rw [h']

/-- What rounding gives: zero, or a mantissa of the length of a double. -/
theorem Mantissa.round_cases {q : ℚ} {m : ℕ} {e : ℤ} {a : Accuracy} (h : Mantissa q m e a)
    (hq : 0 < q) (s : Sign) :
    (roundWithAccuracy .binary64 s m e a = .zero s ∧ roundEven (q / 2 ^ gridExponent q) = 0) ∨
    ∃ n f hn, roundWithAccuracy .binary64 s m e a = .finite s n f hn ∧
      (n : ℚ) * 2 ^ f = roundEven (q / 2 ^ gridExponent q) * 2 ^ gridExponent q ∧
      n < 2 ^ 53 ∧ -1074 ≤ f ∧ (2 ^ 52 ≤ n ∨ f = -1074) := by
  obtain ⟨em, hshift, hround⟩ := h.shift hq
  have hgrid := le_gridExponent q
  have hnormal := le_roundEven_grid hq
  have hle := roundEven_grid_le hq
  rw [← hround] at hle hnormal ⊢
  rcases (show em.roundedMantissa ≤ 2 ^ 53 by exact_mod_cast hle).lt_or_eq with hlt | heq
  · rw [roundWithAccuracy_eq s hshift (shift_exact hlt hgrid)]
    split
    · next hr => exact .inl ⟨rfl, by exact_mod_cast hr⟩
    · next hr =>
      refine .inr ⟨_, _, Nat.pos_of_ne_zero hr, rfl, by norm_cast, hlt, hgrid, ?_⟩
      rcases hgrid.eq_or_lt with heq | hgt
      · exact .inr heq.symm
      · exact .inl (by exact_mod_cast hnormal hgt)
  · -- rounding up has made a power of two, which is shifted once more
    rw [roundWithAccuracy_eq s hshift (heq ▸ shift_carry hgrid), heq]
    refine .inr ⟨2 ^ 52, gridExponent q + 1, by positivity, rfl, ?_, by norm_num, by omega,
      .inl le_rfl⟩
    rw [zpow_add₀ (by norm_num)]
    push_cast
    ring

/-! ## Packing -/

theorem unpackSign_packComponents {spec : Format} {s : Sign} {e : BitVec spec.exponentBits}
    {m : BitVec spec.mantissaBitsWithoutImplicit} :
    unpackSign (packComponents spec s e m) = s.toBitVec := by
  ext i hi
  have hmantissa : ¬ spec.mantissaBitsWithoutImplicit + spec.exponentBits + i <
      spec.mantissaBitsWithoutImplicit := by omega
  have hexponent : spec.mantissaBitsWithoutImplicit + spec.exponentBits + i -
      spec.mantissaBitsWithoutImplicit = spec.exponentBits + i := by omega
  simp [unpackSign, packComponents, BitVec.getLsbD_append, hmantissa, hexponent,
    BitVec.getLsbD_eq_getElem, hi]

theorem toNat_toBitVec (s : Sign) : (s.toBitVec.toNat == 1) = isMinus s := by
  cases s <;> rfl

namespace FloatClass

section

variable {u : UnpackedFloat} {s : Sign}

/-- What a double stands for, from its three fields. -/
theorem of_packComponents {e : BitVec 11} {m : BitVec 52}
    (h : u.pack .binary64 = packComponents .binary64 s e m) :
    FloatClass.of ⟨.pack u⟩ =
      if e.toNat = 2047 then if m.toNat = 0 then .infinite (isMinus s) else .notANumber
      else if e.toNat = 0 then .finite ⟨isMinus s, m.toNat, -1074⟩
      else .finite ⟨isMinus s, 2 ^ 52 + m.toNat, (e.toNat : ℤ) - 1075⟩ := by
  have hbits : (Float.toBits ⟨.pack u⟩).toNat = (packComponents .binary64 s e m).toNat :=
    congrArg BitVec.toNat h
  unfold FloatClass.of
  simp only [Nat.pow_eq, hbits, ← toNat_unpackExponent, ← toNat_unpackMantissa, ← toNat_unpackSign,
    unpackExponent_packComponents, unpackMantissa_packComponents, unpackSign_packComponents,
    toNat_toBitVec, beq_iff_eq]

theorem of_packedInfinity (h : u.pack .binary64 = packedInfinity .binary64 s) :
    FloatClass.of ⟨.pack u⟩ = .infinite (isMinus s) := by
  rw [of_packComponents h]
  rfl

theorem of_packedZero (h : u.pack .binary64 = packedZero .binary64 s) :
    FloatClass.of ⟨.pack u⟩ = .finite ⟨isMinus s, 0, -1074⟩ := by
  rw [of_packComponents h]
  rfl

end

variable {s : Sign} {m : ℕ} {e : ℤ} (hm : 0 < m)

theorem pack_finite :
    UnpackedFloat.pack .binary64 (.finite s m e hm) =
      if 972 ≤ e then packedInfinity .binary64 s
      else if m.log2 = 52 then
        packComponents .binary64 s (BitVec.ofNat 11 (e + 1075).toNat) (BitVec.ofNat 52 m)
      else packComponents .binary64 s (0#11) (BitVec.ofNat 52 m) := by
  have hbias : (e + Format.binary64.exponentBias +
      Format.binary64.mantissaBitsWithoutImplicit).toNat = (e + 1075).toNat := by
    rw [add_assoc]
    rfl
  have hlarge : 2 ^ Format.binary64.exponentBits ≤ (e + 1075).toNat + 1 ↔ 972 ≤ e := by
    show 2 ^ 11 ≤ _ ↔ _
    omega
  have hlong : m.log2 + 1 = Format.binary64.mantissaBits ↔ m.log2 = 52 := by
    show _ = 52 + 1 ↔ _
    omega
  unfold UnpackedFloat.pack
  simp only [hbias, hlarge, hlong]

/-- Beyond the last exponent there are only the infinities. -/
theorem of_pack_overflow (h : 972 ≤ e) :
    FloatClass.of ⟨.pack (.finite s m e hm)⟩ = .infinite (isMinus s) :=
  of_packedInfinity ((pack_finite hm).trans (if_pos h))

/-- A finite double has the parts that it was packed from. -/
theorem of_pack (h : IsDouble m e) :
    FloatClass.of ⟨.pack (.finite s m e hm)⟩ = .finite ⟨isMinus s, m, e⟩ := by
  have hlow := h.le_exponent
  have hhigh := h.exponent_le
  have hlt := h.mantissa_lt
  have hlog : m.log2 = 52 ↔ 2 ^ 52 ≤ m := by
    rw [Nat.log2_eq_iff hm.ne']
    omega
  have hpack := @pack_finite s m e hm
  rw [if_neg (by omega)] at hpack
  by_cases hlong : 2 ^ 52 ≤ m
  · have hfield : (BitVec.ofNat 11 (e + 1075).toNat).toNat = (e + 1075).toNat := by
      rw [BitVec.toNat_ofNat, Nat.mod_eq_of_lt (by omega)]
    have hman : (BitVec.ofNat 52 m).toNat = m - 2 ^ 52 := by
      rw [BitVec.toNat_ofNat]
      omega
    rw [if_pos (hlog.mpr hlong)] at hpack
    rw [of_packComponents hpack, hfield, hman, if_neg (by omega), if_neg (by omega),
      show 2 ^ 52 + (m - 2 ^ 52) = m by omega, show ((e + 1075).toNat : ℤ) - 1075 = e by omega]
  · have hman : (BitVec.ofNat 52 m).toNat = m := by
      rw [BitVec.toNat_ofNat, Nat.mod_eq_of_lt (by omega)]
    rw [if_neg (mt hlog.mp hlong)] at hpack
    rw [of_packComponents hpack, hman, h.normal.resolve_left hlong]
    rfl

end FloatClass

/-- A mantissa that is long enough is rounded to the nearest double. -/
theorem Mantissa.number {q : ℚ} {m : ℕ} {e : ℤ} {a : Accuracy} (h : Mantissa q m e a)
    (hq : 0 < q) (s : Sign) :
    (FloatClass.of ⟨.pack (roundWithAccuracy .binary64 s m e a)⟩).number? =
      some (signed (isMinus s) (roundMagnitude q)) := by
  obtain ⟨hzero, hround⟩ | ⟨n, f, hn, hfinite, hvalue, hlt, hlow, hnormal⟩ := h.round_cases hq s
  · have hmag : roundMagnitude q = 0 := by
      unfold roundMagnitude
      rw [hround, Int.cast_zero, zero_mul]
      exact min_eq_right (by positivity)
    have hsigned : signed (isMinus s) 0 = 0 := by simp [signed]
    rw [hzero, FloatClass.of_packedZero rfl, hmag, hsigned]
    exact number_zero s
  · rw [hfinite]
    rcases le_or_gt f 971 with hle | hgt
    · have hdouble : IsDouble n f := ⟨hlt, hlow, hle, hnormal⟩
      rw [FloatClass.of_pack hn hdouble, roundMagnitude, ← hvalue, min_eq_right hdouble.value_lt.le]
      rfl
    · have hn' : (2 ^ 52 : ℚ) ≤ n := by exact_mod_cast hnormal.resolve_right (by omega)
      have hf : (2 : ℚ) ^ (972 : ℤ) ≤ 2 ^ f := zpow_le_zpow_right₀ (by norm_num) (by omega)
      have hge : (2 : ℚ) ^ 1024 ≤ n * 2 ^ f :=
        calc (2 : ℚ) ^ 1024 = 2 ^ 52 * (2 : ℚ) ^ (972 : ℤ) := by rw [zpow_ofNat, ← pow_add]
          _ ≤ (n : ℚ) * (2 : ℚ) ^ f := by gcongr
      rw [FloatClass.of_pack_overflow hn (by omega), roundMagnitude, ← hvalue, min_eq_left hge]
      rfl

end Scalarize
