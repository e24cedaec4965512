import Mathlib
import Scalarize.Numeral.Basic

/-!
# Scalarize — the numbers that doubles stand for

A double is taken apart into a sign, a mantissa and an exponent. The arithmetic on doubles does this
in its own way; here both ways are shown to agree, and doubles are compared through the numbers that
they stand for. An infinity stands at `2 ^ 1024`, the first power of two beyond the finite doubles,
so that all doubles but the one that is no number are ordered like numbers.

* **`FloatClass.number?`** — the number of a double.
* **`IsDouble`** — the mantissas and exponents of finite doubles; each number has one pair only.
* **`FloatClass.of_eq`** — the parts of a double are those that the arithmetic works with.
* **`lt_iff_number`**, **`le_iff_number`**, **`beq_iff_number`** — comparing doubles is comparing
  their numbers.
-/

namespace Scalarize

open Float.Model Float.Model.UnpackedFloat

/-- A number with a sign. -/
def signed (negative : Bool) (q : ℚ) : ℚ :=
  if negative then -q else q

/-- The number that the parts of a double stand for. -/
def FloatParts.toRat (d : FloatParts) : ℚ :=
  signed d.negative (d.mantissa * 2 ^ d.exponent)

/-- The number of a double. Infinity counts as the first power of two that is too large. -/
def FloatClass.number? : FloatClass → Option ℚ
  | .finite d => some d.toRat
  | .infinite negative => some (signed negative (2 ^ 1024))
  | .notANumber => none

/-! ## The two ways to take a double apart -/

/-- Is it the sign of a negative number? -/
def isMinus : Sign → Bool
  | .negative => true
  | .positive => false

/-- What a double stands for, from the parts that the arithmetic works with. -/
def FloatClass.ofUnpacked : UnpackedFloat → FloatClass
  | .notANumber => .notANumber
  | .infinity s => .infinite (isMinus s)
  | .zero s => .finite ⟨isMinus s, 0, -1074⟩
  | .finite s m e _ => .finite ⟨isMinus s, m, e⟩

theorem toNat_unpackExponent (b : BitVec 64) :
    (@unpackExponent .binary64 b).toNat = b.toNat / 2 ^ 52 % 2 ^ 11 := by
  unfold unpackExponent
  rw [BitVec.toNat_cast, BitVec.extractLsb_toNat, Nat.shiftRight_eq_div_pow]
  rfl

theorem toNat_unpackMantissa (b : BitVec 64) :
    (@unpackMantissa .binary64 b).toNat = b.toNat % 2 ^ 52 := by
  unfold unpackMantissa
  rw [BitVec.toNat_cast, BitVec.extractLsb_toNat, Nat.shiftRight_eq_div_pow]
  simp

theorem toNat_unpackSign (b : BitVec 64) :
    (@unpackSign .binary64 b).toNat = b.toNat / 2 ^ 63 := by
  have hlt := b.isLt
  unfold unpackSign
  rw [BitVec.toNat_cast, BitVec.extractLsb_toNat, Nat.shiftRight_eq_div_pow]
  simp
  omega

theorem isMinus_ofBitVec (b : BitVec 1) : isMinus (Sign.ofBitVec b) = (b.toNat == 1) := by
  revert b
  decide

theorem toNat_one_append {w : ℕ} (v : BitVec w) : (1#1 ++ v).toNat = 2 ^ w + v.toNat := by
  rw [BitVec.toNat_append, ← Nat.shiftLeft_add_eq_or_of_lt v.isLt, Nat.shiftLeft_eq]
  simp

theorem toNat_beq {w : ℕ} (v u : BitVec w) : (v.toNat == u.toNat) = decide (v = u) := by
  rw [Bool.eq_iff_iff]
  simp [BitVec.toNat_eq]

/-- What is added to the exponent of a mantissa that is a whole number. -/
theorem exponentOffset : (Format.binary64.exponentBias : ℤ) + ((52 : ℕ) : ℤ) = 1075 := rfl

theorem FloatClass.of_eq (x : Float) : FloatClass.of x = .ofUnpacked x.toModel.unpack := by
  have hbits : x.toBits.toNat = x.toModel.toBits.toBitVec.toNat := rfl
  unfold FloatClass.of Float.Model.unpack UnpackedFloat.unpack
  rw [hbits]
  generalize x.toModel.toBits.toBitVec = b
  have hfull := toNat_beq (@unpackExponent .binary64 b) (-1#11)
  have hlow := toNat_beq (@unpackExponent .binary64 b) 0#11
  have hnone := toNat_beq (@unpackMantissa .binary64 b) 0#52
  simp only [Nat.pow_eq, ← toNat_unpackExponent, ← toNat_unpackMantissa, ← toNat_unpackSign,
    exponentOffset]
  rw [show (-1#11).toNat = 2047 from rfl] at hfull
  rw [show (0#11).toNat = 0 from rfl] at hlow
  rw [show (0#52).toNat = 0 from rfl] at hnone
  rw [hfull, hlow, hnone]
  simp only [decide_eq_true_eq]
  split
  · split <;> simp [ofUnpacked, isMinus_ofBitVec]
  · split
    · next hexp =>
      split
      · next hman => simp [ofUnpacked, isMinus_ofBitVec, hman]
      · simp [ofUnpacked, isMinus_ofBitVec, hexp]
    · rw [ofUnpacked, isMinus_ofBitVec, toNat_one_append]

/-! ## Finite doubles -/

/-- The mantissas and exponents of finite doubles: the leading bit is set unless the exponent is the
lowest one. -/
structure IsDouble (m : ℕ) (e : ℤ) : Prop where
  mantissa_lt : m < 2 ^ 53
  le_exponent : -1074 ≤ e
  exponent_le : e ≤ 971
  normal : 2 ^ 52 ≤ m ∨ e = -1074

/-- The finite ones among the parts of a double are those of a finite double. -/
def IsCanonical (u : UnpackedFloat) : Prop :=
  ∀ s m e h, u = .finite s m e h → IsDouble m e

theorem isCanonical_unpack (x : Float.Model) : IsCanonical x.unpack := by
  intro s m e h hu
  unfold Float.Model.unpack UnpackedFloat.unpack at hu
  generalize x.toBits.toBitVec = b at hu
  have hexp : (@unpackExponent .binary64 b).toNat < 2 ^ 11 := BitVec.isLt _
  have hman : (@unpackMantissa .binary64 b).toNat < 2 ^ 52 := BitVec.isLt _
  have hlead : (1#1 ++ @unpackMantissa .binary64 b).toNat =
      2 ^ 52 + (@unpackMantissa .binary64 b).toNat := toNat_one_append _
  simp only [exponentOffset] at hu
  split at hu
  · split at hu <;> cases hu
  · next hfull =>
    split at hu
    · next hlow =>
      split at hu
      · cases hu
      · cases hu
        rw [hlow]
        exact ⟨by omega, by simp, by simp, .inr (by simp)⟩
    · next hlow =>
      cases hu
      rw [hlead]
      simp [BitVec.toNat_eq] at hfull hlow
      refine ⟨?_, ?_, ?_, ?_⟩ <;> omega

namespace IsDouble

variable {m n : ℕ} {e f : ℤ}

theorem value_lt (h : IsDouble m e) : (m : ℚ) * 2 ^ e < 2 ^ 1024 := by
  have hm : (m : ℚ) < 2 ^ 53 := by exact_mod_cast h.mantissa_lt
  have he : (2 : ℚ) ^ e ≤ 2 ^ (971 : ℤ) := zpow_le_zpow_right₀ (by norm_num) h.exponent_le
  calc (m : ℚ) * 2 ^ e < 2 ^ 53 * 2 ^ e := by gcongr
    _ ≤ 2 ^ 53 * 2 ^ (971 : ℤ) := by gcongr
    _ = 2 ^ 1024 := by rw [zpow_ofNat, ← pow_add]

theorem value_lt_of_exponent_lt (hm : IsDouble m e) (hn : IsDouble n f) (h : e < f) :
    (m : ℚ) * 2 ^ e < n * 2 ^ f := by
  have hm' : (m : ℚ) < 2 ^ 53 := by exact_mod_cast hm.mantissa_lt
  have hn' : (2 ^ 52 : ℚ) ≤ n := by
    have hnormal := hn.normal.resolve_right (by have := hm.le_exponent; omega)
    exact_mod_cast hnormal
  calc (m : ℚ) * 2 ^ e < 2 ^ 53 * 2 ^ e := by gcongr
    _ = 2 ^ 52 * 2 ^ (e + 1) := by rw [zpow_add₀ (by norm_num)]; ring
    _ ≤ 2 ^ 52 * 2 ^ f := by gcongr; norm_num; omega
    _ ≤ n * 2 ^ f := by gcongr

/-- Doubles are ordered by their exponents first and then by their mantissas. -/
theorem compare_eq (hm : IsDouble m e) (hn : IsDouble n f) :
    (compare e f).then (compare m n) = compare ((m : ℚ) * 2 ^ e) (n * 2 ^ f) := by
  rcases lt_trichotomy e f with h | rfl | h
  · rw [compare_lt_iff_lt.mpr h, compare_lt_iff_lt.mpr (hm.value_lt_of_exponent_lt hn h)]
    rfl
  · rw [compare_eq_iff_eq.mpr rfl]
    rcases lt_trichotomy m n with h | rfl | h
    · have hlt : (m : ℚ) * 2 ^ e < n * 2 ^ e := by gcongr
      rw [compare_lt_iff_lt.mpr h, compare_lt_iff_lt.mpr hlt]
      rfl
    · rw [compare_eq_iff_eq.mpr rfl, compare_eq_iff_eq.mpr rfl]
      rfl
    · have hlt : (n : ℚ) * 2 ^ e < m * 2 ^ e := by gcongr
      rw [compare_gt_iff_gt.mpr h, compare_gt_iff_gt.mpr hlt]
      rfl
  · rw [compare_gt_iff_gt.mpr h, compare_gt_iff_gt.mpr (hn.value_lt_of_exponent_lt hm h)]
    rfl

theorem bounds (h : IsDouble m e) (hm : 0 < m) :
    -2 ^ 1024 < -((m : ℚ) * 2 ^ e) ∧ -((m : ℚ) * 2 ^ e) < 0 ∧ 0 < (m : ℚ) * 2 ^ e ∧
      (m : ℚ) * 2 ^ e < 2 ^ 1024 := by
  have hpos : 0 < (m : ℚ) * 2 ^ e := by positivity
  exact ⟨neg_lt_neg h.value_lt, neg_neg_of_pos hpos, hpos, h.value_lt⟩

end IsDouble

/-! ## Comparing doubles -/

theorem compare_neg_neg (p q : ℚ) : (compare p q).swap = compare (-p) (-q) := by
  rcases lt_trichotomy p q with h | rfl | h
  · rw [compare_lt_iff_lt.mpr h, compare_gt_iff_gt.mpr (neg_lt_neg h)]
    rfl
  · rw [compare_eq_iff_eq.mpr rfl, compare_eq_iff_eq.mpr rfl]
    rfl
  · rw [compare_gt_iff_gt.mpr h, compare_lt_iff_lt.mpr (neg_lt_neg h)]
    rfl

theorem number_zero (s : Sign) : (FloatClass.ofUnpacked (.zero s)).number? = some 0 := by
  cases s <;> simp [FloatClass.ofUnpacked, FloatClass.number?, FloatParts.toRat, signed]

/-- The table of comparisons, cell by cell: zeros, finite doubles and infinities, with their
signs. -/
theorem compare_unpacked {u v : UnpackedFloat} {a b : ℚ} (hu : IsCanonical u) (hv : IsCanonical v)
    (ha : (FloatClass.ofUnpacked u).number? = some a)
    (hb : (FloatClass.ofUnpacked v).number? = some b) : u.compare v = some (compare a b) := by
  have hlt {p q : ℚ} (h : p < q) : some Ordering.lt = some (compare p q) :=
    congrArg some (compare_lt_iff_lt.mpr h).symm
  have hgt {p q : ℚ} (h : q < p) : some Ordering.gt = some (compare p q) :=
    congrArg some (compare_gt_iff_gt.mpr h).symm
  have heq {p : ℚ} : some Ordering.eq = some (compare p p) :=
    congrArg some (compare_eq_iff_eq.mpr rfl).symm
  have hbelow : -2 ^ 1024 < (0 : ℚ) := by simp
  have habove : (0 : ℚ) < 2 ^ 1024 := by positivity
  cases u with
  | notANumber => cases ha
  | infinity s =>
    obtain rfl := Option.some.inj ha
    cases v with
    | notANumber => cases hb
    | infinity t =>
      obtain rfl := Option.some.inj hb
      cases s <;> cases t
      · exact heq
      · exact hlt (hbelow.trans habove)
      · exact hgt (hbelow.trans habove)
      · exact heq
    | zero t =>
      obtain rfl := Option.some.inj ((number_zero t).symm.trans hb)
      cases s
      · exact hlt hbelow
      · exact hgt habove
    | finite t n f hn =>
      obtain ⟨h₁, h₂, h₃, h₄⟩ := (hv t n f hn rfl).bounds hn
      obtain rfl := Option.some.inj hb
      cases s <;> cases t
      · exact hlt h₁
      · exact hlt (hbelow.trans h₃)
      · exact hgt (h₂.trans habove)
      · exact hgt h₄
  | zero s =>
    obtain rfl := Option.some.inj ((number_zero s).symm.trans ha)
    cases v with
    | notANumber => cases hb
    | infinity t =>
      obtain rfl := Option.some.inj hb
      cases t
      · exact hgt hbelow
      · exact hlt habove
    | zero t =>
      obtain rfl := Option.some.inj ((number_zero t).symm.trans hb)
      exact heq
    | finite t n f hn =>
      obtain ⟨-, h₂, h₃, -⟩ := (hv t n f hn rfl).bounds hn
      obtain rfl := Option.some.inj hb
      cases t
      · exact hgt h₂
      · exact hlt h₃
  | finite s m e hm =>
    have hdouble := hu s m e hm rfl
    obtain ⟨h₁, h₂, h₃, h₄⟩ := hdouble.bounds hm
    obtain rfl := Option.some.inj ha
    cases v with
    | notANumber => cases hb
    | infinity t =>
      obtain rfl := Option.some.inj hb
      cases s <;> cases t
      · exact hgt h₁
      · exact hlt (h₂.trans habove)
      · exact hgt (hbelow.trans h₃)
      · exact hlt h₄
    | zero t =>
      obtain rfl := Option.some.inj ((number_zero t).symm.trans hb)
      cases s
      · exact hlt h₂
      · exact hgt h₃
    | finite t n f hn =>
      -- only equal signs need the fields: below zero their order is turned round
      have hdouble' := hv t n f hn rfl
      obtain ⟨-, k₂, k₃, -⟩ := hdouble'.bounds hn
      obtain rfl := Option.some.inj hb
      cases s <;> cases t
      · show some ((compare e f).then (compare m n)).swap =
          some (compare (-((m : ℚ) * 2 ^ e)) (-(n * 2 ^ f)))
        rw [hdouble.compare_eq hdouble', compare_neg_neg]
      · exact hlt (h₂.trans k₃)
      · exact hgt (k₂.trans h₃)
      · exact congrArg some (hdouble.compare_eq hdouble')

section

variable {x y : Float} {a b : ℚ} (hx : (FloatClass.of x).number? = some a)
  (hy : (FloatClass.of y).number? = some b)

include hx hy

theorem compare_of_number :
    x.toModel.unpack.compare y.toModel.unpack = some (compare a b) := by
  rw [FloatClass.of_eq] at hx hy
  exact compare_unpacked (isCanonical_unpack _) (isCanonical_unpack _) hx hy

theorem lt_iff_number : x < y ↔ a < b := by
  show decide ((x.toModel.unpack.compare y.toModel.unpack == some .lt) = true) = true ↔ _
  rw [compare_of_number hx hy]
  simp [compare_lt_iff_lt]

theorem le_iff_number : x ≤ y ↔ a ≤ b := by
  show decide ((x.toModel.unpack.compare y.toModel.unpack).any (·.isLE) = true) = true ↔ _
  rw [compare_of_number hx hy]
  simp [Std.LawfulBCmp.isLE_iff_le]

theorem beq_iff_number : (x == y) = true ↔ a = b := by
  show (x.toModel.unpack.compare y.toModel.unpack == some .eq) = true ↔ _
  rw [compare_of_number hx hy]
  simp

end

end Scalarize
